import Userstyle.Proofs.NodeTexts
import Userstyle.Proofs.SheetGrammar

/-!
# The reader follows the grammar

`Reader.Reads` says what a reader that has taken some lexemes has made of them: the nodes that are
finished stand in open document blocks (`Framed`), and the rest is the node that the reader is in
the middle of. A step keeps this, so the lexemes of a text that is split into nodes make up these
nodes as the grammar says (`readNodes_sheet`).
-/

namespace Userstyle.Css

open Source Text

/-! ## What a reader has made of its lexemes -/

/-- The lexemes are those of an at-rule up to some place in its prelude. Behind the last lexeme that
is not white space there may be white space. -/
structure Prelude.Reads (p : Prelude) (ls : List Lexeme) : Prop where
  keyword : p.keyword.token = .atKeyword p.name
  parts : ∃ kept lost spaces, ls = p.keyword :: (kept ++ lost ++ spaces) ∧
    PreludeParts p.nesting kept lost ∧ kept.getLastD p.keyword = p.last ∧
    (∀ l ∈ spaces, l.token = .space) ∧ (spaces.getLastD p.last).stop = p.asked ∧
    (p.nesting ≠ [] → spaces = [])
  last_ne : p.last.token ≠ .space

/-- The lexemes are those of what the reader is in the middle of. -/
def Mode.Reads (ls : List Lexeme) : Mode → Prop
  | .between => ls = []
  | .prelude p => p.Reads ls
  | .selector first _ nesting =>
    ls.head? = some first ∧ first.token.BeginsRule ∧ Leaves Token.InSelector nesting ls
  | .block owner nesting =>
    ∃ head body inner, ls = head ++ body ∧ owner.Heads head ∧ owner.isDocument = false ∧
      nesting = inner ++ [.curly] ∧ Leaves (· ≠ .closing .curly) inner body

/-- The lexemes are those of open document blocks and of the nodes in them, up to the last of the
nodes in the innermost block. -/
inductive Framed : List Document → List (Node Nat) → List Lexeme → Prop where
  | sheet {ns : List (Node Nat)} {ls : List Lexeme} (h : Sheet .between false ns ls) :
      Framed [] ns ls
  | document {d : Document} {outer : List Document} {ns : List (Node Nat)}
      {before head inner : List Lexeme} (hb : Framed outer d.before before)
      (hh : d.owner.Heads head) (hd : d.owner.isDocument = true)
      (hi : Sheet .between false ns inner) : Framed (d :: outer) ns (before ++ (head ++ inner))

/-- The reader has taken the lexemes. -/
def Reader.Reads (r : Reader) (ls : List Lexeme) : Prop :=
  ∃ base current, ls = base ++ current ∧ Framed r.documents r.nodes base ∧ r.mode.Reads current

section Steps

variable {r r' : Reader} {ls base current : List Lexeme} {l : Lexeme} {p : Prelude}

/-! ## Tokens of preludes and selectors -/

theorem Token.inPrelude_of_continues {t : Token} (h : t.continuesPrelude = true) :
    t.InPrelude := by
  unfold continuesPrelude at h
  unfold InPrelude
  split at h <;> simp_all

theorem Token.inSelector_of_continues {t : Token} (h : t.continuesSelector = true) :
    t.InSelector := by
  unfold continuesSelector at h
  unfold InSelector
  split at h <;> simp_all

/-- The reader goes on from between two nodes into a selector or the block of a rule only with a
token with which a rule may begin. -/
theorem Reader.beginsRule_of_step (hm : r.mode = .between) (h : r.step l = .ok r')
    (hr : (∃ first asked nesting, r'.mode = .selector first asked nesting) ∨
      ∃ first nesting, r'.mode = .block (.rule first) nesting) : l.token.BeginsRule := by
  rw [step, hm] at h
  dsimp only [stepBetween] at h
  cases ht : l.token with
  | opening b => trivial
  | plain => trivial
  | space | commentOpen | commentClose =>
    rw [ht] at h
    cases h
    simp [hm] at hr
  | comment | atKeyword name =>
    rw [ht] at h
    cases h
    simp [push] at hr
  | semicolon | badString | badUrl =>
    simp [ht, stepSelector] at h
  | closing b =>
    rw [ht] at h
    cases b with
    | curly =>
      cases hd : r.documents with
      | nil => simp [hd, stepSelector, ht] at h
      | cons d outer =>
        rw [hd] at h
        cases h
        simp [closeDocument] at hr
    | round | square => simp [stepSelector, ht] at h

/-! ## Preludes -/

theorem Balanced.append_spaces {ok : Token → Prop} (h : Balanced ok ls) (hok : ok .space)
    {spaces : List Lexeme} (hs : ∀ l ∈ spaces, l.token = .space) : Balanced ok (ls ++ spaces) := by
  refine h.append (balanced_of_marks fun l hl => ?_)
  rw [hs l hl]
  exact ⟨hok, fun b => Token.noConfusion⟩

theorem PreludeParts.append_spaces {kept lost spaces : List Lexeme} (keyword : Lexeme)
    (h : PreludeParts [] kept lost) (hs : ∀ l ∈ spaces, l.token = .space) :
    ∃ kept' lost', kept ++ lost ++ spaces = kept' ++ lost' ∧ PreludeParts [] kept' lost' ∧
      kept'.getLastD keyword = spaces.getLastD (kept.getLastD keyword) := by
  rcases List.eq_nil_or_concat spaces with rfl | ⟨init, l, rfl⟩
  · exact ⟨kept, lost, by simp, h, rfl⟩
  · rw [List.concat_eq_append] at hs ⊢
    have hl : l.token = .space := hs l (by simp)
    have hbalanced : Balanced Token.InPrelude (kept ++ lost ++ init) :=
      h.balanced.append_spaces trivial fun k hk => hs k (by simp [hk])
    refine ⟨kept ++ lost ++ (init ++ [l]), [], by simp, ?_, by simp⟩
    rw [← List.append_assoc]
    refine .mark hbalanced ?_ fun b hb => ?_
    · rw [hl]
      trivial
    · rw [hl] at hb
      cases hb

/-- The lexemes of an at-rule up to the place at which the next one is asked for, outside of
brackets. -/
theorem Prelude.Reads.outside (h : p.Reads ls) (hn : p.nesting = []) :
    ∃ kept lost, ls = p.keyword :: (kept ++ lost) ∧ PreludeParts [] kept lost ∧
      p.params p.asked = paramsBetween p.keyword (kept.getLastD p.keyword) := by
  obtain ⟨kept, lost, spaces, rfl, hparts, hlast, hs, hasked, -⟩ := h.parts
  rw [hn] at hparts
  obtain ⟨kept', lost', heq, hparts', hlast'⟩ := hparts.append_spaces p.keyword hs
  refine ⟨kept', lost', by rw [heq], hparts', ?_⟩
  rw [← hasked, ← hlast, ← hlast']
  rfl

theorem Prelude.Reads.begin {name : String} (ht : l.token = .atKeyword name) :
    Prelude.Reads ⟨l, name, l, l.stop, []⟩ [l] := by
  refine ⟨ht, ⟨[], [], [], rfl, .nil, rfl, by simp, rfl, fun _ => rfl⟩, fun hspace => ?_⟩
  have hspace : l.token = .space := hspace
  rw [ht] at hspace
  cases hspace

theorem Prelude.Reads.snoc (h : p.Reads ls) (hn : p.nesting = [])
    (hl : l.token.continuesPrelude = true) :
    Prelude.Reads { p with last := l, asked := l.stop, nesting := nestingAfter l.token [] }
      (ls ++ [l]) := by
  obtain ⟨kept, lost, rfl, hparts, -⟩ := h.outside hn
  refine ⟨h.keyword, ?_, fun hspace => ?_⟩
  · refine ⟨kept ++ lost ++ [l], [], [], by simp, ?_, by simp, by simp, rfl, fun _ => rfl⟩
    exact hparts.snoc (Token.inPrelude_of_continues hl)
  · have hspace : l.token = .space := hspace
    rw [hspace] at hl
    cases hl

theorem Prelude.Reads.snocSpace (h : p.Reads ls) (hn : p.nesting = []) (hl : l.token = .space) :
    Prelude.Reads { p with asked := l.stop } (ls ++ [l]) := by
  obtain ⟨kept, lost, spaces, rfl, hparts, hlast, hs, -, -⟩ := h.parts
  have hspaces : ∀ k ∈ spaces ++ [l], k.token = .space := by
    intro k hk
    rcases List.mem_append.mp hk with hk | hk
    · exact hs k hk
    · rw [List.mem_singleton.mp hk]
      exact hl
  exact ⟨h.keyword, ⟨kept, lost, spaces ++ [l], by simp, hparts, hlast, hspaces, by simp,
    fun hne => absurd hn hne⟩, h.last_ne⟩

theorem Prelude.Reads.snocInside (h : p.Reads ls) (hn : p.nesting ≠ []) :
    Prelude.Reads { p with nesting := nestingAfter l.token p.nesting } (ls ++ [l]) := by
  obtain ⟨kept, lost, spaces, rfl, hparts, hlast, -, hasked, hspaces⟩ := h.parts
  obtain rfl := hspaces hn
  exact ⟨h.keyword, ⟨kept, lost ++ [l], [], by simp, hparts.snocInside hn, hlast, by simp, hasked,
    fun _ => rfl⟩, h.last_ne⟩

theorem Prelude.Reads.statement (h : p.Reads ls) (hn : p.nesting = [])
    (ht : l.token = .semicolon) : Leaf (p.statement p.asked l.lastOffset) (ls ++ [l]) := by
  obtain ⟨kept, lost, rfl, hparts, hparams⟩ := h.outside hn
  unfold Prelude.statement
  rw [hparams]
  exact .statement h.keyword hparts ht

/-- An at-rule owns the block that begins behind its prelude. -/
theorem Prelude.Reads.heads (h : p.Reads ls) (hn : p.nesting = [])
    (ht : l.token = .opening .curly) :
    (Owner.atRule p.keyword p.name (p.params p.asked)).Heads (ls ++ [l]) := by
  obtain ⟨kept, lost, rfl, hparts, hparams⟩ := h.outside hn
  rw [hparams]
  exact .atRule h.keyword hparts ht

theorem Prelude.Reads.cutShort {ns : List (Node Nat)} (h : p.Reads current)
    (hs : Sheet .between false ns ls) :
    Sheet (.prelude p.nesting) false (ns ++ [p.cutShort]) (ls ++ current) := by
  obtain ⟨kept, lost, spaces, rfl, hparts, hlast, hspaces, -, hn⟩ := h.parts
  have hne := h.last_ne
  rw [← hlast] at hne
  have hsheet := Sheet.cutShort hs h.keyword hparts hne hspaces hn
  rwa [hlast] at hsheet

/-! ## Open document blocks -/

theorem Framed.of_nil {ns : List (Node Nat)} (h : Framed [] ns ls) :
    Sheet .between false ns ls := by
  cases h with
  | sheet h => exact h

theorem Framed.append {ds : List Document} {ns ns' : List (Node Nat)} {ms : List Lexeme}
    (h : Framed ds ns base)
    (hs : ∀ inner, Sheet .between false ns inner → Sheet .between false ns' (inner ++ ms)) :
    Framed ds ns' (base ++ ms) := by
  cases h with
  | sheet h => exact .sheet (hs base h)
  | document hb hh hd hi =>
    rw [List.append_assoc, List.append_assoc]
    exact .document hb hh hd (hs _ hi)

theorem Framed.leaf {ds : List Document} {ns : List (Node Nat)} {n : Node Nat} {ms : List Lexeme}
    (h : Framed ds ns base) (hn : Leaf n ms) : Framed ds (ns ++ [n]) (base ++ ms) :=
  h.append fun _ hs => hs.leaf hn

/-- A closing curly bracket ends the innermost document block. -/
theorem Framed.close {d : Document} {outer : List Document} {ns children : List (Node Nat)}
    {ending : Ending} (h : Framed (d :: outer) ns base) (hl : l.token = .closing .curly)
    (he : ending = .between ∨ ending = .prelude [])
    (hs : ∀ inner, Sheet .between false ns inner → Sheet ending false children (inner ++ current)) :
    Framed outer (d.before ++ [d.owner.node children l.lastOffset]) (base ++ (current ++ [l])) := by
  cases h with
  | @document _ _ _ before head inner hb hh hd hi =>
    have hdocument := hb.append fun _ hbefore => hbefore.document hh hd (hs inner hi) he hl
    simpa using hdocument

theorem Framed.nodesAround {ds : List Document} {ns ns' : List (Node Nat)} {ending : Ending}
    {isOpen : Bool} {last : Lexeme} (h : Framed ds ns base)
    (hs : ∀ inner, Sheet .between false ns inner → Sheet ending isOpen ns' (inner ++ current))
    (hlast : ds ≠ [] → (base ++ current).getLast? = some last) :
    Sheet ending (isOpen || !ds.isEmpty) (Reader.nodesAround last.lastOffset ns' ds)
      (base ++ current) := by
  induction h generalizing ns' current isOpen with
  | sheet h => simpa [Reader.nodesAround] using hs _ h
  | @document d outer ns before head inner hb hh hd hi ih =>
    have hne : head ++ (inner ++ current) ≠ [] := by simp [hh.ne_nil]
    have hlast' : (before ++ (head ++ (inner ++ current))).getLast? = some last := by
      simpa using hlast (List.cons_ne_nil d outer)
    have hend : (head ++ (inner ++ current)).getLast? = some last := by
      rwa [List.getLast?_append_of_ne_nil _ hne] at hlast'
    have houter := ih (fun _ hbefore => hbefore.openDocument hh hd (hs inner hi) hend)
      fun _ => hlast'
    simpa [Reader.nodesAround] using houter

/-! ## Steps -/

theorem Reader.reads_of_between (hm : r.mode = .between) (h : Framed r.documents r.nodes ls) :
    r.Reads ls := by
  refine ⟨ls, [], by simp, h, ?_⟩
  rw [hm]
  rfl

theorem Reader.Reads.framed (h : r.Reads ls) (hm : r.mode = .between) :
    Framed r.documents r.nodes ls := by
  obtain ⟨base, current, rfl, hframed, hmode⟩ := h
  rw [hm] at hmode
  obtain rfl : current = [] := hmode
  rwa [List.append_nil]

/-- The reader goes on with the node that it is in the middle of. -/
theorem Reader.Reads.goesOn (h : r.Reads ls) (hn : r'.nodes = r.nodes)
    (hd : r'.documents = r.documents)
    (hm : ∀ current, r.mode.Reads current → r'.mode.Reads (current ++ [l])) :
    r'.Reads (ls ++ [l]) := by
  obtain ⟨base, current, rfl, hframed, hmode⟩ := h
  refine ⟨base, current ++ [l], by simp, ?_, hm current hmode⟩
  rw [hn, hd]
  exact hframed

/-- The node that the reader is in the middle of ends with the lexeme. -/
theorem Reader.Reads.ends {n : Node Nat} (h : r.Reads ls)
    (hm : ∀ current, r.mode.Reads current → Leaf n (current ++ [l])) :
    (r.push n).Reads (ls ++ [l]) := by
  obtain ⟨base, current, rfl, hframed, hmode⟩ := h
  rw [List.append_assoc]
  exact reads_of_between rfl (hframed.leaf (hm current hmode))

/-- The innermost document block ends with the lexeme. -/
theorem Reader.Reads.closeDocument {d : Document} {outer : List Document}
    {children : List (Node Nat)} {ending : Ending} (h : r.Reads ls)
    (hd : r.documents = d :: outer) (ht : l.token = .closing .curly)
    (he : ending = .between ∨ ending = .prelude [])
    (hm : ∀ current inner, r.mode.Reads current → Sheet .between false r.nodes inner →
      Sheet ending false children (inner ++ current)) :
    (Reader.closeDocument { r with nodes := children } d outer l.lastOffset).Reads (ls ++ [l]) := by
  obtain ⟨base, current, rfl, hframed, hmode⟩ := h
  rw [hd] at hframed
  rw [List.append_assoc]
  exact reads_of_between rfl (hframed.close ht he fun inner hs => hm current inner hmode hs)

theorem Reader.Selects.reads {first : Lexeme} (hs : r.Selects l first) (hm : r.mode.Reads current)
    (hb : r.mode = .between → l.token.BeginsRule) :
    Balanced Token.InSelector current ∧ (current ++ [l]).head? = some first ∧
      first.token.BeginsRule := by
  cases hs with
  | begins hmode =>
    rw [hmode] at hm
    obtain rfl : current = [] := hm
    exact ⟨.nil, rfl, hb hmode⟩
  | goesOn hmode =>
    rw [hmode] at hm
    obtain ⟨hhead, hbegins, hleaves⟩ := hm
    exact ⟨hleaves.balanced, head?_snoc l hhead, hbegins⟩

/-- A lexeme in a block ends the block or leaves brackets open in it. -/
theorem Mode.Reads.inBlock {owner : Owner} {nesting : List Bracket}
    (h : (Mode.block owner nesting).Reads current) :
    nestingAfter l.token nesting = [] ∧ Leaf (owner.node [] l.lastOffset) (current ++ [l]) ∨
      nestingAfter l.token nesting ≠ [] ∧
        (Mode.block owner (nestingAfter l.token nesting)).Reads (current ++ [l]) := by
  obtain ⟨head, body, inner, rfl, hheads, hdocument, rfl, hleaves⟩ := h
  rcases hleaves.inside (l := l) with ⟨hnil, henclosed, hclose⟩ | ⟨inner', hnesting, hleaves'⟩
  · refine Or.inl ⟨hnil, ?_⟩
    rw [List.append_assoc]
    exact .block hheads hdocument henclosed hclose
  · refine Or.inr ⟨by simp [hnesting], ?_⟩
    exact ⟨head, body ++ [l], inner', by simp, hheads, hdocument, hnesting, hleaves'⟩

/-- A step of the reader adds the lexeme to those that it has taken. -/
theorem Reader.Reads.step (h : r.Reads ls) (hstep : r.step l = .ok r') : r'.Reads (ls ++ [l]) := by
  have hmove := step_move hstep
  have hbegins := fun hm : r.mode = .between => beginsRule_of_step hm hstep
  -- A lexeme between two nodes is a gap, one inside of a node goes on with it, and the last one of
  -- a node makes it a part of the sheet.
  cases hmove with
  | pass hm ht =>
    refine reads_of_between hm ((h.framed hm).append fun _ hs => hs.gap ?_)
    rcases ht with ht | ht | ht <;> rw [ht] <;> trivial
  | comment hm ht => exact reads_of_between rfl ((h.framed hm).leaf (.comment ht))
  | keyword hm ht =>
    refine h.goesOn rfl rfl fun current hc => ?_
    rw [hm] at hc
    obtain rfl : current = [] := hc
    exact Prelude.Reads.begin ht
  | leave hm ht hd =>
    refine h.closeDocument hd ht (Or.inl rfl) fun current inner hc hs => ?_
    rw [hm] at hc
    obtain rfl : current = [] := hc
    rwa [List.append_nil]
  | select hs ht =>
    refine h.goesOn rfl rfl fun current hc => ?_
    obtain ⟨hbalanced, hhead, hfirst⟩ :=
      hs.reads hc fun hm => hbegins hm (Or.inl ⟨_, _, _, rfl⟩)
    refine ⟨hhead, hfirst, ?_⟩
    exact (Leaves.none hbalanced).snoc fun _ => Token.inSelector_of_continues ht
  | selectInside hm =>
    refine h.goesOn rfl rfl fun current hc => ?_
    rw [hm] at hc
    obtain ⟨hhead, hfirst, hleaves⟩ := hc
    exact ⟨head?_snoc l hhead, hfirst, hleaves.snoc fun hn => by cases hn⟩
  | openRule hs ht =>
    refine h.goesOn rfl rfl fun current hc => ?_
    obtain ⟨hbalanced, hhead, hfirst⟩ :=
      hs.reads hc fun hm => hbegins hm (Or.inr ⟨_, _, rfl⟩)
    exact ⟨current ++ [l], [], [], by simp, .rule hbalanced ht hhead hfirst, rfl, rfl, .none .nil⟩
  | prelude hm hn ht =>
    refine h.goesOn rfl rfl fun current hc => ?_
    rw [hm] at hc
    exact Prelude.Reads.snoc hc hn ht
  | preludeSpace hm hn ht =>
    refine h.goesOn rfl rfl fun current hc => ?_
    rw [hm] at hc
    exact Prelude.Reads.snocSpace hc hn ht
  | preludeInside hm hn =>
    refine h.goesOn rfl rfl fun current hc => ?_
    rw [hm] at hc
    exact Prelude.Reads.snocInside hc hn
  | statement hm hn ht =>
    refine h.ends fun current hc => ?_
    rw [hm] at hc
    exact Prelude.Reads.statement hc hn ht
  | cutShort hm hn ht hd =>
    refine h.closeDocument hd ht (Or.inr rfl) fun current inner hc hs => ?_
    rw [hm] at hc
    rw [← hn]
    exact Prelude.Reads.cutShort hc hs
  | @openDocument p hm hn ht hname =>
    obtain ⟨base, current, rfl, hframed, hmode⟩ := h
    rw [hm] at hmode
    have hopen := Framed.document (d := ⟨.atRule p.keyword p.name (p.params p.asked), r.nodes⟩)
      hframed (Prelude.Reads.heads hmode hn ht) hname .nil
    rw [List.append_nil] at hopen
    rw [List.append_assoc]
    exact reads_of_between rfl hopen
  | openBlock hm hn ht hname =>
    refine h.goesOn rfl rfl fun current hc => ?_
    rw [hm] at hc
    exact ⟨_, [], [], by simp, Prelude.Reads.heads hc hn ht, hname, rfl, .none .nil⟩
  | inside hm hn =>
    refine h.goesOn rfl rfl fun current hc => ?_
    rw [hm] at hc
    rcases hc.inBlock (l := l) with ⟨hnil, -⟩ | ⟨-, hblock⟩
    · exact absurd hnil hn
    · exact hblock
  | close hm hn =>
    refine h.ends fun current hc => ?_
    rw [hm] at hc
    rcases hc.inBlock (l := l) with ⟨-, hleaf⟩ | ⟨hne, -⟩
    · exact hleaf
    · exact absurd hn hne

theorem Reader.Reads.run (h : r.Reads base) (hr : r.run ls = .ok r') : r'.Reads (base ++ ls) := by
  induction ls generalizing r base with
  | nil =>
    cases hr
    rwa [List.append_nil]
  | cons l ls ih =>
    rw [Reader.run] at hr
    split at hr
    · have hrest := ih (h.step ‹_›) hr
      rwa [List.append_assoc] at hrest
    · cases hr

/-! ## The end of the text -/

theorem Framed.closeAll {ns ns' : List (Node Nat)} {ending : Ending} {isOpen : Bool} {stop : Nat}
    {last? : Option Nat} (h : Framed r.documents ns base)
    (hs : ∀ inner, Sheet .between false ns inner → Sheet ending isOpen r.nodes (inner ++ current))
    (hf : r.closeAll stop last? = .ok ns')
    (hlast : ∀ last ∈ last?, EndsAt last (base ++ current)) :
    ∃ isOpen', Sheet ending isOpen' ns' (base ++ current) ∧
      (isOpen' = true → isOpen = true ∨ last?.isSome = true) := by
  unfold Reader.closeAll at hf
  cases hd : r.documents with
  | nil =>
    rw [hd] at h hf
    cases hf
    exact ⟨isOpen, hs base h.of_nil, Or.inl⟩
  | cons d outer =>
    rw [hd] at h hf
    cases last? with
    | none => cases hf
    | some last =>
      cases hf
      obtain ⟨l, hl, rfl, -⟩ := hlast _ rfl
      exact ⟨_, h.nodesAround hs fun _ => hl, fun _ => Or.inr rfl⟩

/-- At the end of the text, the lexemes are a style sheet. If a block is open, a closing curly
bracket is the last character. -/
theorem Reader.Reads.finish {ns : List (Node Nat)} {stop : Nat} {last? : Option Nat}
    (h : r.Reads ls) (hf : r.finish stop last? = .ok ns)
    (hlast : ∀ last ∈ last?, EndsAt last ls) :
    ∃ ending isOpen, Sheet ending isOpen ns ls ∧ ending ≠ .selector ∧
      (isOpen = true → last?.isSome = true) := by
  obtain ⟨base, current, rfl, hframed, hmode⟩ := h
  unfold Reader.finish at hf
  cases hm : r.mode with
  | between =>
    rw [hm] at hmode hf
    obtain rfl : current = [] := hmode
    obtain ⟨isOpen, hsheet, hopen⟩ := hframed.closeAll (fun inner hs => by simpa using hs) hf hlast
    exact ⟨_, isOpen, hsheet, Ending.noConfusion,
      fun ho => (hopen ho).resolve_left Bool.noConfusion⟩
  | prelude p =>
    rw [hm] at hmode hf
    have hmode : p.Reads current := hmode
    obtain ⟨isOpen, hsheet, hopen⟩ :=
      Framed.closeAll (r := r.push p.cutShort) hframed (fun inner hs => hmode.cutShort hs) hf hlast
    exact ⟨_, isOpen, hsheet, Ending.noConfusion,
      fun ho => (hopen ho).resolve_left Bool.noConfusion⟩
  | selector first asked nesting =>
    rw [hm] at hf
    cases hf
  | block owner nesting =>
    rw [hm] at hmode hf
    obtain ⟨head, body, inner, rfl, hheads, hdocument, rfl, hleaves⟩ := hmode
    cases last? with
    | none => cases hf
    | some last =>
      have hne : head ++ body ≠ [] := by simp [hheads.ne_nil]
      obtain ⟨l, hl, rfl, -⟩ := hlast _ rfl
      rw [List.getLast?_append_of_ne_nil _ hne] at hl
      obtain ⟨isOpen, hsheet, -⟩ := Framed.closeAll (r := r.push (owner.node [] l.lastOffset))
        hframed (fun _ hs => hs.openBlock hheads hdocument hleaves hl) hf hlast
      exact ⟨_, isOpen, hsheet, Ending.noConfusion, fun _ => rfl⟩

end Steps

/-- The lexemes of a text that is split into nodes are a style sheet with these nodes. -/
theorem readNodes_sheet {text : List Char} {ns : List (Node Nat)} (h : readNodes text = .ok ns) :
    ∃ ending isOpen, Sheet ending isOpen ns (lexemes (.start text)) ∧ ending ≠ .selector ∧
      (isOpen = true → text.getLast? = some '\x7d') := by
  unfold readNodes at h
  split at h
  · cases h
  · rename_i r hr
    have hstart : Reader.start.Reads [] := Reader.reads_of_between rfl (.sheet .nil)
    obtain ⟨ending, isOpen, hsheet, hending, hopen⟩ :=
      (hstart.run hr).finish h fun last hl => endsAt_lexemes hl
    refine ⟨ending, isOpen, hsheet, hending, fun ho => ?_⟩
    have hsome := hopen ho
    unfold closingOffset? at hsome
    split at hsome
    · assumption
    · cases hsome

end Userstyle.Css
