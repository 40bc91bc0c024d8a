import Userstyle.Proofs.NodeLexemes

/-!
# The lexemes that a reader has taken

`Reader.Took` says how the lexemes that a reader has taken are those of its nodes: the nodes that
are finished are spread over them (`Spread`), in each of the open document blocks (`Levels`), and the
rest are those of the node that the reader is in the middle of. A step of the reader keeps this, and
at the end of the text all nodes have their places among the lexemes (`Reader.Took.finish`).
-/

namespace Userstyle.Css

open Source

/-- The lexeme that a block's owner begins with. -/
def Owner.lexeme : Owner → Lexeme
  | .rule first => first
  | .atRule keyword _ _ => keyword

/-- The lexemes are those of an at-rule up to some place in its prelude. Cut short there, it would
end with the last one outside of brackets that is not white space, which is also in its prelude. -/
structure Prelude.Begins (p : Prelude) (ls : List Lexeme) : Prop where
  head : ls.head? = some p.keyword
  last : ∃ a b nesting, ls = a ++ b ∧ a.getLast? = some p.last ∧ Enters a (.prelude p.name nesting)
  last_ne : p.last.token ≠ .semicolon ∧ p.last.token ≠ .closing .curly

/-- The lexemes are those of what the reader is in the middle of. -/
def Mode.Begins (ls : List Lexeme) : Mode → Prop
  | .between => ls = []
  | .prelude p => p.Begins ls
  | .selector first _ _ => ls.head? = some first
  | .block owner _ => ls.head? = some owner.lexeme

/-- The lexemes are those of open document blocks, up to the last of the nodes in the innermost
one. -/
inductive Levels : List Document → List (Node Nat) → List Lexeme → Prop where
  | sheet {ns : List (Node Nat)} {ls : List Lexeme} (h : Spread ns ls) : Levels [] ns ls
  | document {d : Document} {outer : List Document} {ns : List (Node Nat)}
      {before head inner : List Lexeme} (hbefore : Levels outer d.before before)
      (hhead : head.head? = some d.owner.lexeme) (hopen : Opens d.owner.outline head)
      (hinner : Spread ns inner) : Levels (d :: outer) ns (before ++ head ++ inner)

/-- The reader has taken the lexemes. -/
def Reader.Took (r : Reader) (ls : List Lexeme) : Prop :=
  ∃ base current, ls = base ++ current ∧ Levels r.documents r.nodes base ∧
    Enters current r.mode.stage ∧ r.mode.Begins current

theorem Levels.of_cons {d : Document} {outer : List Document} {ns : List (Node Nat)}
    {ls : List Lexeme} (h : Levels (d :: outer) ns ls) :
    ∃ before head inner, ls = before ++ head ++ inner ∧ Levels outer d.before before ∧
      head.head? = some d.owner.lexeme ∧ Opens d.owner.outline head ∧ Spread ns inner := by
  cases h with
  | document hbefore hhead hopen hinner => exact ⟨_, _, _, rfl, hbefore, hhead, hopen, hinner⟩

theorem Levels.of_nil {ns : List (Node Nat)} {ls : List Lexeme} (h : Levels [] ns ls) :
    Spread ns ls := by
  cases h with
  | sheet h => exact h

theorem Levels.append {ds : List Document} {ns ns' : List (Node Nat)} {ls ms : List Lexeme}
    (h : Levels ds ns ls) (hs : ∀ inner, Spread ns inner → Spread ns' (inner ++ ms)) :
    Levels ds ns' (ls ++ ms) := by
  cases h with
  | sheet h => exact .sheet (hs ls h)
  | document hbefore hhead hopen hinner =>
    rw [List.append_assoc]
    exact .document hbefore hhead hopen (hs _ hinner)

theorem Levels.node {ds : List Document} {ns : List (Node Nat)} {ls ms : List Lexeme} {n : Node Nat}
    (h : Levels ds ns ls) (hc : Covers n.span ms) (ha : Adds [n.outline] ms)
    (hi : Inside false n.children ms) : Levels ds (ns ++ [n]) (ls ++ ms) :=
  h.append fun _ hs => hs.node hc ha hi

/-- The first lexeme is the same when another one is taken. -/
theorem head?_snoc {ls : List Lexeme} {k : Lexeme} (l : Lexeme) (h : ls.head? = some k) :
    (ls ++ [l]).head? = some k := by
  cases ls with
  | nil => cases h
  | cons m ls => exact h

theorem covers_snoc {ls : List Lexeme} {k : Lexeme} (l : Lexeme) (h : ls.head? = some k) :
    Covers ⟨k.start.offset, l.lastOffset⟩ (ls ++ [l]) := by
  constructor
  · rw [head?_snoc l h]
    rfl
  · rw [List.getLast?_concat]
    rfl

theorem Owner.span_node (owner : Owner) (children : List (Node Nat)) (last : Nat) :
    (owner.node children last).span = ⟨owner.lexeme.start.offset, last⟩ := by
  cases owner <;> rfl

/-- The children of an owner's node lie where the children lie. -/
theorem Owner.inside_node {owner : Owner} {children : List (Node Nat)} {final : Bool}
    {ls : List Lexeme} (last : Nat) (h : Inside final children ls) :
    Inside final (owner.node children last).children ls := by
  cases owner with
  | rule first => exact Or.inl rfl
  | atRule keyword name params => exact h

/-- A document block makes up a node when a closing curly bracket ends it. -/
theorem Opens.adds {o : Outline} {head inner : List Lexeme} {l : Lexeme} (hhead : Opens o head)
    (hinner : ∀ s : Sketch, s.stage = .between → ∃ os, s.run (tokensOf (inner ++ [l])) =
      (s.add os).close) : Adds [o] (head ++ (inner ++ [l])) := by
  intro s hs
  rw [tokensOf_append, Sketch.run_append, hhead s hs, Option.bind_some]
  obtain ⟨os, hrun⟩ := hinner ⟨.between, [], (o, s.nodes) :: s.frames⟩ rfl
  rw [hrun]
  rfl

/-- The lexemes of a reader that has taken a part of what it is in the middle of. -/
theorem Reader.Took.goesOn {r r' : Reader} {ls : List Lexeme} {l : Lexeme} (h : r.Took ls)
    (hstep : r.step l = .ok r') (hn : r'.nodes = r.nodes) (hd : r'.documents = r.documents)
    (hb : ∀ current, r.mode.Begins current → Enters (current ++ [l]) r'.mode.stage →
      r'.mode.Begins (current ++ [l])) : r'.Took (ls ++ [l]) := by
  obtain ⟨base, current, rfl, hlevels, he, hbegins⟩ := h
  have henters := enters_step he hstep hn hd
  refine ⟨base, current ++ [l], by simp, ?_, henters, hb current hbegins henters⟩
  rw [hn, hd]
  exact hlevels

theorem Reader.Selects.head {r : Reader} {l first : Lexeme} (h : r.Selects l first)
    {current : List Lexeme} (hb : r.mode.Begins current) :
    (current ++ [l]).head? = some first := by
  cases h with
  | begins hm =>
    rw [hm] at hb
    rw [show current = [] from hb]
    rfl
  | goesOn hm =>
    rw [hm] at hb
    exact head?_snoc l hb

theorem Reader.took_of_between {r : Reader} {ls : List Lexeme} (hm : r.mode = .between)
    (h : Levels r.documents r.nodes ls) : r.Took ls := by
  refine ⟨ls, [], by simp, h, ?_, ?_⟩
  · rw [hm]
    exact enters_nil
  · rw [hm]
    rfl

/-- An at-rule goes on with a lexeme that does not count as its last one. -/
theorem Prelude.Begins.snoc {p q : Prelude} {ls : List Lexeme} (l : Lexeme) (h : p.Begins ls)
    (hkeyword : q.keyword = p.keyword) (hname : q.name = p.name) (hlast : q.last = p.last) :
    q.Begins (ls ++ [l]) := by
  obtain ⟨hhead, ⟨a, b, nesting, rfl, ha, he⟩, hne⟩ := h
  refine ⟨?_, ⟨a, b ++ [l], nesting, by simp, by rw [hlast, ha], by rwa [hname]⟩, by rwa [hlast]⟩
  rw [hkeyword]
  exact head?_snoc l hhead

/-- An at-rule that is cut short takes up its lexemes up to the last that is not white space. -/
theorem Prelude.Begins.cutShort {p : Prelude} {ls : List Lexeme} (h : p.Begins ls) :
    ∃ a b, ls = a ++ b ∧ Covers p.cutShort.span a ∧
      ∀ final, Yields final [p.cutShort.outline] a := by
  obtain ⟨hhead, ⟨a, b, nesting, rfl, hlast, he⟩, hne⟩ := h
  refine ⟨a, b, rfl, ?_, fun final => .cutShort he.breaksOff fun l hl => ?_⟩
  · cases a with
    | nil => cases hlast
    | cons k a =>
      obtain rfl := Option.some.inj hhead
      exact ⟨rfl, by rw [hlast]; rfl⟩
  · obtain rfl := Option.some.inj (hlast.symm.trans hl)
    exact hne

/-- A closing curly bracket behind whole nodes ends the document block around them. -/
theorem Spread.closes {ns : List (Node Nat)} {inner : List Lexeme} {l : Lexeme}
    (h : Spread ns inner) (ht : l.token = .closing .curly) (s : Sketch)
    (hs : s.stage = .between) : ∃ os, s.run (tokensOf (inner ++ [l])) = (s.add os).close := by
  refine ⟨ns.map Node.outline, ?_⟩
  rw [tokensOf_append, Sketch.run_append, h.adds s hs, Option.bind_some]
  simp [tokensOf, Sketch.run, Sketch.step, Sketch.add, Sketch.stepBetween, ht]

/-- A closing curly bracket behind whole nodes and a prelude ends the document block around them. -/
theorem Spread.closes_prelude {ns : List (Node Nat)} {inner current : List Lexeme} {l : Lexeme}
    {name : String} (h : Spread ns inner) (he : Enters current (.prelude name []))
    (ht : l.token = .closing .curly) (s : Sketch) (hs : s.stage = .between) :
    ∃ os, s.run (tokensOf (inner ++ current ++ [l])) = (s.add os).close := by
  refine ⟨ns.map Node.outline ++ [.atRule name], ?_⟩
  rw [tokensOf_append, tokensOf_append, Sketch.run_append, Sketch.run_append, h.adds s hs,
    Option.bind_some, he _ rfl, Option.bind_some]
  simp [tokensOf, Sketch.run, Sketch.step, Sketch.add, Sketch.stepPrelude, ht, Sketch.push]

/-- When the innermost document block ends, its rule takes up what the reader has taken since it
began. -/
theorem Levels.closeDocument {d : Document} {outer : List Document} {ns : List (Node Nat)}
    {base rest : List Lexeme} {l : Lexeme} {children : List (Node Nat)}
    (h : Levels (d :: outer) ns base)
    (hclose : ∀ inner, Spread ns inner → ∀ s : Sketch, s.stage = .between → ∃ os,
      s.run (tokensOf (inner ++ rest ++ [l])) = (s.add os).close)
    (hinside : ∀ inner, Spread ns inner → Inside false children (inner ++ rest)) :
    Levels outer (d.before ++ [d.owner.node children l.lastOffset]) (base ++ rest ++ [l]) := by
  obtain ⟨before, head, inner, rfl, hbefore, hhead, hopen, hinner⟩ := h.of_cons
  have hadds := hopen.adds (hclose inner hinner)
  have hfirst : (head ++ (inner ++ rest)).head? = some d.owner.lexeme := by
    rw [List.head?_append, hhead]
    rfl
  have hcovers := covers_snoc l hfirst
  rw [List.append_assoc] at hcovers
  have hsplit : before ++ head ++ inner ++ rest ++ [l] =
      before ++ (head ++ (inner ++ rest ++ [l])) := by simp
  rw [hsplit]
  refine hbefore.node ?_ ?_ (Owner.inside_node _ ((hinside inner hinner).imp_right ?_))
  · rwa [Owner.span_node]
  · rwa [Owner.outline_node]
  · rintro ⟨a, ms, b, heq, hp⟩
    exact ⟨head ++ a, ms, b ++ [l], by rw [heq]; simp, hp⟩

/-- A step of the reader adds the lexeme to those it has taken. -/
theorem Reader.Took.step {r r' : Reader} {ls : List Lexeme} {l : Lexeme} (h : r.Took ls)
    (hstep : r.step l = .ok r') : r'.Took (ls ++ [l]) := by
  have hgoesOn := h.goesOn hstep
  have hmove := step_move hstep
  obtain ⟨base, current, rfl, hlevels, he, hbegins⟩ := h
  -- A lexeme between two nodes is spread over, one inside of a node leads on from the others of that
  -- node, and the last one of a node is spread over together with them.
  cases hmove with
  | pass hm ht =>
    rw [hm] at he hbegins
    obtain rfl : current = [] := hbegins
    have hone : Enters ([] ++ [l]) r.mode.stage := enters_step (hm ▸ enters_nil) hstep rfl rfl
    rw [hm] at hone
    rw [List.append_nil]
    exact took_of_between hm (hlevels.append fun _ hs => hs.gap hone.adds_nil)
  | comment hm ht =>
    rw [hm] at hbegins
    obtain rfl : current = [] := hbegins
    have hone : Adds [.comment] ([] ++ [l]) := enters_nil.adds fun s hs => by
      simp [Sketch.step, hs, Sketch.stepBetween, ht]
    rw [List.append_nil]
    exact took_of_between rfl (hlevels.node ⟨rfl, rfl⟩ hone (Or.inl rfl))
  | keyword hm ht =>
    refine hgoesOn rfl rfl fun current hb he => ?_
    rw [hm] at hb
    obtain rfl : current = [] := hb
    refine ⟨rfl, ⟨[l], [], [], rfl, rfl, he⟩, ?_, ?_⟩ <;> rw [ht] <;> exact Token.noConfusion
  | @leave d outer hm ht hd =>
    rw [hm] at hbegins
    obtain rfl : current = [] := hbegins
    rw [hd] at hlevels
    refine took_of_between rfl (hlevels.closeDocument (fun inner hs => ?_) fun inner hs => ?_)
    · rw [List.append_nil]
      exact hs.closes ht
    · rw [List.append_nil]
      exact hs.inside false
  | select hs => exact hgoesOn rfl rfl fun _ hb _ => hs.head hb
  | selectInside hm =>
    refine hgoesOn rfl rfl fun current hb _ => ?_
    rw [hm] at hb
    exact head?_snoc l hb
  | openRule hs => exact hgoesOn rfl rfl fun _ hb _ => hs.head hb
  | prelude hm hn ht =>
    refine hgoesOn rfl rfl fun current hb he => ?_
    rw [hm] at hb
    refine ⟨head?_snoc l hb.head,
      ⟨current ++ [l], [], _, by simp, List.getLast?_concat, he⟩, ?_, ?_⟩
    · rintro hsemi
      rw [hsemi] at ht
      cases ht
    · rintro hcurly
      rw [hcurly] at ht
      cases ht
  | preludeSpace hm hn ht =>
    refine hgoesOn rfl rfl fun current hb _ => ?_
    rw [hm] at hb
    exact hb.snoc l rfl rfl rfl
  | preludeInside hm hn =>
    refine hgoesOn rfl rfl fun current hb _ => ?_
    rw [hm] at hb
    exact hb.snoc l rfl rfl rfl
  | @statement p hm hn ht =>
    rw [hm] at he hbegins
    have hadds : Adds [.atRule p.name] (current ++ [l]) := he.adds fun s hs => by
      simp [Sketch.step, hs, Mode.stage, hn, Sketch.stepPrelude, ht]
    rw [List.append_assoc]
    exact took_of_between rfl (hlevels.node (covers_snoc l hbegins.head) hadds (Or.inl rfl))
  | @cutShort p d outer hm hn ht hd =>
    rw [hm] at he hbegins
    rw [hd] at hlevels
    have hprelude : Enters current (.prelude p.name []) := by rwa [← hn]
    refine took_of_between rfl (hlevels.closeDocument (fun inner hs => ?_) fun inner hs => ?_)
    · exact hs.closes_prelude hprelude ht
    · obtain ⟨a, b, rfl, hcovers, hyields⟩ := hbegins.cutShort
      obtain ⟨x, ms, heq, hp⟩ := hs.piece hcovers (hyields false)
      exact Or.inr ⟨x, ms, b, by rw [← heq]; simp, hp⟩
  | @openDocument p hm hn ht hname =>
    rw [hm] at he hbegins
    have hopen : Opens (.atRule p.name) (current ++ [l]) := by
      intro s hs
      rw [tokensOf_append, Sketch.run_append, he s hs, Option.bind_some]
      simp [tokensOf, Sketch.run, Sketch.step, Sketch.stepPrelude, ht, Mode.stage, hn, hname]
    have hlevel := Levels.document
      (d := ⟨.atRule p.keyword p.name (p.params p.asked), r.nodes⟩) hlevels
      (head?_snoc l hbegins.head) hopen .nil
    rw [List.append_nil, ← List.append_assoc] at hlevel
    exact took_of_between rfl hlevel
  | openBlock hm hn ht hname =>
    refine hgoesOn rfl rfl fun current hb _ => ?_
    rw [hm] at hb
    exact head?_snoc l hb.head
  | inside hm hn =>
    refine hgoesOn rfl rfl fun current hb _ => ?_
    rw [hm] at hb
    exact head?_snoc l hb
  | @close owner nesting hm hn =>
    rw [hm] at he hbegins
    have hadds : Adds [owner.outline] (current ++ [l]) := he.adds fun s hs => by
      simp [Sketch.step, hs, Mode.stage, hn]
    rw [List.append_assoc]
    refine took_of_between rfl (hlevels.node ?_ ?_ (Owner.inside_node _ (Or.inl rfl)))
    · rw [Owner.span_node]
      exact covers_snoc l hbegins
    · rwa [Owner.outline_node]

/-! ## The end of the text -/

/-- The last of the lexemes ends with a closing curly bracket, which is at the offset. -/
def EndsAt (last : Nat) (ls : List Lexeme) : Prop :=
  ∃ l, ls.getLast? = some l ∧ l.lastOffset = last ∧ l.text.getLast? = some '\x7d'

theorem EndsAt.append {last : Nat} {ms : List Lexeme} (ls : List Lexeme) (h : EndsAt last ms) :
    EndsAt last (ls ++ ms) := by
  obtain ⟨l, hl, ho, ht⟩ := h
  have hne : ms ≠ [] := by
    rintro rfl
    cases hl
  exact ⟨l, by rwa [List.getLast?_append_of_ne_nil _ hne], ho, ht⟩

theorem EndsAt.of_append {last : Nat} {ls ms : List Lexeme} (h : EndsAt last (ls ++ ms))
    (hms : ms ≠ []) : EndsAt last ms := by
  obtain ⟨l, hl, ho, ht⟩ := h
  exact ⟨l, by rwa [List.getLast?_append_of_ne_nil _ hms] at hl, ho, ht⟩

theorem ne_nil_of_head? {ls : List Lexeme} {k : Lexeme} (h : ls.head? = some k) : ls ≠ [] := by
  rintro rfl
  cases h

/-- The nodes have their places among the lexemes, of which only the last one ends with them. -/
def AllPlaced (ns : List (Node Nat)) (ls : List Lexeme) : Prop :=
  ∃ (init : List (Node Nat)) (tail? : Option (Node Nat)), ns = init ++ tail?.toList ∧
    (∀ n ∈ init, ∃ a ms b, ls = a ++ ms ++ b ∧ Placed false n ms) ∧
    ∀ n ∈ tail?, ∃ a ms b, ls = a ++ ms ++ b ∧ Placed true n ms

/-- Every node has its place, and needs the end of the text only if no node follows it. -/
theorem AllPlaced.exists_placed {before after : List (Node Nat)} {n : Node Nat} {ls : List Lexeme}
    (h : AllPlaced (before ++ n :: after) ls) :
    ∃ final a ms b, ls = a ++ ms ++ b ∧ Placed final n ms ∧ (final = true → after = []) := by
  obtain ⟨init, tail?, heq, hinit, htail⟩ := h
  have hfalse (hn : n ∈ init) :
      ∃ final a ms b, ls = a ++ ms ++ b ∧ Placed final n ms ∧ (final = true → after = []) := by
    obtain ⟨a, ms, b, hls, hplaced⟩ := hinit n hn
    exact ⟨false, a, ms, b, hls, hplaced, Bool.noConfusion⟩
  cases tail? with
  | none =>
    rw [Option.toList_none, List.append_nil] at heq
    exact hfalse (by rw [← heq]; simp)
  | some m =>
    rcases List.eq_nil_or_concat after with rfl | ⟨after, k, rfl⟩
    · obtain ⟨-, hm⟩ := List.append_inj' heq rfl
      obtain rfl := (List.cons.inj hm).1
      obtain ⟨a, ms, b, hls, hplaced⟩ := htail n rfl
      exact ⟨true, a, ms, b, hls, hplaced, fun _ => rfl⟩
    · have hsplit : before ++ n :: after.concat k = (before ++ n :: after) ++ [k] := by simp
      rw [hsplit] at heq
      obtain ⟨hinit', -⟩ := List.append_inj' heq rfl
      exact hfalse (by rw [← hinit']; simp)

theorem Spread.allPlaced {ns : List (Node Nat)} {ls : List Lexeme} (h : Spread ns ls) :
    AllPlaced ns ls := by
  refine ⟨ns, none, by simp, fun n hn => h.placed hn, ?_⟩
  rintro n ⟨⟩

theorem Spread.allPlaced_concat {ns : List (Node Nat)} {n : Node Nat} {ls ms rest : List Lexeme}
    (h : Spread ns ls) (hn : Placed true n ms) : AllPlaced (ns ++ [n]) (ls ++ ms ++ rest) := by
  refine ⟨ns, some n, rfl, fun m hm => ?_, fun m hm => ?_⟩
  · obtain ⟨a, ks, b, rfl, hp⟩ := h.placed hm
    exact ⟨a, ks, b ++ ms ++ rest, by simp, hp⟩
  · cases hm
    exact ⟨ls, ms, rest, rfl, hn⟩

/-- A document block makes up a node when the text ends it. -/
theorem Opens.completes {o : Outline} {os : List Outline} {head inner : List Lexeme}
    (hhead : Opens o head) (hinner : Completes os inner) : Completes [o] (head ++ inner) := by
  intro s hs
  obtain ⟨s', hrun, hfinish⟩ := hinner ⟨.between, [], (o, s.nodes) :: s.frames⟩ rfl
  refine ⟨s', ?_, ?_⟩
  · rw [tokensOf_append, Sketch.run_append, hhead s hs, Option.bind_some, hrun]
  · rw [hfinish]
    simp [Sketch.add, Sketch.finish, Sketch.closeAll, Sketch.around]

/-- A node that the end of the text ends takes up everything from the beginning of its owner on. -/
theorem Owner.placed_node {owner : Owner} {children : List (Node Nat)} {ls : List Lexeme}
    {last : Nat}
    (hhead : ls.head? = some owner.lexeme) (hcompletes : Completes [owner.outline] ls)
    (hinside : Inside true children ls) (hlast : EndsAt last ls) :
    Placed true (owner.node children last) ls := by
  obtain ⟨l, hl, ho, ht⟩ := hlast
  refine ⟨?_, ?_, Owner.inside_node _ hinside⟩
  · rw [Owner.span_node]
    exact ⟨by rw [hhead]; rfl, by rw [hl]; exact congrArg some ho⟩
  · rw [Owner.outline_node]
    refine .completes rfl hcompletes ?_ fun k hk => ?_
    · cases owner <;> exact fun h => Outline.noConfusion (Option.some.inj h)
    · obtain rfl := Option.some.inj (hl.symm.trans hk)
      exact ht

/-- A document rule that is open when the text ends takes up everything from its keyword on. -/
theorem placed_document {d : Document} {ns : List (Node Nat)} {head inner : List Lexeme}
    {last : Nat}
    (hhead : head.head? = some d.owner.lexeme)
    (hopen : Opens d.owner.outline head)
    (hinner : Completes (ns.map Node.outline) inner) (hinside : Inside true ns inner)
    (hlast : EndsAt last (head ++ inner)) :
    Placed true (d.owner.node ns last) (head ++ inner) ∧
      Completes [(d.owner.node ns last).outline] (head ++ inner) := by
  have hcompletes := hopen.completes hinner
  refine ⟨Owner.placed_node ?_ hcompletes (hinside.imp_right ?_) hlast, ?_⟩
  · rw [List.head?_append, hhead]
    rfl
  · rintro ⟨a, ms, b, rfl, hp⟩
    exact ⟨head ++ a, ms, b, by simp, hp⟩
  · rwa [Owner.outline_node]

/-- When the end of the text closes the open document blocks behind a last node, all nodes are
placed. -/
theorem Reader.nodesAround_placed {ds : List Document} {ns : List (Node Nat)} {n : Node Nat}
    {base ms : List Lexeme} (rest : List Lexeme) {last : Nat} (h : Levels ds ns base)
    (hn : Placed true n ms)
    (hcompletes : Completes [n.outline] (ms ++ rest))
    (hlast : ds ≠ [] → EndsAt last (ms ++ rest)) :
    AllPlaced (nodesAround last (ns ++ [n]) ds) (base ++ ms ++ rest) := by
  induction ds generalizing ns n base ms rest with
  | nil => exact h.of_nil.allPlaced_concat hn
  | cons d outer ih =>
    obtain ⟨before, head, inner, rfl, hbefore, hhead, hopen, hinner⟩ := h.of_cons
    have hlast := hlast (List.cons_ne_nil d outer)
    have hend : EndsAt last (head ++ (inner ++ (ms ++ rest))) := (hlast.append inner).append head
    have hinside : Inside true (ns ++ [n]) (inner ++ (ms ++ rest)) := by
      obtain ⟨a, ks, heq, hp⟩ := hinner.piece hn.covers hn.yields
      exact Or.inr ⟨a, ks, rest, by rw [← heq]; simp, hp⟩
    have hall : Completes ((ns ++ [n]).map Node.outline) (inner ++ (ms ++ rest)) := by
      simpa using hinner.adds.append_completes hcompletes
    obtain ⟨hplaced, hdocument⟩ := placed_document hhead hopen hall hinside hend
    have hrest := ih [] hbefore hplaced (by simpa using hdocument)
      (fun _ => by simpa using hend)
    rw [nodesAround]
    simpa using hrest

/-- When the end of the text closes the open document blocks, all nodes are placed. -/
theorem Reader.closeAll_placed {r : Reader} {ns : List (Node Nat)} {base : List Lexeme}
    {stop : Nat} {last? : Option Nat} (h : Levels r.documents r.nodes base)
    (hf : r.closeAll stop last? = .ok ns) (hlast : ∀ last ∈ last?, EndsAt last base) :
    AllPlaced ns base := by
  unfold closeAll at hf
  cases hd : r.documents with
  | nil =>
    rw [hd] at h hf
    cases hf
    exact h.of_nil.allPlaced
  | cons d outer =>
    rw [hd] at h hf
    cases last? with
    | none => cases hf
    | some last =>
      cases hf
      obtain ⟨before, head, inner, rfl, hbefore, hhead, hopen, hinner⟩ := h.of_cons
      have hend : EndsAt last (head ++ inner) := by
        have hend := hlast last rfl
        rw [List.append_assoc] at hend
        exact hend.of_append (by simp [ne_nil_of_head? hhead])
      obtain ⟨hplaced, hdocument⟩ :=
        placed_document hhead hopen hinner.adds.completes (hinner.inside true) hend
      have hall := nodesAround_placed [] hbefore hplaced (by simpa using hdocument)
        (fun _ => by simpa using hend)
      rw [nodesAround]
      simpa using hall

/-- When the end of the text ends a last node as well, all nodes are placed. -/
theorem Reader.closeAll_push_placed {r : Reader} {n : Node Nat} {ns : List (Node Nat)}
    {base ms : List Lexeme} (rest : List Lexeme) {stop : Nat} {last? : Option Nat}
    (h : Levels r.documents r.nodes base) (hn : Placed true n ms)
    (hcompletes : Completes [n.outline] (ms ++ rest))
    (hf : (r.push n).closeAll stop last? = .ok ns)
    (hlast : ∀ last ∈ last?, EndsAt last (ms ++ rest)) : AllPlaced ns (base ++ ms ++ rest) := by
  have hdocuments : (r.push n).documents = r.documents := rfl
  unfold closeAll at hf
  rw [hdocuments] at hf
  cases hd : r.documents with
  | nil =>
    rw [hd] at h hf
    cases hf
    exact h.of_nil.allPlaced_concat hn
  | cons d outer =>
    rw [hd] at h hf
    cases last? with
    | none => cases hf
    | some last =>
      cases hf
      exact nodesAround_placed rest h hn hcompletes fun _ => hlast last rfl

/-- At the end of the text, all nodes are placed. -/
theorem Reader.Took.finish {r : Reader} {ls : List Lexeme} {ns : List (Node Nat)} {stop : Nat}
    {last? : Option Nat} (h : r.Took ls) (hf : r.finish stop last? = .ok ns)
    (hlast : ∀ last ∈ last?, EndsAt last ls) : AllPlaced ns ls := by
  obtain ⟨base, current, rfl, hlevels, he, hbegins⟩ := h
  unfold Reader.finish at hf
  cases hm : r.mode with
  | between =>
    rw [hm] at hbegins hf
    obtain rfl : current = [] := hbegins
    rw [List.append_nil] at hlast ⊢
    exact closeAll_placed hlevels hf hlast
  | selector first asked nesting =>
    rw [hm] at hf
    cases hf
  | prelude p =>
    rw [hm] at he hbegins hf
    have hne := ne_nil_of_head? hbegins.head
    obtain ⟨a, b, rfl, hcovers, hyields⟩ := hbegins.cutShort
    have hplaced : Placed true p.cutShort a := ⟨hcovers, hyields true, Or.inl rfl⟩
    have hcompletes : Completes [p.cutShort.outline] (a ++ b) := by
      intro s hs
      exact ⟨_, he s hs, rfl⟩
    have hall := closeAll_push_placed b hlevels hplaced hcompletes hf fun last hl =>
      (hlast last hl).of_append hne
    simpa using hall
  | block owner nesting =>
    rw [hm] at he hbegins hf
    cases last? with
    | none => cases hf
    | some last =>
      have hend := (hlast last rfl).of_append (ne_nil_of_head? hbegins)
      have hcompletes : Completes [owner.outline] current := by
        intro s hs
        exact ⟨_, he s hs, rfl⟩
      have hplaced : Placed true (owner.node [] last) current :=
        Owner.placed_node hbegins hcompletes (Or.inl rfl) hend
      rw [← Owner.outline_node owner [] last] at hcompletes
      have hall := closeAll_push_placed [] hlevels hplaced
        (by simpa using hcompletes) hf fun k hk => by
          cases hk
          simpa using hend
      simpa using hall

end Userstyle.Css
