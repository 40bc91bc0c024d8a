import Userstyle.Proofs.ClosedBlocks
import Userstyle.Proofs.Parameters

/-!
# What the nodes hold

Every character of a style sheet lies inside of exactly one of its nodes, or is white space or part
of a mark of an HTML comment between two nodes (`parse_accounted`). So it is with the characters in
a document block and the nodes in the block. There is one exception: an at-rule that is cut short
behind a bracket ends with the lexeme that opens the bracket, and what stands behind that lexeme is
left out (`LeftOut`).
-/

namespace Userstyle.Source

open Position

theorem positionAt_lt {text : List Char} {o o' : Nat} (h : IsStart text o) (h' : IsStart text o')
    (hlt : o < o') : positionAt text o < positionAt text o' := by
  obtain ⟨b, m, c, a, rfl, rfl, rfl⟩ := h.eq_append h' (Nat.le_of_lt hlt)
  have hne : m ≠ [] := by
    rintro rfl
    simp at hlt
  rw [positionAt_byteLength, List.append_assoc, positionAt_byteLength, behind_append]
  exact lt_through _ hne

theorem positionAt_le_iff {text : List Char} {o o' : Nat} (h : IsStart text o)
    (h' : IsStart text o') : positionAt text o ≤ positionAt text o' ↔ o ≤ o' := by
  constructor
  · intro hle
    by_contra hlt
    have hbefore := positionAt_lt h' h (Nat.lt_of_not_le hlt)
    exact not_le_of_lt hbefore hle
  · exact positionAt_le h h'

end Userstyle.Source

namespace Userstyle.Css

open Source Text

/-! ## Places inside of nodes -/

section Holds

variable {α : Type} [LE α]

/-- The place lies inside of the node, from its first character to its last one. -/
def Node.Holds (n : Node α) (p : α) : Prop := n.span.first ≤ p ∧ p ≤ n.span.last

/-- Exactly one of the nodes holds the place. -/
def HeldOnce (ns : List (Node α)) (p : α) : Prop :=
  ∃ before n after, ns = before ++ n :: after ∧ n.Holds p ∧ ∀ m ∈ before ++ after, ¬m.Holds p

/-- None of the nodes holds the place. -/
def HeldNever (ns : List (Node α)) (p : α) : Prop := ∀ n ∈ ns, ¬n.Holds p

theorem HeldOnce.snoc {ns : List (Node α)} {n : Node α} {p : α} (h : HeldOnce ns p)
    (hn : ¬n.Holds p) : HeldOnce (ns ++ [n]) p := by
  obtain ⟨before, k, after, rfl, hk, hothers⟩ := h
  refine ⟨before, k, after ++ [n], by simp, hk, fun m hm => ?_⟩
  rw [← List.append_assoc] at hm
  rcases List.mem_append.mp hm with hm | hm
  · exact hothers m hm
  · rwa [List.mem_singleton.mp hm]

theorem HeldNever.snoc {ns : List (Node α)} {n : Node α} {p : α} (h : HeldNever ns p)
    (hn : ¬n.Holds p) : HeldNever (ns ++ [n]) p := by
  intro m hm
  rcases List.mem_append.mp hm with hm | hm
  · exact h m hm
  · rwa [List.mem_singleton.mp hm]

end Holds

/-! ## Lexemes inside of nodes -/

/-- The nodes take up the lexemes, one node behind the other, apart from lexemes that may be left
out. -/
inductive Fills (out : Lexeme → Prop) : List (Node Nat) → List Lexeme → Prop where
  | nil : Fills out [] []
  | out {ns : List (Node Nat)} {ls : List Lexeme} {l : Lexeme} (h : Fills out ns ls)
      (hl : out l) : Fills out ns (ls ++ [l])
  | node {ns : List (Node Nat)} {ls ms : List Lexeme} {n : Node Nat} (h : Fills out ns ls)
      (hn : Covers n.span ms) : Fills out (ns ++ [n]) (ls ++ ms)

section Fills

variable {out out' : Lexeme → Prop} {ns : List (Node Nat)} {ls ms : List Lexeme} {n : Node Nat}

theorem Fills.mono (h : Fills out ns ls) (hout : ∀ l, out l → out' l) : Fills out' ns ls := by
  induction h with
  | nil => exact .nil
  | out h hl ih => exact .out ih (hout _ hl)
  | node h hn ih => exact .node ih hn

theorem Fills.append (h : Fills out ns ls) (hms : ∀ l ∈ ms, out l) : Fills out ns (ls ++ ms) := by
  induction ms generalizing ls with
  | nil => simpa using h
  | cons l ms ih =>
    rw [List.forall_mem_cons] at hms
    have hrest := ih (h.out hms.1) hms.2
    rwa [List.append_assoc] at hrest

theorem Covers.ends {span : Span Nat} (h : Covers span ms) :
    (∃ l ∈ ms, span.first = l.start.offset) ∧ ∃ l ∈ ms, span.last = l.lastOffset := by
  constructor
  · obtain ⟨l, hl, hfirst⟩ := Option.map_eq_some_iff.mp h.first
    exact ⟨l, List.mem_of_head? hl, hfirst.symm⟩
  · obtain ⟨l, hl, hlast⟩ := Option.map_eq_some_iff.mp h.last
    exact ⟨l, List.mem_of_getLast? hl, hlast.symm⟩

theorem Fills.ends (h : Fills out ns ls) (hn : n ∈ ns) :
    (∃ l ∈ ls, n.span.first = l.start.offset) ∧ ∃ l ∈ ls, n.span.last = l.lastOffset := by
  induction h with
  | nil => cases hn
  | out h hl ih =>
    obtain ⟨⟨l, hl, hfirst⟩, k, hk, hlast⟩ := ih hn
    exact ⟨⟨l, List.mem_append_left _ hl, hfirst⟩, k, List.mem_append_left _ hk, hlast⟩
  | node h hm ih =>
    rcases List.mem_append.mp hn with hn | hn
    · obtain ⟨⟨l, hl, hfirst⟩, k, hk, hlast⟩ := ih hn
      exact ⟨⟨l, List.mem_append_left _ hl, hfirst⟩, k, List.mem_append_left _ hk, hlast⟩
    · rw [List.mem_singleton.mp hn]
      obtain ⟨⟨l, hl, hfirst⟩, k, hk, hlast⟩ := hm.ends
      exact ⟨⟨l, List.mem_append_right _ hl, hfirst⟩, k, List.mem_append_right _ hk, hlast⟩

theorem Covers.holds {span : Span Nat} {l : Lexeme} {o : Nat} (h : Covers span ms)
    (horder : InOrder ms) (hl : l ∈ ms) (hstart : l.start.offset ≤ o) (hlast : o ≤ l.lastOffset) :
    span.first ≤ o ∧ o ≤ span.last := by
  constructor
  · obtain ⟨k, hk, hfirst⟩ := Option.map_eq_some_iff.mp h.first
    obtain ⟨rest, rfl⟩ := List.head?_eq_some_iff.mp hk
    rcases List.mem_cons.mp hl with rfl | hl
    · omega
    · have hbefore := (List.pairwise_cons.mp horder.pairwise).1 l hl
      have := horder.start_le k List.mem_cons_self
      omega
  · obtain ⟨k, hk, hend⟩ := Option.map_eq_some_iff.mp h.last
    obtain ⟨init, rfl⟩ := List.getLast?_eq_some_iff.mp hk
    rcases List.mem_append.mp hl with hl | hl
    · have hbefore := horder.append.2.2 l hl k (List.mem_singleton_self k)
      have := horder.start_le k (by simp)
      omega
    · rw [List.mem_singleton.mp hl] at hlast
      omega

/-- A place in one of the lexemes is held by exactly one node, or by none if the lexeme is left
out. -/
theorem Fills.held {l : Lexeme} {o : Nat} (h : Fills out ns ls) (horder : InOrder ls) (hl : l ∈ ls)
    (hstart : l.start.offset ≤ o) (hlast : o ≤ l.lastOffset) :
    HeldOnce ns o ∨ HeldNever ns o ∧ out l := by
  induction h with
  | nil => cases hl
  | @out ns ls k h hk ih =>
    obtain ⟨hinit, -, hbefore⟩ := horder.append
    rcases List.mem_append.mp hl with hl | hl
    · exact ih hinit hl
    · rw [List.mem_singleton.mp hl] at hstart ⊢
      refine Or.inr ⟨fun n hn hholds => ?_, hk⟩
      obtain ⟨-, m, hm, hend⟩ := h.ends hn
      have := hbefore m hm k (List.mem_singleton_self k)
      have := hholds.2
      omega
  | @node ns ls ms n h hn ih =>
    obtain ⟨hinit, hms, hbefore⟩ := horder.append
    obtain ⟨⟨k, hk, hfirst⟩, -⟩ := hn.ends
    rcases List.mem_append.mp hl with hl | hl
    · -- The node begins behind the lexeme.
      have hnot : ¬n.Holds o := by
        intro hholds
        have := hbefore l hl k hk
        have := hholds.1
        omega
      rcases ih hinit hl with hheld | ⟨hnever, hout⟩
      · exact Or.inl (hheld.snoc hnot)
      · exact Or.inr ⟨hnever.snoc hnot, hout⟩
    · refine Or.inl ⟨ns, n, [], rfl, hn.holds hms hl hstart hlast, fun m hm hholds => ?_⟩
      rw [List.append_nil] at hm
      obtain ⟨-, x, hx, hend⟩ := h.ends hm
      have := hbefore x hx l hl
      have := hholds.2
      omega

end Fills

/-! ## The lexemes that nodes take up -/

theorem Owner.Heads.head? {owner : Owner} {head : List Lexeme} (h : owner.Heads head) :
    head.head? = some owner.lexeme := by
  cases h with
  | rule h ho hf hb => exact hf
  | atRule hk hp ho => rfl

theorem Owner.Heads.covers {owner : Owner} {head body : List Lexeme} {last : Lexeme}
    (h : owner.Heads head) (children : List (Node Nat)) (hl : (head ++ body).getLast? = some last) :
    Covers (owner.node children last.lastOffset).span (head ++ body) := by
  rw [Owner.span_node]
  constructor
  · rw [List.head?_append, h.head?]
    rfl
  · rw [hl]
    rfl

theorem Leaf.covers {n : Node Nat} {ms : List Lexeme} (h : Leaf n ms) : Covers n.span ms := by
  cases h with
  | comment => exact ⟨rfl, rfl⟩
  | statement =>
    refine ⟨rfl, ?_⟩
    rw [← List.cons_append, List.getLast?_concat]
    rfl
  | block hh =>
    refine hh.covers [] ?_
    rw [← List.append_assoc, List.getLast?_concat]

theorem covers_cutShort (keyword : Lexeme) (kept : List Lexeme) :
    Covers ⟨keyword.start.offset, (kept.getLastD keyword).lastOffset⟩ (keyword :: kept) := by
  refine ⟨rfl, ?_⟩
  rw [List.getLast?_cons, ← List.getLastD_eq_getLast?]
  rfl

theorem Sheet.fills_between {ns : List (Node Nat)} {ls : List Lexeme}
    (h : Sheet .between false ns ls) : Fills (fun l => l.token.IsGap) ns ls := by
  generalize he : Ending.between = ending at h
  generalize ho : false = isOpen at h
  induction h with
  | nil => exact .nil
  | gap h hl ih => exact (ih rfl rfl).out hl
  | leaf h hn ih => exact (ih rfl rfl).node hn.covers
  | @document ending ns children ls head inner owner closer h hh hd hi hending hc ih =>
    refine (ih rfl rfl).node (hh.covers children ?_)
    rw [← List.append_assoc, List.getLast?_concat]
  | cutShort => cases he
  | selector => cases he
  | openBlock => cases ho
  | openDocument => cases ho

/-- The lexeme stands behind a bracket with which the last of the nodes ends, an at-rule that is cut
short. -/
def LeftOut {α : Type} (place : Nat → α) (ns : List (Node α)) (ls : List Lexeme) (l : Lexeme) :
    Prop :=
  ∃ init name params keyword kept opener lost before b,
    ns = init ++ [.atRule name params [] ⟨place keyword.start.offset, place opener.lastOffset⟩] ∧
    ls = before ++ keyword :: (kept ++ opener :: lost) ∧ keyword.token = .atKeyword name ∧
    Balanced Token.InPrelude kept ∧ opener.token = .opening b ∧ l ∈ lost

theorem Sheet.fills {ending : Ending} {isOpen : Bool} {ns : List (Node Nat)} {ls : List Lexeme}
    (h : Sheet ending isOpen ns ls) (he : ending ≠ .selector) :
    Fills (fun l => l.token.IsGap ∨ LeftOut id ns ls l) ns ls := by
  have hbetween {ns' : List (Node Nat)} {ls' : List Lexeme} (h : Sheet .between false ns' ls') :
      Fills (fun l => l.token.IsGap ∨ LeftOut id ns ls l) ns' ls' :=
    h.fills_between.mono fun l => Or.inl
  cases h with
  | nil => exact .nil
  | gap h hl => exact (hbetween h).out (Or.inl hl)
  | leaf h hn => exact (hbetween h).node hn.covers
  | @document ending ns children ls head inner owner closer h hh hd hi hending hc =>
    refine (hbetween h).node (hh.covers children ?_)
    rw [← List.append_assoc, List.getLast?_concat]
  | @cutShort ns nesting ls kept lost spaces keyword name h hk hp hl hs hn =>
    have hfills := (hbetween h).node
      (n := .atRule name (paramsBetween keyword (kept.getLastD keyword)) [] _)
      (covers_cutShort keyword kept)
    have hassoc : ls ++ keyword :: (kept ++ lost ++ spaces) =
        ls ++ keyword :: kept ++ (lost ++ spaces) := by simp
    rw [hassoc] at hfills ⊢
    refine hfills.append fun l hmem => ?_
    by_cases hlost : lost = []
    · rw [hlost, List.nil_append] at hmem
      refine Or.inl ?_
      rw [hs l hmem]
      trivial
    · obtain ⟨init, opener, b, rfl, hopener, hinit⟩ := hp.opener hlost
      rw [List.getLastD_concat] at *
      exact Or.inr ⟨ns, name, _, keyword, init, opener, lost ++ spaces, ls, b, rfl, by simp, hk,
        hinit, hopener, hmem⟩
  | selector => exact absurd rfl he
  | openBlock h hh hd hb hl => exact (hbetween h).node (hh.covers [] hl)
  | openDocument h hh hd hi hl => exact (hbetween h).node (hh.covers _ hl)

/-! ## Characters by their positions -/

section Positions

variable {text : List Char} {ns : List (Node Nat)} {n : Node Nat} {o : Nat}

theorem Node.holds_map (hfirst : IsStart text n.span.first) (hlast : IsStart text n.span.last)
    (ho : IsStart text o) : (n.map (positionAt text)).Holds (positionAt text o) ↔ n.Holds o := by
  unfold Holds
  rw [Node.span_map]
  exact and_congr (positionAt_le_iff hfirst ho) (positionAt_le_iff ho hlast)

theorem HeldOnce.map (hns : ∀ n ∈ ns, IsStart text n.span.first ∧ IsStart text n.span.last)
    (ho : IsStart text o) (h : HeldOnce ns o) :
    HeldOnce (ns.map (Node.map (positionAt text))) (positionAt text o) := by
  obtain ⟨before, n, after, rfl, hn, hothers⟩ := h
  have hat := fun m hm => Node.holds_map (hns m hm).1 (hns m hm).2 ho
  refine ⟨before.map (Node.map (positionAt text)), n.map (positionAt text),
    after.map (Node.map (positionAt text)), by simp, (hat n (by simp)).mpr hn, fun k hk => ?_⟩
  rw [← List.map_append] at hk
  obtain ⟨m, hm, rfl⟩ := List.mem_map.mp hk
  have hmem : m ∈ before ++ n :: after := by
    rcases List.mem_append.mp hm with hm | hm
    · exact List.mem_append_left _ hm
    · exact List.mem_append_right _ (List.mem_cons_of_mem n hm)
  rw [hat m hmem]
  exact hothers m hm

theorem HeldNever.map (hns : ∀ n ∈ ns, IsStart text n.span.first ∧ IsStart text n.span.last)
    (ho : IsStart text o) (h : HeldNever ns o) :
    HeldNever (ns.map (Node.map (positionAt text))) (positionAt text o) := by
  intro k hk
  obtain ⟨m, hm, rfl⟩ := List.mem_map.mp hk
  rw [Node.holds_map (hns m hm).1 (hns m hm).2 ho]
  exact h m hm

theorem LeftOut.map {ls : List Lexeme} {l : Lexeme} (h : LeftOut id ns ls l) :
    LeftOut (positionAt text) (ns.map (Node.map (positionAt text))) ls l := by
  obtain ⟨init, name, params, keyword, kept, opener, lost, before, b, rfl, hls, hrest⟩ := h
  exact ⟨init.map (Node.map (positionAt text)), name, params, keyword, kept, opener, lost, before,
    b, by simp [Node.map, Node.mapAll], hls, hrest⟩

theorem Lexeme.isStart {l : Lexeme} (hl : l ∈ lexemes (.start text)) :
    IsStart text l.start.offset ∧ IsStart text l.lastOffset := by
  obtain ⟨a, b, hab⟩ := List.append_of_mem hl
  obtain ⟨s, c, hs, -⟩ := lexemes_eq_concat hab
  constructor
  · cases htext : l.text with
    | nil => simp [htext] at hs
    | cons d t => exact Lexeme.HasChar.isStart (c := d) hl ⟨[], t, htext, rfl⟩
  · refine Lexeme.HasChar.isStart (c := c) hl ⟨s, [], hs, ?_⟩
    unfold lastOffset
    rw [hs, List.dropLast_concat]

end Positions

/-- The character `c` at the byte offset `o`, which belongs to the lexeme `l`, is held by exactly
one of the nodes, or it is held by none and is white space, part of a mark of an HTML comment, or
left out. -/
def AccountsFor (text : List Char) (nodes : List (Node Position)) (ls : List Lexeme) (l : Lexeme)
    (c : Char) (o : Nat) : Prop :=
  HeldOnce nodes (positionAt text o) ∨
    HeldNever nodes (positionAt text o) ∧
      (isSpace c = true ∨ l.token = .commentOpen ∨ l.token = .commentClose ∨
        LeftOut (positionAt text) nodes ls l)

/-- The nodes account for every character of the lexemes. -/
def Accounted (text : List Char) (nodes : List (Node Position)) (ls : List Lexeme) : Prop :=
  ∀ l ∈ ls, ∀ c o, l.HasChar c o → AccountsFor text nodes ls l c o

/-- The characters of a style sheet that stands among the lexemes of a text. -/
theorem Sheet.accounted {text : List Char} {ending : Ending} {isOpen : Bool}
    {ns : List (Node Nat)} {a ls b : List Lexeme} (h : Sheet ending isOpen ns ls)
    (he : ending ≠ .selector) (hall : lexemes (.start text) = a ++ (ls ++ b)) :
    Accounted text (ns.map (Node.map (positionAt text))) ls := by
  intro l hl c o hchar
  have hmem : ∀ k ∈ ls, k ∈ lexemes (.start text) := by
    intro k hk
    rw [hall]
    simp [hk]
  have horder := (lexemes_inOrder (.start text)).1
  rw [hall] at horder
  have hfills := h.fills he
  have hns : ∀ n ∈ ns, IsStart text n.span.first ∧ IsStart text n.span.last := by
    intro n hn
    obtain ⟨⟨k, hk, hfirst⟩, m, hm, hlast⟩ := hfills.ends hn
    rw [hfirst, hlast]
    exact ⟨(Lexeme.isStart (hmem k hk)).1, (Lexeme.isStart (hmem m hm)).2⟩
  have ho := hchar.isStart (hmem l hl)
  obtain ⟨hstart, hlast⟩ := hchar.within
  rcases hfills.held horder.append.2.1.append.1 hl hstart hlast with hheld | ⟨hnever, hout⟩
  · exact Or.inl (hheld.map hns ho)
  · refine Or.inr ⟨hnever.map hns ho, ?_⟩
    rcases hout with hgap | hleft
    · cases ht : l.token with
      | space =>
        obtain ⟨s, t, htext, -⟩ := hchar
        exact Or.inl (Lexeme.isSpace_text (hmem l hl) ht c (by simp [htext]))
      | commentOpen => exact Or.inr (Or.inl rfl)
      | commentClose => exact Or.inr (Or.inr (Or.inl rfl))
      | _ =>
        rw [ht] at hgap
        exact hgap.elim
    · exact Or.inr (Or.inr (Or.inr hleft.map))

/-! ## Document blocks -/

/-- A document rule has no block, or the characters in its block are accounted for by its nodes. -/
inductive BlockAccounted (text : List Char) (name : String) (children : List (Node Position))
    (span : Span Position) : Prop where
  /-- It ends before a block begins. -/
  | blockless {keyword : Lexeme} {prelude kept lost b : List Lexeme}
      (hp : HasPrelude (lexemes (.start text)) name keyword prelude kept lost b)
      (hfirst : span.first = positionAt text keyword.start.offset)
      (hb : ∀ l ∈ b.head?, l.token ≠ .opening .curly) (hc : children = [])
  /-- Its block is closed. -/
  | closed {keyword opener closer : Lexeme} {prelude kept lost inner b : List Lexeme}
      (hp : HasPrelude (lexemes (.start text)) name keyword prelude kept lost
        (opener :: (inner ++ closer :: b)))
      (hfirst : span.first = positionAt text keyword.start.offset)
      (ho : opener.token = .opening .curly) (hi : Enclosed .curly inner)
      (hc : closer.token = .closing .curly)
      (hlast : span.last = positionAt text closer.lastOffset) (ha : Accounted text children inner)
  /-- Its block is open at the end of the text. -/
  | opened {keyword opener : Lexeme} {prelude kept lost inner : List Lexeme}
      (hp : HasPrelude (lexemes (.start text)) name keyword prelude kept lost (opener :: inner))
      (hfirst : span.first = positionAt text keyword.start.offset)
      (ho : opener.token = .opening .curly) (ha : Accounted text children inner)

theorem Node.ReadIn.blockAccounted {text : List Char} {name params : String}
    {children : List (Node Nat)} {span : Span Nat} {mayOpen : Bool}
    (h : (Node.atRule name params children span).ReadIn (lexemes (.start text)) mayOpen)
    (hname : isDocumentName name = true) :
    BlockAccounted text name (children.map (Node.map (positionAt text)))
      ⟨positionAt text span.first, positionAt text span.last⟩ := by
  generalize hnode : Node.atRule name params children span = n at h
  have hdocument : ∀ {owner : Owner} {children' : List (Node Nat)} {last : Nat},
      Node.atRule name params children span = owner.node children' last →
      owner.isDocument = true := by
    intro owner children' last hn
    cases owner with
    | rule => cases hn
    | atRule =>
      cases hn
      exact hname
  cases h with
  | @leaf _ n a ms b hall hn =>
    cases hn with
    | comment => cases hnode
    | @statement keyword semicolon name kept lost hk hp hs =>
      cases hnode
      have hprelude : HasPrelude (lexemes (.start text)) name keyword (kept ++ lost) kept lost
          (semicolon :: b) := ⟨hk, ⟨a, by simp [hall]⟩, .ended hp (Or.inl hs)⟩
      refine .blockless hprelude rfl (fun l hl => ?_) rfl
      obtain rfl := Option.some.inj hl
      rw [hs]
      exact Token.noConfusion
    | block hh hd =>
      rw [hdocument hnode] at hd
      cases hd
  | @document _ ending children' a head inner b owner closer hall hh hd hi he hc =>
    cases owner with
    | rule => cases hnode
    | atRule keyword =>
      cases hnode
      obtain ⟨prelude, kept, lost, opener, ho, hprelude, -⟩ := hh.prelude hall
      have hending : ending ≠ .selector := by rcases he with rfl | rfl <;> exact Ending.noConfusion
      have hplace : lexemes (.start text) = (a ++ head) ++ (inner ++ closer :: b) := by simp [hall]
      exact .closed hprelude rfl ho (hi.enclosed he) hc rfl (hi.accounted hending hplace)
  | @cutShort _ nesting a kept lost spaces b keyword name hall hk hp hl hs hb =>
    cases hnode
    have hcut : PreludeCut (kept ++ lost ++ spaces) kept lost b := by
      refine .cutShort hp (fun l hlast => ?_) hs hb
      rwa [List.getLastD_eq_getLast?, hlast] at hl
    refine .blockless ⟨hk, ⟨a, by simp [hall]⟩, hcut⟩ rfl (fun l hl => ?_) rfl
    rcases hb with rfl | ⟨-, m, ms, rfl, hm⟩
    · cases hl
    · obtain rfl := Option.some.inj hl
      rw [hm]
      exact Token.noConfusion
  | openBlock hall hh hd =>
    rw [hdocument hnode] at hd
    cases hd
  | @openDocument ending isOpen children' a head inner owner last hall hh hd hi he hl =>
    cases owner with
    | rule => cases hnode
    | atRule keyword =>
      cases hnode
      obtain ⟨prelude, kept, lost, opener, ho, hprelude, -⟩ := hh.prelude hall
      have hplace : lexemes (.start text) = (a ++ head) ++ (inner ++ []) := by simp [hall]
      exact .opened hprelude rfl ho (hi.accounted he hplace)

/-- The nodes of a style sheet account for every character of it, and the nodes in the block of a
document rule, at whatever depth, for every character in the block. -/
theorem parse_accounted {css : String} {nodes : List (Node Position)} (h : parse css = .ok nodes) :
    (∀ before c after, css.toList = before ++ c :: after →
      ∃ l ∈ lexemes (.start css.toList), l.HasChar c (byteLength before) ∧
        AccountsFor css.toList nodes (lexemes (.start css.toList)) l c (byteLength before)) ∧
      ∀ name params children span, isDocumentName name = true →
        (Node.atRule name params children span).Occurs nodes →
        BlockAccounted css.toList name children span := by
  obtain ⟨ns, hns, -, rfl⟩ := parse_eq_ok h
  constructor
  · obtain ⟨ending, isOpen, hsheet, he, -⟩ := readNodes_sheet hns
    have hplace : lexemes (.start css.toList) = [] ++ (lexemes (.start css.toList) ++ []) := by
      simp
    intro before c after hchar
    obtain ⟨l, hl, hbelongs⟩ := exists_hasChar (p := .start css.toList) hchar
    have hoffset : (Place.start css.toList).offset + byteLength before = byteLength before :=
      Nat.zero_add _
    rw [hoffset] at hbelongs
    exact ⟨l, hl, hbelongs, hsheet.accounted he hplace l hl c _ hbelongs⟩
  · intro name params children span hname hn
    obtain ⟨mayOpen, -, hread⟩ := readNodes_readIn hns
    obtain ⟨n, hoccurs, hmap⟩ := Node.occurs_map hn
    cases n with
    | rule => cases hmap
    | comment => cases hmap
    | atRule name params children span =>
      cases hmap
      rw [Node.mapAll_eq_map]
      exact (hread _ hoccurs).blockAccounted hname

theorem parse_eq_of_spans {css : String} {spans : List (Span Position)}
    (h : (parse css).toOption.map (·.map Node.span) = some spans) :
    ∃ nodes, parse css = .ok nodes ∧ nodes.map Node.span = spans := by
  cases hp : parse css with
  | error e =>
    rw [hp] at h
    cases h
  | ok nodes =>
    rw [hp] at h
    exact ⟨nodes, rfl, Option.some.inj h⟩

/-- The last character of a document rule with a rule and a mark in its block. -/
theorem parse_accounted_document :
    ∃ nodes, parse "@-moz-document url(a) \x7ba\x7b\x7d-->\x7d" = .ok nodes ∧
      ∃ l, l.HasChar '\x7d' 29 ∧
        AccountsFor "@-moz-document url(a) \x7ba\x7b\x7d-->\x7d".toList nodes
          (lexemes (.start "@-moz-document url(a) \x7ba\x7b\x7d-->\x7d".toList)) l '\x7d' 29 := by
  have hspans : (parse "@-moz-document url(a) \x7ba\x7b\x7d-->\x7d").toOption.map
      (·.map Node.span) = some [⟨⟨0, 0⟩, ⟨0, 29⟩⟩] := by decide +kernel
  obtain ⟨nodes, hp, -⟩ := parse_eq_of_spans hspans
  obtain ⟨l, -, hchar, haccounts⟩ :=
    (parse_accounted hp).1 "@-moz-document url(a) \x7ba\x7b\x7d-->".toList '\x7d' [] (by decide)
  exact ⟨nodes, hp, l, hchar, haccounts⟩

/-- What stands in a bracket at the end of an at-rule that the text cuts short is in no node. -/
theorem parse_leftOut :
    ∃ nodes, parse "@x f(a)" = .ok nodes ∧
      ∃ l ∈ lexemes (.start "@x f(a)".toList), l.token = .plain ∧ l.HasChar 'a' 5 ∧
        HeldNever nodes (positionAt "@x f(a)".toList 5) := by
  have hspans : (parse "@x f(a)").toOption.map (·.map Node.span) =
      some [⟨⟨0, 0⟩, ⟨0, 4⟩⟩] := by decide +kernel
  have hword : ∃ l ∈ lexemes (.start "@x f(a)".toList),
      l.token = .plain ∧ l.text = ['a'] ∧ l.start.offset = 5 := by decide +kernel
  obtain ⟨nodes, hp, hnodes⟩ := parse_eq_of_spans hspans
  obtain ⟨l, hl, htoken, htext, hstart⟩ := hword
  refine ⟨nodes, hp, l, hl, htoken, ⟨[], [], htext, by rw [hstart]; rfl⟩, fun n hn hholds => ?_⟩
  have hspan : n.span ∈ nodes.map Node.span := List.mem_map_of_mem hn
  rw [hnodes, List.mem_singleton] at hspan
  have hlast := hholds.2
  rw [hspan] at hlast
  revert hlast
  decide

end Userstyle.Css
