import Mathlib.Data.List.Basic
import Userstyle.Proofs.Compilation
import Userstyle.Proofs.Sketches

/-!
# The lexemes of nodes

Lexemes that stand one behind the other are read by themselves, from between two nodes on. They make
up nodes with certain outlines (`Adds`), or do so if the text ends behind them (`Completes`). The
lexemes of a node make up a node with its outline, and those of its children together, with
everything between them, make up nodes with theirs (`Placed`). There are two exceptions (`Yields`):
an at-rule that something else than a lexeme of its own has cut short, and the last node when the
end of the text closes its blocks.
-/

namespace Userstyle.Css

open Source

/-- The tokens of lexemes. -/
def tokensOf (ls : List Lexeme) : List Token := ls.map Lexeme.token

@[simp] theorem tokensOf_append (ls ms : List Lexeme) :
    tokensOf (ls ++ ms) = tokensOf ls ++ tokensOf ms := List.map_append

/-! ## Reading from between two nodes on -/

/-- Adds finished nodes. -/
def Sketch.add (s : Sketch) (os : List Outline) : Sketch :=
  { s with stage := .between, nodes := s.nodes ++ os }

@[simp] theorem Sketch.add_add (s : Sketch) (os os' : List Outline) :
    (s.add os).add os' = s.add (os ++ os') := by
  simp [add]

theorem Sketch.add_nil {s : Sketch} (hs : s.stage = .between) : s.add [] = s := by
  simp [add, ← hs]

/-- From between two nodes on, the lexemes make up nodes with the outlines. -/
def Adds (os : List Outline) (ls : List Lexeme) : Prop :=
  ∀ s : Sketch, s.stage = .between → s.run (tokensOf ls) = some (s.add os)

/-- From between two nodes on, the lexemes make up nodes with the outlines if a closing curly
bracket and the text end behind them. -/
def Completes (os : List Outline) (ls : List Lexeme) : Prop :=
  ∀ s : Sketch, s.stage = .between →
    ∃ s', s.run (tokensOf ls) = some s' ∧ s'.finish true = (s.add os).finish true

/-- From between two nodes on, the lexemes lead into a stage. -/
def Enters (ls : List Lexeme) (stage : Stage) : Prop :=
  ∀ s : Sketch, s.stage = .between → s.run (tokensOf ls) = some { s with stage }

/-- From between two nodes on, the lexemes open a document block. -/
def Opens (o : Outline) (ls : List Lexeme) : Prop :=
  ∀ s : Sketch, s.stage = .between →
    s.run (tokensOf ls) = some ⟨.between, [], (o, s.nodes) :: s.frames⟩

/-- From between two nodes on, the lexemes make up nodes and then an at-rule up to some place in its
prelude, all with the outlines. -/
def BreaksOff (os : List Outline) (ls : List Lexeme) : Prop :=
  ∃ before name nesting, os = before ++ [.atRule name] ∧ ∀ s : Sketch, s.stage = .between →
    s.run (tokensOf ls) = some { s.add before with stage := .prelude name nesting }

section Reading

variable {os os' : List Outline} {ls ms : List Lexeme} {l : Lexeme}

theorem adds_nil : Adds [] [] := fun _ hs => congrArg some (Sketch.add_nil hs).symm

theorem Adds.append (h : Adds os ls) (h' : Adds os' ms) : Adds (os ++ os') (ls ++ ms) := by
  intro s hs
  rw [tokensOf_append, Sketch.run_append, h s hs, Option.bind_some, h' _ rfl, Sketch.add_add]

theorem Adds.append_completes (h : Adds os ls) (h' : Completes os' ms) :
    Completes (os ++ os') (ls ++ ms) := by
  intro s hs
  obtain ⟨s', hrun, hfinish⟩ := h' (s.add os) rfl
  refine ⟨s', ?_, by rw [hfinish, Sketch.add_add]⟩
  rw [tokensOf_append, Sketch.run_append, h s hs, Option.bind_some, hrun]

theorem Adds.completes (h : Adds os ls) : Completes os ls := fun s hs => ⟨_, h s hs, rfl⟩

theorem enters_nil : Enters [] .between := by
  intro s hs
  rw [← hs]
  rfl

theorem Enters.snoc {stage stage' : Stage} (h : Enters ls stage)
    (hl : ∀ s : Sketch, s.stage = stage → s.step l.token = some { s with stage := stage' }) :
    Enters (ls ++ [l]) stage' := by
  intro s hs
  rw [tokensOf_append, Sketch.run_append, h s hs, Option.bind_some]
  show Option.bind _ _ = _
  rw [hl _ rfl]
  rfl

theorem Enters.adds_nil (h : Enters ls .between) : Adds [] ls := by
  intro s hs
  rw [h s hs]
  simp [Sketch.add]

theorem Enters.adds {stage : Stage} {o : Outline} (h : Enters ls stage)
    (hl : ∀ s : Sketch, s.stage = stage → s.step l.token = some (s.push o)) :
    Adds [o] (ls ++ [l]) := by
  intro s hs
  rw [tokensOf_append, Sketch.run_append, h s hs, Option.bind_some]
  show Option.bind _ _ = _
  rw [hl _ rfl]
  rfl

theorem Enters.breaksOff {name : String} {nesting : List Bracket}
    (h : Enters ls (.prelude name nesting)) : BreaksOff [.atRule name] ls := by
  refine ⟨[], name, nesting, rfl, fun s hs => ?_⟩
  rw [h s hs, Sketch.add_nil hs]

theorem Adds.append_breaksOff (h : Adds os ls) (h' : BreaksOff os' ms) :
    BreaksOff (os ++ os') (ls ++ ms) := by
  obtain ⟨before, name, nesting, rfl, hrun⟩ := h'
  refine ⟨os ++ before, name, nesting, by simp, fun s hs => ?_⟩
  rw [tokensOf_append, Sketch.run_append, h s hs, Option.bind_some, hrun _ rfl, Sketch.add_add]

theorem BreaksOff.getLast?_ne (h : BreaksOff os ls) : os.getLast? ≠ some .comment := by
  obtain ⟨before, name, nesting, rfl, -⟩ := h
  rw [List.getLast?_concat]
  exact fun h => Outline.noConfusion (Option.some.inj h)

end Reading

/-! ## Steps that leave the nodes as they are -/

namespace Sketch

/-- The sketches have the same finished nodes and the same open document blocks. -/
def Same (s s' : Sketch) : Prop := s'.nodes = s.nodes ∧ s'.frames = s.frames

section Same

variable {s s' k : Sketch} {t : Token}

theorem not_same_push (s : Sketch) (o : Outline) : ¬Same s (s.push o) := by
  rintro ⟨hn, -⟩
  simp [push] at hn

theorem not_same_close {m : Sketch} (hm : m.frames = s.frames) (h : m.close = some s') :
    ¬Same s s' := by
  rintro ⟨-, hf⟩
  unfold close at h
  cases hfr : m.frames with
  | nil => simp [hfr] at h
  | cons f outer =>
    rw [hfr] at h
    cases h
    rw [← hm, hfr] at hf
    simp at hf

theorem stepSelector_same (h : s.stepSelector t = some s') :
    k.stepSelector t = some { k with stage := s'.stage } := by
  unfold stepSelector at h ⊢
  split at h
  · rename_i ht
    cases h
    rw [if_pos ht]
  · rename_i ht
    split at h
    · rename_i hc
      cases h
      rw [if_neg ht, if_pos hc]
    · cases h

theorem stepPrelude_same {name : String} (h : s.stepPrelude name t = some s') (hs : Same s s') :
    k.stepPrelude name t = some { k with stage := s'.stage } := by
  unfold stepPrelude at h ⊢
  split at h
  · cases h
    exact absurd hs (not_same_push s _)
  · split at h
    · cases h
      have hf := hs.2
      simp at hf
    · rename_i hname
      cases h
      rw [if_neg hname]
  · exact absurd hs (not_same_close rfl h)
  · cases h
  · cases h
  · cases h
    rfl
  · cases h
    rfl

theorem stepBetween_same (h : s.stepBetween t = some s') (hs : Same s s')
    (hm : s.stage = .between) (hk : k.stage = .between) :
    k.stepBetween t = some { k with stage := s'.stage } := by
  have hsame : some k = some { k with stage := s.stage } := by rw [hm, ← hk]
  unfold stepBetween at h ⊢
  split at h
  · cases h
    exact hsame
  · cases h
    exact hsame
  · cases h
    exact hsame
  · cases h
    exact absurd hs (not_same_push s _)
  · cases h
    rfl
  · exact absurd hs (not_same_close rfl h)
  · exact stepSelector_same h

/-- A token that leaves the nodes as they are does the same to every sketch in the same stage. -/
theorem step_same (h : s.step t = some s') (hs : Same s s') (hk : k.stage = s.stage) :
    k.step t = some { k with stage := s'.stage } := by
  unfold step at h ⊢
  rw [hk]
  cases hm : s.stage with
  | between =>
    rw [hm] at h
    exact stepBetween_same h hs hm (hk.trans hm)
  | prelude name nesting =>
    rw [hm] at h
    cases nesting with
    | nil => exact stepPrelude_same h hs
    | cons b outer =>
      cases h
      rfl
  | selector nesting =>
    rw [hm] at h
    cases nesting with
    | nil => exact stepSelector_same h
    | cons b outer =>
      cases h
      rfl
  | block o nesting =>
    rw [hm] at h
    dsimp only at h ⊢
    split at h
    · cases h
      exact absurd hs (not_same_push s o)
    · cases h
      rfl

end Same

end Sketch

/-- A step of a reader that adds no node leads on from what its lexemes lead into. -/
theorem Reader.enters_step {r r' : Reader} {ls : List Lexeme} {l : Lexeme}
    (he : Enters ls r.mode.stage) (h : r.step l = .ok r') (hn : r'.nodes = r.nodes)
    (hd : r'.documents = r.documents) : Enters (ls ++ [l]) r'.mode.stage := by
  have hstep : r.sketch.step l.token = some r'.sketch := by rw [← sketch_step, h]; rfl
  refine he.snoc fun s hs => Sketch.step_same hstep ⟨?_, ?_⟩ hs
  · exact congrArg (List.map Node.outline) hn
  · exact congrArg (List.map Document.frame) hd

/-! ## Pieces of a text -/

/-- The span begins with the first of the lexemes and ends with the last one. -/
structure Covers (span : Span Nat) (ls : List Lexeme) : Prop where
  first : ls.head?.map (·.start.offset) = some span.first
  last : ls.getLast?.map Lexeme.lastOffset = some span.last

theorem Covers.ne_nil {span : Span Nat} {ls : List Lexeme} (h : Covers span ls) : ls ≠ [] := by
  rintro rfl
  cases h.first

theorem Covers.append {s s' : Span Nat} {ls ls' : List Lexeme} (ms : List Lexeme)
    (h : Covers s ls) (h' : Covers s' ls') : Covers ⟨s.first, s'.last⟩ (ls ++ ms ++ ls') := by
  have hne := h.ne_nil
  have hne' := h'.ne_nil
  constructor
  · rw [List.append_assoc, List.head?_append_of_ne_nil _ hne, h.first]
  · rw [List.getLast?_append_of_ne_nil _ hne', h'.last]

/-- What the lexemes of a piece of the text make up, `final` if the piece may be the last one. -/
inductive Yields (final : Bool) (os : List Outline) (ls : List Lexeme) : Prop where
  /-- They make up nodes with the outlines. -/
  | whole (h : Adds os ls)
  /-- They end within an at-rule that has been cut short. -/
  | cutShort (h : BreaksOff os ls)
      (hlast : ∀ l ∈ ls.getLast?, l.token ≠ .semicolon ∧ l.token ≠ .closing .curly)
  /-- They end with a closing curly bracket, and make up nodes with the outlines if the text ends
  there as well. -/
  | completes (hf : final = true) (h : Completes os ls) (ho : os.getLast? ≠ some .comment)
      (hlast : ∀ l ∈ ls.getLast?, l.text.getLast? = some '\x7d')

theorem Yields.after {final : Bool} {os os' : List Outline} {ls ms : List Lexeme}
    (h : Yields final os' ms) (hls : Adds os ls) (hos : os' ≠ []) (hms : ms ≠ []) :
    Yields final (os ++ os') (ls ++ ms) := by
  have hlast : (ls ++ ms).getLast? = ms.getLast? := List.getLast?_append_of_ne_nil _ hms
  cases h with
  | whole h => exact .whole (hls.append h)
  | cutShort h hl => exact .cutShort (hls.append_breaksOff h) (by rwa [hlast])
  | completes hf h ho hl =>
    refine .completes hf (hls.append_completes h) ?_ (by rwa [hlast])
    rwa [List.getLast?_append_of_ne_nil _ hos]

/-- The nodes take up the lexemes, with everything between them. -/
def Piece (final : Bool) (ns : List (Node Nat)) (ls : List Lexeme) : Prop :=
  ∃ span, Node.spanOf? ns = some span ∧ Covers span ls ∧ Yields final (ns.map Node.outline) ls

/-- The nodes take up some of the lexemes, one behind the other, if there are any nodes. -/
def Inside (final : Bool) (ns : List (Node Nat)) (ls : List Lexeme) : Prop :=
  ns = [] ∨ ∃ a ms b, ls = a ++ ms ++ b ∧ Piece final ns ms

/-- The node takes up the lexemes, and its children lie in between. -/
structure Placed (final : Bool) (n : Node Nat) (ls : List Lexeme) : Prop where
  covers : Covers n.span ls
  yields : Yields final [n.outline] ls
  inside : Inside final n.children ls

/-- The lexemes are those of the nodes, each whole, and lexemes between nodes that count for
nothing. -/
inductive Spread : List (Node Nat) → List Lexeme → Prop where
  | nil : Spread [] []
  | gap {ns : List (Node Nat)} {ls : List Lexeme} {l : Lexeme} (h : Spread ns ls)
      (hl : Adds [] [l]) : Spread ns (ls ++ [l])
  | node {ns : List (Node Nat)} {ls ms : List Lexeme} {n : Node Nat} (h : Spread ns ls)
      (hc : Covers n.span ms) (ha : Adds [n.outline] ms) (hi : Inside false n.children ms) :
      Spread (ns ++ [n]) (ls ++ ms)

theorem Node.spanOf?_concat {ns : List (Node Nat)} {span : Span Nat} (n : Node Nat)
    (h : Node.spanOf? ns = some span) :
    Node.spanOf? (ns ++ [n]) = some ⟨span.first, n.span.last⟩ := by
  cases ns with
  | nil => cases h
  | cons m ns =>
    have hlast : ∃ k, (m :: ns).getLast? = some k :=
      ⟨_, List.getLast?_eq_some_getLast (List.cons_ne_nil m ns)⟩
    obtain ⟨k, hk⟩ := hlast
    unfold Node.spanOf? at h ⊢
    rw [List.getLast?_concat]
    rw [hk] at h
    cases h
    rfl

theorem Node.spanOf?_last {ns : List (Node Nat)} {span : Span Nat}
    (h : Node.spanOf? ns = some span) : ∃ k ∈ ns, k.span.last = span.last := by
  unfold Node.spanOf? at h
  split at h
  · rename_i first last hfirst hlast
    cases h
    exact ⟨last, List.mem_of_getLast? hlast, rfl⟩
  · cases h

namespace Spread

variable {ns : List (Node Nat)} {ls : List Lexeme}

theorem adds (h : Spread ns ls) : Adds (ns.map Node.outline) ls := by
  induction h with
  | nil => exact adds_nil
  | gap h hl ih => simpa using ih.append hl
  | node h hc ha hi ih => simpa using ih.append ha

/-- Nodes that are all whole lie in a piece between lexemes that count for nothing. -/
theorem trim (h : Spread ns ls) :
    ns = [] ∨ ∃ a ms b span, ls = a ++ ms ++ b ∧ Node.spanOf? ns = some span ∧ Covers span ms ∧
      Adds (ns.map Node.outline) ms ∧ Adds [] b := by
  induction h with
  | nil => exact Or.inl rfl
  | @gap ns ls l h hl ih =>
    rcases ih with rfl | ⟨a, ms, b, span, rfl, hs, hc, ha, hb⟩
    · exact Or.inl rfl
    · exact Or.inr ⟨a, ms, b ++ [l], span, by simp, hs, hc, ha, by simpa using hb.append hl⟩
  | @node ns ls ks n h hk hn hi ih =>
    refine Or.inr ?_
    rcases ih with rfl | ⟨a, ms, b, span, rfl, hs, hc, ha, hb⟩
    · exact ⟨ls, ks, [], n.span, by simp, rfl, hk, hn, adds_nil⟩
    · refine ⟨a, ms ++ b ++ ks, [], _, by simp, Node.spanOf?_concat n hs, hc.append b hk, ?_,
        adds_nil⟩
      simpa using (ha.append hb).append hn

/-- A node behind nodes that are whole makes up a piece with them. -/
theorem piece {final : Bool} {n : Node Nat} {ks : List Lexeme} (h : Spread ns ls)
    (hk : Covers n.span ks) (hy : Yields final [n.outline] ks) :
    ∃ a ms, ls ++ ks = a ++ ms ∧ Piece final (ns ++ [n]) ms := by
  rcases h.trim with rfl | ⟨a, ms, b, span, rfl, hs, hc, ha, hb⟩
  · exact ⟨ls, ks, rfl, n.span, rfl, hk, hy⟩
  · refine ⟨a, ms ++ b ++ ks, by simp, _, Node.spanOf?_concat n hs, hc.append b hk, ?_⟩
    have hadds : Adds (ns.map Node.outline) (ms ++ b) := by simpa using ha.append hb
    simpa using hy.after hadds (List.cons_ne_nil _ _) hk.ne_nil

theorem inside (h : Spread ns ls) (final : Bool) : Inside final ns ls := by
  refine h.trim.imp_right ?_
  rintro ⟨a, ms, b, span, rfl, hs, hc, ha, -⟩
  exact ⟨a, ms, b, rfl, span, hs, hc, .whole ha⟩

/-- Each of the nodes has its place among the lexemes. -/
theorem placed (h : Spread ns ls) {n : Node Nat} (hn : n ∈ ns) :
    ∃ a ms b, ls = a ++ ms ++ b ∧ Placed false n ms := by
  induction h with
  | nil => cases hn
  | @gap ns ls l h hl ih =>
    obtain ⟨a, ms, b, rfl, hp⟩ := ih hn
    exact ⟨a, ms, b ++ [l], by simp, hp⟩
  | @node ns ls ks m h hc ha hi ih =>
    rcases List.mem_append.mp hn with hn | hn
    · obtain ⟨a, ms, b, rfl, hp⟩ := ih hn
      exact ⟨a, ms, b ++ ks, by simp, hp⟩
    · rw [List.mem_singleton] at hn
      subst hn
      exact ⟨ls, ks, [], by simp, hc, .whole ha, hi⟩

end Spread

end Userstyle.Css
