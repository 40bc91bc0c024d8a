import Userstyle.Proofs.LineCursors
import Userstyle.Proofs.ReaderMoves

/-!
# Where the nodes of a style sheet lie

The nodes that the reader finds lie in the text one behind the other, and the children of a node
inside of it (`Laid`). `Reader.Inv` says this of a reader that is in the middle of the text; a move
keeps it, so a run does, and at the end of the text all nodes are laid. With it positions and
offsets of nodes say the same, and `parse` is `readNodes` with positions for offsets.
-/

namespace Userstyle.Css

open Source Text

/-! ## Lexemes -/

/-- The lexeme is a piece of the text. -/
structure Lexeme.On (text : List Char) (l : Lexeme) : Prop where
  first : IsStart text l.start.offset
  last : IsStart text l.lastOffset
  first_le : l.start.offset ≤ l.lastOffset
  last_lt : l.lastOffset < l.stop.offset
  stop_on : l.stop.On text

/-- A lexeme takes up at least one character. -/
theorem Lexeme.at?_eq {p : Place} {l : Lexeme} (h : Lexeme.at? p = some l) :
    ∃ n, l.text = p.rest.take n ∧ l.text ≠ [] ∧ l.start = p ∧ l.stop = p.advance n := by
  unfold Lexeme.at? at h
  split at h
  · cases h
  · rename_i c r hr
    simp only [Option.some.injEq] at h
    subst h
    refine ⟨max (scan (c :: r)).2 1, by rw [hr], ?_, rfl, rfl⟩
    rw [ne_eq, List.take_eq_nil_iff]
    simp only [List.cons_ne_nil, or_false]
    omega

theorem Lexeme.at?_on {text : List Char} {p : Place} {l : Lexeme} (hp : p.On text)
    (h : Lexeme.at? p = some l) : l.start = p ∧ l.On text := by
  obtain ⟨n, ht, hne, hs, hstop⟩ := Lexeme.at?_eq h
  obtain ⟨b, hb, ho⟩ := id hp
  obtain ⟨init, x, hx⟩ := (List.eq_nil_or_concat l.text).resolve_left hne
  rw [List.concat_eq_append] at hx
  have hrest : p.rest = init ++ x :: p.rest.drop n := by
    have h := (List.take_append_drop n p.rest).symm
    rwa [← ht, hx, List.append_assoc] at h
  have hlast : l.lastOffset = byteLength (b ++ init) := by
    unfold Lexeme.lastOffset
    rw [hs, hx, List.dropLast_concat, byteLength_append, ho]
  have hlen : l.stop.offset = byteLength (b ++ init) + x.utf8Size := by
    rw [hstop]
    simp only [Place.advance]
    rw [← ht, hx, byteLength_append, byteLength_append, ho, Nat.add_assoc]
    rfl
  refine ⟨hs, ?_, ⟨b ++ init, x, p.rest.drop n, ?_, hlast.symm⟩, ?_, ?_, ?_⟩
  · rw [hs, ← ho, hb, hrest]
    cases init with
    | nil => exact ⟨b, x, _, rfl, rfl⟩
    | cons c init => exact ⟨b, c, _, rfl, rfl⟩
  · rw [hb, List.append_assoc, ← hrest]
  · rw [hs, hlast, byteLength_append, ho]
    exact Nat.le_add_right _ _
  · have hx := x.utf8Size_pos
    omega
  · rw [hstop]
    exact hp.advance n

/-- What every step keeps, a run over all lexemes keeps to the end of the text. -/
theorem Reader.run_lexemes {text : List Char} {P : Place → Reader → Prop}
    (hstep : ∀ {l : Lexeme} {r r' : Reader}, l.On text → P l.start r → r.step l = .ok r' →
      P l.stop r')
    {p : Place} {r r' : Reader} (hp : p.On text) (h : P p r)
    (hr : r.run (lexemes p) = .ok r') : P ⟨byteLength text, []⟩ r' := by
  fun_induction lexemes p generalizing r with
  | case1 p hnone =>
    have hrest : p.rest = [] := by
      unfold Lexeme.at? at hnone
      split at hnone
      · assumption
      · cases hnone
    obtain ⟨b, hb, ho⟩ := hp
    cases hr
    rw [hrest, List.append_nil] at hb
    have hend : p = ⟨byteLength text, []⟩ := by rw [hb, ho, ← hrest]
    rw [← hend]
    exact h
  | case2 p l hl ih =>
    obtain ⟨hs, hon⟩ := Lexeme.at?_on hp hl
    rw [Reader.run] at hr
    split at hr
    · exact ih hon.stop_on (hstep hon (hs ▸ h) ‹_›) hr
    · cases hr

/-! ## Laid nodes -/

/-- The span is one of characters of the text, from the offset `lo` on and before `hi`. -/
structure SpanWithin (text : List Char) (lo hi : Nat) (span : Span Nat) : Prop where
  first : IsStart text span.first
  last : IsStart text span.last
  lo_le : lo ≤ span.first
  first_le : span.first ≤ span.last
  last_lt : span.last < hi

mutual

/-- The node lies in the text from the offset `lo` on and before `hi`, and its children inside. -/
def Node.Within (text : List Char) (lo hi : Nat) : Node Nat → Prop
  | .rule span => SpanWithin text lo hi span
  | .atRule _ _ children span =>
    SpanWithin text lo hi span ∧ Laid text (span.first + 1) (span.last + 1) children
  | .comment span => SpanWithin text lo hi span

/-- The nodes lie in the text one behind the other, from the offset `lo` on and before `hi`. -/
def Laid (text : List Char) (lo hi : Nat) : List (Node Nat) → Prop
  | [] => lo ≤ hi
  | n :: ns => n.Within text lo hi ∧ Laid text (n.span.last + 1) hi ns

end

variable {text : List Char}

theorem Node.Within.span {lo hi : Nat} {n : Node Nat} (h : n.Within text lo hi) :
    SpanWithin text lo hi n.span := by
  cases n with
  | rule span => exact h
  | atRule name params children span => exact h.1
  | comment span => exact h

theorem SpanWithin.mono {lo hi lo' hi' : Nat} {span : Span Nat} (h : SpanWithin text lo hi span)
    (hlo : lo' ≤ lo) (hhi : hi ≤ hi') : SpanWithin text lo' hi' span :=
  ⟨h.first, h.last, Nat.le_trans hlo h.lo_le, h.first_le, Nat.lt_of_lt_of_le h.last_lt hhi⟩

theorem Node.Within.mono {lo hi lo' hi' : Nat} {n : Node Nat} (h : n.Within text lo hi)
    (hlo : lo' ≤ lo) (hhi : hi ≤ hi') : n.Within text lo' hi' := by
  cases n with
  | rule span => exact SpanWithin.mono h hlo hhi
  | atRule name params children span => exact ⟨h.1.mono hlo hhi, h.2⟩
  | comment span => exact SpanWithin.mono h hlo hhi

theorem Laid.le {lo hi : Nat} {ns : List (Node Nat)} (h : Laid text lo hi ns) : lo ≤ hi := by
  induction ns generalizing lo with
  | nil => exact h
  | cons n ns ih =>
    have hs := h.1.span
    have := hs.lo_le
    have := hs.first_le
    have := ih h.2
    omega

theorem Laid.mono {lo hi hi' : Nat} {ns : List (Node Nat)} (h : Laid text lo hi ns)
    (hhi : hi ≤ hi') : Laid text lo hi' ns := by
  induction ns generalizing lo with
  | nil => exact Nat.le_trans h hhi
  | cons n ns ih => exact ⟨h.1.mono (Nat.le_refl _) hhi, ih h.2⟩

theorem Laid.within {lo hi : Nat} {ns : List (Node Nat)} {n : Node Nat} (h : Laid text lo hi ns)
    (hn : n ∈ ns) : n.Within text lo hi := by
  induction ns generalizing lo with
  | nil => cases hn
  | cons m ns ih =>
    have hlo := h.1.span.lo_le
    have hle := h.1.span.first_le
    rcases List.mem_cons.mp hn with rfl | hn
    · exact h.1
    · exact (ih h.2 hn).mono (by omega) (Nat.le_refl hi)

theorem Laid.concat {lo mid hi : Nat} {ns : List (Node Nat)} {n : Node Nat}
    (h : Laid text lo mid ns) (hn : n.Within text mid hi) : Laid text lo hi (ns ++ [n]) := by
  induction ns generalizing lo with
  | nil => exact ⟨hn.mono h (Nat.le_refl _), hn.span.last_lt⟩
  | cons m ns ih =>
    have hmid : mid ≤ hi := by
      have hs := hn.span
      have := hs.lo_le
      have := hs.first_le
      have := hs.last_lt
      omega
    exact ⟨h.1.mono (Nat.le_refl _) hmid, ih h.2⟩

/-! ## The reader in the middle of the text -/

/-- The byte offset at which the owner of a block begins. -/
def Owner.start : Owner → Nat
  | .rule first => first.start.offset
  | .atRule keyword _ _ => keyword.start.offset

/-- The offset from which the nodes in the innermost open document block lie. -/
def floor : List Document → Nat
  | [] => 0
  | d :: _ => d.owner.start + 1

/-- A character begins at `start`, before the offset `o`, and the nodes before it are laid. -/
structure Begun (text : List Char) (lo start o : Nat) (nodes : List (Node Nat)) : Prop where
  isStart : IsStart text start
  lt : start < o
  laid : Laid text lo start nodes

/-- The open document blocks lie in each other, before the offset `o`. -/
def Nested (text : List Char) : Nat → List Document → Prop
  | _, [] => True
  | o, d :: outer =>
    Begun text (floor outer) d.owner.start o d.before ∧ Nested text d.owner.start outer

/-- What is known at the offset `o` about what the reader is in the middle of. -/
def Mode.Inv (text : List Char) (lo o : Nat) (nodes : List (Node Nat)) : Mode → Prop
  | .between => Laid text lo o nodes
  | .prelude p =>
    Begun text lo p.keyword.start.offset o nodes ∧ IsStart text p.last.lastOffset ∧
      p.keyword.start.offset ≤ p.last.lastOffset ∧ p.last.lastOffset < o
  | .selector first _ _ => Begun text lo first.start.offset o nodes
  | .block owner _ => Begun text lo owner.start o nodes

/-- What is known at the offset `o` about a reader that has got there. -/
structure Reader.Inv (text : List Char) (o : Nat) (r : Reader) : Prop where
  mode : r.mode.Inv text (floor r.documents) o r.nodes
  documents : Nested text o r.documents

theorem Begun.mono {lo start o o' : Nat} {nodes : List (Node Nat)}
    (h : Begun text lo start o nodes) (ho : o ≤ o') : Begun text lo start o' nodes :=
  ⟨h.isStart, Nat.lt_of_lt_of_le h.lt ho, h.laid⟩

/-- Open document blocks are nested before every offset that lies inside the innermost one. -/
theorem Nested.of_floor_le {o o' : Nat} {ds : List Document} (h : Nested text o ds)
    (ho : floor ds ≤ o') : Nested text o' ds := by
  cases ds with
  | nil => trivial
  | cons d outer => exact ⟨⟨h.1.isStart, ho, h.1.laid⟩, h.2⟩

theorem Nested.mono {o o' : Nat} {ds : List Document} (h : Nested text o ds) (ho : o ≤ o') :
    Nested text o' ds := by
  cases ds with
  | nil => trivial
  | cons d outer => exact ⟨h.1.mono ho, h.2⟩

/-- A node that ends with a block lies behind the nodes before it. -/
theorem Owner.node_within {owner : Owner} {lo last hi : Nat} {children : List (Node Nat)}
    (hs : IsStart text owner.start) (hl : IsStart text last) (hlo : lo ≤ owner.start)
    (hle : owner.start ≤ last) (hhi : last < hi)
    (hc : Laid text (owner.start + 1) (last + 1) children) :
    (owner.node children last).Within text lo hi := by
  cases owner with
  | rule first => exact ⟨hs, hl, hlo, hle, hhi⟩
  | atRule keyword name params => exact ⟨⟨hs, hl, hlo, hle, hhi⟩, hc⟩

/-- The nodes around a block that ends with the character at `last`. -/
theorem Begun.concat_owner {owner : Owner} {lo last hi : Nat} {before children : List (Node Nat)}
    (h : Begun text lo owner.start (last + 1) before) (hl : IsStart text last) (hhi : last < hi)
    (hc : Laid text (owner.start + 1) (last + 1) children) :
    Laid text lo hi (before ++ [owner.node children last]) :=
  h.laid.concat
    (Owner.node_within h.isStart hl (Nat.le_refl _) (Nat.le_of_lt_succ h.lt) hhi hc)

theorem Begun.concat_leaf {owner : Owner} {lo last hi : Nat} {before : List (Node Nat)}
    (h : Begun text lo owner.start (last + 1) before) (hl : IsStart text last) (hhi : last < hi) :
    Laid text lo hi (before ++ [owner.node [] last]) :=
  h.concat_owner hl hhi h.lt

theorem Begun.concat_statement {p : Prelude} {stop : Place} {lo last hi : Nat}
    {before : List (Node Nat)} (h : Begun text lo p.keyword.start.offset (last + 1) before)
    (hl : IsStart text last) (hhi : last < hi) :
    Laid text lo hi (before ++ [p.statement stop last]) :=
  h.laid.concat ⟨⟨h.isStart, hl, Nat.le_refl _, Nat.le_of_lt_succ h.lt, hhi⟩, h.lt⟩

/-- Whatever begins a selector or went on with it began before the end of the lexeme. -/
theorem Reader.Selects.begun {r : Reader} {l first : Lexeme} (hs : r.Selects l first)
    (hl : l.On text) (h : r.Inv text l.start.offset) :
    Begun text (floor r.documents) first.start.offset l.stop.offset r.nodes := by
  have hlt := Nat.lt_of_le_of_lt hl.first_le hl.last_lt
  have hm := h.mode
  cases hs with
  | begins hmode =>
    rw [hmode] at hm
    exact ⟨hl.first, hlt, hm⟩
  | goesOn hmode =>
    rw [hmode] at hm
    exact Begun.mono hm (Nat.le_of_lt hlt)

/-- When the innermost document block ends, its rule lies behind the nodes before it. -/
theorem Reader.closeDocument_inv {r : Reader} {d : Document} {outer : List Document}
    {last stop : Nat} (hd : Nested text (last + 1) (d :: outer))
    (hn : Laid text (d.owner.start + 1) (last + 1) r.nodes) (hl : IsStart text last)
    (hlt : last < stop) : (r.closeDocument d outer last).Inv text stop := by
  obtain ⟨hb, ho⟩ := hd
  refine ⟨hb.concat_owner hl hlt hn, ho.mono ?_⟩
  have := hb.lt
  omega

/-- A move keeps the invariant. -/
theorem Move.inv {r r' : Reader} {l : Lexeme} (hl : l.On text) (h : r.Inv text l.start.offset)
    (hmove : Move r l r') : r'.Inv text l.stop.offset := by
  have hlt := hl.last_lt
  have hle := hl.first_le
  have hm := h.mode
  have hd : Nested text l.stop.offset r.documents := h.documents.mono (by omega)
  have hd' : Nested text (l.lastOffset + 1) r.documents := h.documents.mono (by omega)
  cases hmove with
  | pass hmode =>
    rw [hmode] at hm
    refine ⟨?_, hd⟩
    rw [hmode]
    exact Laid.mono hm (by omega)
  | comment hmode =>
    rw [hmode] at hm
    exact ⟨Laid.concat hm ⟨hl.first, hl.last, Nat.le_refl _, hle, hlt⟩, hd⟩
  | keyword hmode =>
    rw [hmode] at hm
    exact ⟨⟨⟨hl.first, Nat.lt_of_le_of_lt hle hlt, hm⟩, hl.last, hle, hlt⟩, hd⟩
  | leave hmode _ hdoc =>
    rw [hmode, hdoc] at hm
    rw [hdoc] at hd'
    exact Reader.closeDocument_inv hd' (Laid.mono hm (by omega)) hl.last hlt
  | select hs => exact ⟨hs.begun hl h, hd⟩
  | selectInside hmode =>
    rw [hmode] at hm
    exact ⟨Begun.mono hm (by omega), hd⟩
  | openRule hs => exact ⟨hs.begun hl h, hd⟩
  | prelude hmode =>
    rw [hmode] at hm
    obtain ⟨hb, -, -, -⟩ := hm
    have := hb.lt
    exact ⟨⟨hb.mono (by omega), hl.last, by simp only; omega, hlt⟩, hd⟩
  | preludeSpace hmode | preludeInside hmode =>
    rw [hmode] at hm
    obtain ⟨hb, hs, hkl, hlast⟩ := hm
    exact ⟨⟨hb.mono (by omega), hs, hkl, by simp only; omega⟩, hd⟩
  | statement hmode =>
    rw [hmode] at hm
    exact ⟨(hm.1.mono (by omega)).concat_statement hl.last hlt, hd⟩
  | cutShort hmode _ _ hdoc =>
    rw [hmode, hdoc] at hm
    rw [hdoc] at hd'
    obtain ⟨hb, hs, hkl, hlast⟩ := hm
    have hb' : Begun text _ _ _ _ := ⟨hb.isStart, Nat.lt_succ_of_le hkl, hb.laid⟩
    exact Reader.closeDocument_inv hd' (hb'.concat_statement hs (by omega)) hl.last hlt
  | openDocument hmode =>
    rw [hmode] at hm
    have hb : Begun text _ _ l.stop.offset _ := hm.1.mono (by omega)
    exact ⟨hb.lt, hb, h.documents.of_floor_le hb.laid.le⟩
  | openBlock hmode =>
    rw [hmode] at hm
    exact ⟨hm.1.mono (by omega), hd⟩
  | inside hmode =>
    rw [hmode] at hm
    exact ⟨Begun.mono hm (by omega), hd⟩
  | close hmode =>
    rw [hmode] at hm
    exact ⟨Begun.concat_leaf (Begun.mono hm (by omega)) hl.last hlt, hd⟩

theorem Reader.Inv.step {r r' : Reader} {l : Lexeme} (hl : l.On text)
    (h : r.Inv text l.start.offset) (hstep : r.step l = .ok r') : r'.Inv text l.stop.offset :=
  (step_move hstep).inv hl h

theorem Reader.start_inv (text : List Char) : Reader.start.Inv text 0 := ⟨Nat.le_refl 0, trivial⟩

/-! ## The end of the text -/

/-- Open document blocks that end with the last character lie around the nodes in them. -/
theorem Reader.nodesAround_laid {last : Nat} {nodes : List (Node Nat)} {ds : List Document}
    (hd : Nested text (last + 1) ds) (hl : IsStart text last)
    (hn : Laid text (floor ds) (last + 1) nodes) :
    Laid text 0 (last + 1) (nodesAround last nodes ds) := by
  induction ds generalizing nodes with
  | nil => exact hn
  | cons d outer ih =>
    obtain ⟨hb, ho⟩ := hd
    have := hb.lt
    exact ih (ho.mono (by omega)) (hb.concat_owner hl (Nat.lt_succ_self _) hn)

theorem closingOffset?_eq_some {last : Nat} (h : closingOffset? text = some last) :
    IsStart text last ∧ last + 1 = byteLength text := by
  unfold closingOffset? at h
  split at h
  · rename_i hl
    obtain ⟨init, rfl⟩ : ∃ init, text = init ++ ['\x7d'] := by
      obtain ⟨init, hi⟩ := List.getLast?_eq_some_iff.mp hl
      exact ⟨init, hi⟩
    simp only [List.dropLast_concat, Option.some.injEq] at h
    subst h
    exact ⟨⟨init, _, [], rfl, rfl⟩, by rw [byteLength_append]; rfl⟩
  · cases h

theorem Reader.closeAll_laid {r : Reader} {nodes : List (Node Nat)}
    (hd : Nested text (byteLength text) r.documents)
    (hn : Laid text (floor r.documents) (byteLength text) r.nodes)
    (h : r.closeAll (byteLength text) (closingOffset? text) = .ok nodes) :
    Laid text 0 (byteLength text) nodes := by
  unfold closeAll at h
  split at h
  · rename_i hdoc
    rw [hdoc] at hn
    cases h
    exact hn
  · cases h
  · rename_i last _ hlast
    obtain ⟨hl, hend⟩ := closingOffset?_eq_some hlast
    rw [← hend] at hd hn ⊢
    cases h
    exact nodesAround_laid hd hl hn

/-- At the end of the text, all nodes are laid. -/
theorem Reader.Inv.finish {r : Reader} {nodes : List (Node Nat)} (h : r.Inv text (byteLength text))
    (hf : r.finish (byteLength text) (closingOffset? text) = .ok nodes) :
    Laid text 0 (byteLength text) nodes := by
  obtain ⟨hm, hd⟩ := h
  unfold Reader.finish at hf
  split at hf
  · rename_i hmode
    rw [hmode] at hm
    exact closeAll_laid hd hm hf
  · rename_i p hmode
    rw [hmode] at hm
    obtain ⟨hb, hs, hkl, hlast⟩ := hm
    have hb' : Begun text _ _ _ _ := ⟨hb.isStart, Nat.lt_succ_of_le hkl, hb.laid⟩
    exact closeAll_laid (r := r.push p.cutShort) hd (hb'.concat_statement hs hlast) hf
  · cases hf
  · rename_i owner _ hmode
    rw [hmode] at hm
    split at hf
    · cases hf
    · rename_i last hlast
      obtain ⟨hl, hend⟩ := closingOffset?_eq_some hlast
      refine closeAll_laid (r := r.push (owner.node [] last)) hd ?_ hf
      exact Begun.concat_leaf (hend ▸ hm) hl (hend ▸ Nat.lt_succ_self last)

theorem readNodes_laid {nodes : List (Node Nat)} (h : readNodes text = .ok nodes) :
    Laid text 0 (byteLength text) nodes := by
  unfold readNodes at h
  split at h
  · cases h
  · rename_i r hr
    have hinv := Reader.run_lexemes (P := fun p r => r.Inv text p.offset)
      (fun hl h hstep => h.step hl hstep) (Place.start_on text) (Reader.start_inv text) hr
    exact hinv.finish h

/-! ## Nodes by their positions -/

mutual

/-- The node with its places turned into others. -/
def Node.map {α β : Type} (f : α → β) : Node α → Node β
  | .rule span => .rule ⟨f span.first, f span.last⟩
  | .atRule name params children span =>
    .atRule name params (Node.mapAll f children) ⟨f span.first, f span.last⟩
  | .comment span => .comment ⟨f span.first, f span.last⟩

/-- Nodes with their places turned into others. -/
def Node.mapAll {α β : Type} (f : α → β) : List (Node α) → List (Node β)
  | [] => []
  | n :: ns => Node.map f n :: Node.mapAll f ns

end

theorem Node.mapAll_eq_map {α β : Type} (f : α → β) (ns : List (Node α)) :
    Node.mapAll f ns = ns.map (Node.map f) := by
  induction ns with
  | nil => rfl
  | cons n ns ih => rw [Node.mapAll, ih, List.map_cons]

theorem Node.span_map {α β : Type} (f : α → β) (n : Node α) :
    (n.map f).span = ⟨f n.span.first, f n.span.last⟩ := by
  cases n <;> rfl

theorem locate_isStart {l : Locator} {o : Nat} (hl : l.On text) (ho : IsStart text o) :
    ∃ l', l.locate o = (positionAt text o, l') ∧ l'.On text := by
  obtain ⟨b, c, a, rfl, rfl⟩ := ho
  rw [positionAt_byteLength]
  exact hl.locate_byteLength

mutual

/-- A locator gives a laid node the positions of its offsets. -/
theorem Node.locate_eq {lo hi : Nat} {l : Locator} (hl : l.On text) :
    (n : Node Nat) → n.Within text lo hi →
      ∃ l', n.locate l = (n.map (positionAt text), l') ∧ l'.On text
  | .rule span, h => by
    obtain ⟨l₁, h₁, hl₁⟩ := locate_isStart hl h.first
    obtain ⟨l₂, h₂, hl₂⟩ := locate_isStart hl₁ h.last
    exact ⟨l₂, by simp only [Node.locate, h₁, h₂, Node.map], hl₂⟩
  | .atRule name params children span, h => by
    obtain ⟨l₁, h₁, hl₁⟩ := locate_isStart hl h.1.first
    obtain ⟨l₂, h₂, hl₂⟩ := Node.locateAll_eq hl₁ children h.2
    obtain ⟨l₃, h₃, hl₃⟩ := locate_isStart hl₂ h.1.last
    exact ⟨l₃, by simp only [Node.locate, h₁, h₂, h₃, Node.map], hl₃⟩
  | .comment span, h => by
    obtain ⟨l₁, h₁, hl₁⟩ := locate_isStart hl h.first
    obtain ⟨l₂, h₂, hl₂⟩ := locate_isStart hl₁ h.last
    exact ⟨l₂, by simp only [Node.locate, h₁, h₂, Node.map], hl₂⟩

theorem Node.locateAll_eq {lo hi : Nat} {l : Locator} (hl : l.On text) :
    (ns : List (Node Nat)) → Laid text lo hi ns →
      ∃ l', Node.locateAll l ns = (Node.mapAll (positionAt text) ns, l') ∧ l'.On text
  | [], _ => ⟨l, rfl, hl⟩
  | n :: ns, h => by
    obtain ⟨l₁, h₁, hl₁⟩ := Node.locate_eq hl n h.1
    obtain ⟨l₂, h₂, hl₂⟩ := Node.locateAll_eq hl₁ ns h.2
    exact ⟨l₂, by simp only [Node.locateAll, h₁, h₂, Node.mapAll], hl₂⟩

end

/-- The nodes of a style sheet are those of its text, with the positions of their offsets. -/
theorem parse_eq_ok {css : String} {nodes : List (Node Position)} (h : parse css = .ok nodes) :
    ∃ ns, readNodes css.toList = .ok ns ∧ Laid css.toList 0 (byteLength css.toList) ns ∧
      nodes = ns.map (Node.map (positionAt css.toList)) := by
  unfold parse at h
  split at h
  · cases h
  · rename_i ns hns
    have hlaid := readNodes_laid hns
    obtain ⟨l', hl', -⟩ := Node.locateAll_eq (Locator.start_on css.toList) ns hlaid
    cases h
    exact ⟨ns, hns, hlaid, by rw [hl', Node.mapAll_eq_map]⟩

end Userstyle.Css
