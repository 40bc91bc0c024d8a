import Userstyle.Proofs.LineScans

/-!
# From offsets to positions and back

The places of a text have byte offsets and positions. A locator goes from the one to the other, in
any order, and a new line cursor goes back. Both meet in the text before the place: its byte length
is the offset, and it is the text behind which the position stands (`resolve_eq_ok_iff`).
-/

namespace Userstyle.Source

open Text Position

/-- A place between two characters, or at one end of the text, has the byte offset `o`. -/
def IsBoundary (text : List Char) (o : Nat) : Prop :=
  ∃ before after, text = before ++ after ∧ byteLength before = o

/-- The position with a line and a column that are counted from one. -/
def Position.ofNumbers (line column : Nat) : Position := ⟨line - 1, column - 1⟩

theorem ofNumbers_lineNumber (p : Position) : .ofNumbers p.lineNumber p.columnNumber = p := rfl

namespace LineCursor

variable {text : List Char}

theorem On.next? {c d : LineCursor} (hc : c.On text) (h : c.next? = some d) : d.On text := by
  obtain ⟨head, ht, ho, hp⟩ := hc
  obtain ⟨l, r, hl, hr, rfl⟩ := next?_eq_some h
  refine ⟨head ++ (l ++ ['\n']), ?_, ?_, behind_line hp hl⟩
  · rw [ht, hr, ← List.append_assoc]
  · rw [byteLength_append, ho]

theorem On.down {c : LineCursor} (hc : c.On text) (n : Nat) : (c.down n).On text := by
  induction n generalizing c with
  | zero => exact hc
  | succ n ih =>
    rw [LineCursor.down]
    cases h : c.next? with
    | none => exact hc
    | some d => exact ih (hc.next? h)

/-- A column of a line of the text is found at a place whose position has this line and column. -/
theorem On.column?_behind {c : LineCursor} {column : Nat} {place : Place} (hc : c.On text)
    (h : c.column? column = some place) :
    ∃ before, text = before ++ place.rest ∧ byteLength before = place.offset ∧
      behind before = ⟨c.line, column⟩ := by
  obtain ⟨head, ht, ho, hp⟩ := hc
  unfold column? at h
  split at h
  · rename_i hle
    cases h
    have hline : '\n' ∉ c.lineText.take column := by
      intro hmem
      have hother := List.all_eq_true.mp List.all_takeWhile _ (List.mem_of_mem_take hmem)
      exact absurd rfl (bne_iff_ne.mp hother)
    have hlength : (c.lineText.take column).length = column := List.length_take_of_le hle
    refine ⟨head ++ c.place.rest.take column, ?_, ?_, ?_⟩
    · rw [List.append_assoc, Place.advance, List.take_append_drop]
      exact ht
    · rw [byteLength_append, ho, Place.advance]
    · rw [take_lineText hle, behind_append, hp, through_of_not_mem _ hline, hlength, Nat.zero_add]
  · cases h

/-- A new cursor finds a position at an offset exactly if the text before the offset leads to the
position. -/
theorem resolve_eq_ok_iff (text : List Char) (p : Position) (o : Nat) :
    ((start text).resolve p).1 = .ok o ↔
      ∃ before after, text = before ++ after ∧ byteLength before = o ∧ behind before = p := by
  constructor
  · intro h
    rw [resolve_start] at h
    have hline : p.line ≤ lastLine text := by
      rcases scan_cases text p with ⟨-, -, hline⟩ | hmissed
      · exact hline
      · cases h.symm.trans hmissed
    rw [scan_of_le hline] at h
    cases hcolumn : ((start text).down p.line).column? p.column with
    | none =>
      rw [hcolumn] at h
      cases h
    | some place =>
      rw [hcolumn] at h
      obtain ⟨before, ht, ho, hp⟩ := ((LineCursor.start_on text).down p.line).column?_behind hcolumn
      rw [line_down_start, Nat.min_eq_left hline] at hp
      exact ⟨before, place.rest, ht, ho.trans (Except.ok.inj h), hp⟩
  · rintro ⟨before, after, rfl, rfl, rfl⟩
    obtain ⟨d, hfind, -⟩ := (LineCursor.start_on (before ++ after)).find_behind (Nat.zero_le _)
    unfold resolve
    rw [hfind]
    rfl

end LineCursor

namespace Locator

variable {text : List Char}

/-- The locator after offsets were located one after the other. -/
def after (l : Locator) : List Nat → Locator
  | [] => l
  | o :: os => (l.locate o).2.after os

theorem On.after {l : Locator} {os : List Nat} (hl : l.On text)
    (hos : ∀ o ∈ os, IsBoundary text o) : (l.after os).On text := by
  induction os generalizing l with
  | nil => exact hl
  | cons o os ih =>
    obtain ⟨⟨before, after, rfl, rfl⟩, hrest⟩ := List.forall_mem_cons.mp hos
    obtain ⟨l', hlocate, hl'⟩ := hl.locate_byteLength
    rw [Locator.after, hlocate]
    exact ih hl' hrest

/-- A locator and a line cursor are inverse to each other. Whatever offsets of places a locator was
asked for before, in whatever order: the position that it gives for the offset of a place is found
at that offset by a new cursor, and for an offset at which a new cursor finds a position it gives
that position. -/
theorem locate_inverse {earlier : List Nat} (h : ∀ o ∈ earlier, IsBoundary text o) :
    (∀ o, IsBoundary text o →
      ∃ q l, ((start text).after earlier).locate o = (q, l) ∧
        ((LineCursor.start text).resolve (.ofNumbers q.lineNumber q.columnNumber)).1 = .ok o) ∧
    ∀ p o, ((LineCursor.start text).resolve p).1 = .ok o →
      IsBoundary text o ∧
        ∃ q l, ((start text).after earlier).locate o = (q, l) ∧
          q.lineNumber = p.line + 1 ∧ q.columnNumber = p.column + 1 := by
  have hon := (start_on text).after h
  constructor
  · rintro o ⟨before, after, rfl, rfl⟩
    obtain ⟨l, hlocate, -⟩ := hon.locate_byteLength
    refine ⟨behind before, l, hlocate, ?_⟩
    rw [ofNumbers_lineNumber, LineCursor.resolve_eq_ok_iff]
    exact ⟨before, after, rfl, rfl, rfl⟩
  · intro p o hresolve
    obtain ⟨before, after, rfl, rfl, rfl⟩ := (LineCursor.resolve_eq_ok_iff _ _ _).mp hresolve
    obtain ⟨l, hlocate, -⟩ := hon.locate_byteLength
    exact ⟨⟨before, after, rfl, rfl⟩, behind before, l, hlocate, rfl, rfl⟩

/-- A line feed behind a carriage return, located after the end of the text and its beginning. -/
theorem locate_inverse_lineFeed :
    (∀ o ∈ [5, 0], IsBoundary ['\u00e9', '\r', '\n', 'b'] o) ∧
      ∃ q l, ((start ['\u00e9', '\r', '\n', 'b']).after [5, 0]).locate 3 = (q, l) ∧
        q.lineNumber = 1 ∧ q.columnNumber = 3 ∧
        ((LineCursor.start ['\u00e9', '\r', '\n', 'b']).resolve (.ofNumbers 1 3)).1 = .ok 3 := by
  have hearlier : ∀ o ∈ [5, 0], IsBoundary ['\u00e9', '\r', '\n', 'b'] o := by
    intro o ho
    simp only [List.mem_cons, List.not_mem_nil, or_false] at ho
    rcases ho with rfl | rfl
    · exact ⟨['\u00e9', '\r', '\n', 'b'], [], rfl, rfl⟩
    · exact ⟨[], ['\u00e9', '\r', '\n', 'b'], rfl, rfl⟩
  obtain ⟨hlocated, hresolved⟩ := locate_inverse hearlier
  have hfound : ((LineCursor.start ['\u00e9', '\r', '\n', 'b']).resolve ⟨0, 2⟩).1 = .ok 3 := rfl
  obtain ⟨hboundary, q, l, hlocate, hline, hcolumn⟩ := hresolved ⟨0, 2⟩ 3 hfound
  obtain ⟨q', l', hlocate', hback⟩ := hlocated 3 hboundary
  cases hlocate.symm.trans hlocate'
  rw [hline, hcolumn] at hback
  exact ⟨hearlier, q, l, hlocate, hline, hcolumn, hback⟩

end Locator

end Userstyle.Source
