import Userstyle.Proofs.LineCursors
import Userstyle.Text.Lines

/-!
# Line cursors and a plain scan

What a line cursor answers is said without a cursor by `scan`: the text is cut at its line feeds,
the rows above the position are added up, and the part of its own row before it is added to them.
A cursor that has come down to a line has passed the rows above it (`Passes`), so a new cursor gives
the answer of the scan (`resolve_start`). Going down twice is going down once (`down_down`), so a
cursor that has been used before gives it too, unless it has left the line (`IsLine.resolve_eq`).
-/

namespace Userstyle.Source

open Text

/-! ## Rows -/

/-- The lines of a text without their line feeds. The last one may be empty. -/
def rows (text : List Char) : List (List Char) := pieces (· == '\n') text

/-- The number of the last line. -/
def lastLine (text : List Char) : Nat := (rows text).length - 1

/-- How many bytes rows have, each with the line feed behind it. -/
def rowsLength : List (List Char) → Nat
  | [] => 0
  | row :: rs => byteLength row + 1 + rowsLength rs

/-- The byte offset of a position by counting: the rows above it with their line feeds, and the
characters before it on its own row. -/
def scan (text : List Char) (p : Position) : Except Error Nat :=
  match (rows text)[p.line]? with
  | none => .error (.outOfRange p.line p.column)
  | some row =>
    if p.column ≤ row.length then
      .ok (rowsLength ((rows text).take p.line) + byteLength (row.take p.column))
    else .error (.outOfRange p.line p.column)

theorem rows_last {s : List Char} (h : '\n' ∉ s) : rows s = [s] := by
  refine pieces_eq_singleton fun c hc => ?_
  rw [beq_eq_false_iff_ne]
  rintro rfl
  exact h hc

theorem rows_line {l r : List Char} (h : '\n' ∉ l) : rows (l ++ ['\n'] ++ r) = l :: rows r := by
  rw [List.append_assoc]
  refine pieces_append r (fun c hc => ?_) rfl
  rw [beq_eq_false_iff_ne]
  rintro rfl
  exact h hc

theorem length_rows_pos (s : List Char) : 0 < (rows s).length :=
  List.length_pos_iff.mpr (pieces_ne_nil s)

theorem byteLength_line (l : List Char) : byteLength (l ++ ['\n']) = byteLength l + 1 := by
  rw [byteLength_append]
  rfl

namespace LineCursor

/-- The line of a cursor is the first row of what it has ahead. -/
theorem head?_rows (c : LineCursor) : (rows c.place.rest).head? = some c.lineText := by
  obtain ⟨n, o, s⟩ := c
  rcases line_cases s with hs | ⟨l, r, hl, rfl⟩
  · have htext := lineText_append (n := n) (o := o) (s := []) hs
    rw [List.append_nil] at htext
    rw [rows_last hs, htext]
    simp
  · have htext := lineText_append (n := n) (o := o) (s := ['\n'] ++ r) hl
    rw [← List.append_assoc] at htext
    rw [rows_line hl, htext]
    simp

/-! ## Going down -/

/-- The cursor `d` stands `n` rows behind the cursor `c`. -/
structure Passes (n : Nat) (c d : LineCursor) : Prop where
  line_eq : d.line = c.line + n
  rows_eq : rows d.place.rest = (rows c.place.rest).drop n
  offset_eq : d.place.offset = c.place.offset + rowsLength ((rows c.place.rest).take n)

theorem Passes.refl (c : LineCursor) : Passes 0 c c := ⟨rfl, rfl, rfl⟩

theorem Passes.of_next? {n : Nat} {c c' d : LineCursor} (hc : c.next? = some c')
    (h : Passes n c' d) : Passes (n + 1) c d := by
  obtain ⟨l, r, hl, hr, rfl⟩ := next?_eq_some hc
  obtain ⟨hline, hrows, hoffset⟩ := h
  simp only at hline hrows hoffset
  refine ⟨?_, ?_, ?_⟩
  · rw [hline, Nat.add_right_comm, Nat.add_assoc]
  · rw [hr, rows_line hl, List.drop_succ_cons, hrows]
  · rw [hr, rows_line hl, List.take_succ_cons, rowsLength, hoffset, byteLength_line]
    omega

theorem rows_of_next? {c d : LineCursor} (h : c.next? = some d) :
    (rows c.place.rest).length = (rows d.place.rest).length + 1 := by
  obtain ⟨l, r, hl, hr, rfl⟩ := next?_eq_some h
  rw [hr, rows_line hl]
  rfl

/-- How far a cursor can go down, by how far the next one can. -/
theorem min_of_next? {c d : LineCursor} (h : c.next? = some d) (n : Nat) :
    min (n + 1) ((rows c.place.rest).length - 1) =
      min n ((rows d.place.rest).length - 1) + 1 := by
  have hpos := length_rows_pos d.place.rest
  rw [rows_of_next? h]
  omega

/-- Going down passes as many rows as are asked for, but the last row is not passed. -/
theorem passes_down (c : LineCursor) (n : Nat) :
    Passes (min n ((rows c.place.rest).length - 1)) c (c.down n) := by
  induction n generalizing c with
  | zero =>
    rw [Nat.zero_min]
    exact .refl c
  | succ n ih =>
    rw [down]
    cases hc : c.next? with
    | none =>
      rw [rows_last (next?_eq_none hc)]
      exact .refl c
    | some d =>
      rw [min_of_next? hc]
      exact (ih d).of_next? hc

theorem down_of_last {c : LineCursor} (h : c.next? = none) (n : Nat) : c.down n = c := by
  cases n with
  | zero => rfl
  | succ n => rw [down, h]

theorem down_down (c : LineCursor) (m n : Nat) : (c.down m).down n = c.down (m + n) := by
  induction m generalizing c with
  | zero => rw [down, Nat.zero_add]
  | succ m ih =>
    rw [Nat.add_right_comm, down, down]
    cases hc : c.next? with
    | none => exact down_of_last hc n
    | some d => exact ih d

/-- Going down further than to the last line ends on the last line. -/
theorem down_min (c : LineCursor) (n : Nat) :
    c.down (min n ((rows c.place.rest).length - 1)) = c.down n := by
  induction n generalizing c with
  | zero => rw [Nat.zero_min]
  | succ n ih =>
    cases hc : c.next? with
    | none => rw [down_of_last hc, down_of_last hc]
    | some d =>
      rw [min_of_next? hc, down, down, hc]
      exact ih d

variable {text : List Char}

theorem line_down_start (text : List Char) (n : Nat) :
    ((start text).down n).line = min n (lastLine text) := by
  rw [(passes_down (start text) n).line_eq]
  exact Nat.zero_add _

/-! ## The answer of a new cursor -/

/-- The first columns of a line are the first characters that its cursor has ahead. -/
theorem take_lineText {c : LineCursor} {column : Nat} (h : column ≤ c.lineText.length) :
    c.place.rest.take column = c.lineText.take column := by
  calc c.place.rest.take column
    _ = (c.lineText ++ c.place.rest.dropWhile (· != '\n')).take column := by
      rw [lineText, List.takeWhile_append_dropWhile]
    _ = c.lineText.take column := List.take_append_of_le_length h

/-- A column of the line of a cursor is found behind as many characters of the line. -/
theorem column?_offset (c : LineCursor) (column : Nat) :
    (c.column? column).map Place.offset =
      if column ≤ c.lineText.length then
        some (c.place.offset + byteLength (c.lineText.take column))
      else none := by
  unfold column?
  split
  · rename_i hle
    rw [Option.map_some, Place.advance, take_lineText hle]
  · rfl

theorem scan_of_lt {p : Position} (h : lastLine text < p.line) :
    scan text p = .error (.outOfRange p.line p.column) := by
  have hpos := length_rows_pos text
  have hnone : (rows text)[p.line]? = none := by
    rw [List.getElem?_eq_none_iff]
    unfold lastLine at h
    omega
  rw [scan, hnone]

/-- On a line that the text has, the scan finds what the cursor on that line finds. -/
theorem scan_of_le {p : Position} (h : p.line ≤ lastLine text) :
    scan text p =
      match (((start text).down p.line).column? p.column).map Place.offset with
      | some o => .ok o
      | none => .error (.outOfRange p.line p.column) := by
  have hpasses := passes_down (start text) p.line
  have hmin : min p.line ((rows (start text).place.rest).length - 1) = p.line := Nat.min_eq_left h
  rw [hmin] at hpasses
  have hrow : (rows text)[p.line]? = some ((start text).down p.line).lineText := by
    rw [← head?_rows, hpasses.rows_eq, List.head?_drop]
    rfl
  have hoffset :
      ((start text).down p.line).place.offset = rowsLength ((rows text).take p.line) := by
    rw [hpasses.offset_eq]
    exact Nat.zero_add _
  rw [scan, hrow, column?_offset, hoffset]
  simp only
  split <;> rfl

theorem scan_cases (text : List Char) (p : Position) :
    (∃ o, scan text p = .ok o ∧ p.line ≤ lastLine text) ∨
      scan text p = .error (.outOfRange p.line p.column) := by
  by_cases hline : p.line ≤ lastLine text
  · rw [scan_of_le hline]
    split
    · rename_i o _
      exact Or.inl ⟨o, rfl, hline⟩
    · exact Or.inr rfl
  · exact Or.inr (scan_of_lt (Nat.lt_of_not_le hline))

/-- A new cursor gives the answer of the scan, and stands on the line of the position then, or on
the last line. -/
theorem resolve_start (text : List Char) (p : Position) :
    (start text).resolve p = (scan text p, (start text).down p.line) := by
  have hline := line_down_start text p.line
  have hzero : (start text).line = 0 := rfl
  unfold resolve find
  rw [hzero, if_neg (Nat.not_lt_zero _), Nat.sub_zero]
  simp only
  by_cases hlt : ((start text).down p.line).line < p.line
  · rw [if_pos hlt, scan_of_lt (by omega)]
    rfl
  · rw [if_neg hlt, scan_of_le (by omega)]
    cases ((start text).down p.line).column? p.column <;> rfl

/-! ## The answer of a used cursor -/

/-- The cursor stands where a new one comes to by going down. -/
def IsLine (text : List Char) (c : LineCursor) : Prop := c = (start text).down c.line

theorem isLine_down (text : List Char) (n : Nat) : IsLine text ((start text).down n) := by
  unfold IsLine
  rw [line_down_start]
  exact (down_min (start text) n).symm

theorem isLine_start (text : List Char) : IsLine text (start text) := rfl

theorem IsLine.line_le {c : LineCursor} (h : IsLine text c) : c.line ≤ lastLine text := by
  rw [h, line_down_start]
  exact Nat.min_le_right _ _

theorem IsLine.eq_of_line_eq {c d : LineCursor} (hc : IsLine text c) (hd : IsLine text d)
    (h : c.line = d.line) : c = d := by
  rw [hc, hd, h]

/-- A cursor refuses a line that it has left. Otherwise it answers as a new cursor does, and stands
where that one would stand. -/
theorem IsLine.resolve_eq {c : LineCursor} (h : IsLine text c) (p : Position) :
    c.resolve p =
      if p.line < c.line then (.error (.notMonotonic p.line c.line), c)
      else (scan text p, (start text).down p.line) := by
  split
  · rename_i hlt
    unfold resolve find
    rw [if_pos hlt]
    rfl
  · rename_i hle
    have hdown : c.down (p.line - c.line) = (start text).down p.line := by
      calc c.down (p.line - c.line)
        _ = ((start text).down c.line).down (p.line - c.line) := by rw [← h]
        _ = (start text).down (c.line + (p.line - c.line)) := down_down _ _ _
        _ = (start text).down p.line := by rw [Nat.add_sub_cancel' (Nat.le_of_not_lt hle)]
    have hzero : (start text).line = 0 := rfl
    rw [← resolve_start]
    unfold resolve find
    rw [hdown, hzero, if_neg hle, if_neg (Nat.not_lt_zero _), Nat.sub_zero]

end LineCursor

end Userstyle.Source
