/-!
# Lines and pieces

`lines` cuts a text behind every line feed and keeps the line feeds, so the lines put together are
the text again. `pieces` cuts a text at separators and drops them.
-/

namespace Userstyle.Text

/-- The lines of a text, each with the line feed that ends it. An empty text has none. -/
def lines : List Char → List (List Char)
  | [] => []
  | c :: r =>
    if c = '\n' then [c] :: lines r
    else
      match lines r with
      | [] => [[c]]
      | line :: rest => (c :: line) :: rest

/-- The pieces of a text between the separators, empty ones included. -/
def pieces (isSeparator : Char → Bool) : List Char → List (List Char)
  | [] => [[]]
  | c :: r =>
    if isSeparator c then [] :: pieces isSeparator r
    else
      match pieces isSeparator r with
      | [] => [[c]]
      | piece :: rest => (c :: piece) :: rest

/-- The lines of a text put together are the text. -/
@[simp] theorem flatten_lines (s : List Char) : (lines s).flatten = s := by
  induction s with
  | nil => rfl
  | cons c r ih =>
    by_cases h : c = '\n'
    · simp [lines, h, ih]
    · cases hl : lines r <;> simp_all [lines]

section Pieces

variable {isSeparator : Char → Bool}

theorem pieces_ne_nil (s : List Char) : pieces isSeparator s ≠ [] := by
  cases s with
  | nil => exact List.cons_ne_nil _ _
  | cons c r =>
    unfold pieces
    by_cases hc : isSeparator c = true
    · simp [hc]
    · cases hp : pieces isSeparator r <;> simp [hc]

/-- A text without separators is one piece. -/
theorem pieces_eq_singleton {s : List Char} (hs : ∀ x ∈ s, isSeparator x = false) :
    pieces isSeparator s = [s] := by
  induction s with
  | nil => rfl
  | cons x s ih =>
    rw [List.forall_mem_cons] at hs
    rw [pieces, ih hs.2]
    simp [hs.1]

/-- The first piece of a text ends before the first separator. -/
theorem pieces_append {s : List Char} {c : Char} (r : List Char)
    (hs : ∀ x ∈ s, isSeparator x = false) (hc : isSeparator c = true) :
    pieces isSeparator (s ++ c :: r) = s :: pieces isSeparator r := by
  induction s with
  | nil => simp [pieces, hc]
  | cons x s ih =>
    rw [List.forall_mem_cons] at hs
    rw [List.cons_append, pieces, ih hs.2]
    simp [hs.1]

/-- No piece holds a separator. -/
theorem not_separator_of_mem_pieces {s piece : List Char} (h : piece ∈ pieces isSeparator s) :
    ∀ c ∈ piece, isSeparator c = false := by
  induction s generalizing piece with
  | nil =>
    rw [List.mem_singleton.mp h]
    exact fun c hc => absurd hc List.not_mem_nil
  | cons x s ih =>
    unfold pieces at h
    by_cases hx : isSeparator x = true
    · rw [if_pos hx, List.mem_cons] at h
      rcases h with rfl | h
      · exact fun c hc => absurd hc List.not_mem_nil
      · exact ih h
    · rw [if_neg hx] at h
      cases hp : pieces isSeparator s with
      | nil => exact absurd hp (pieces_ne_nil s)
      | cons first rest =>
        simp only [hp, List.mem_cons] at h ih
        rcases h with rfl | h
        · exact List.forall_mem_cons.mpr ⟨by simpa using hx, ih (Or.inl rfl)⟩
        · exact ih (Or.inr h)

end Pieces

end Userstyle.Text
