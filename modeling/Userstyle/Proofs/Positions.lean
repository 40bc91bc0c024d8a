import Userstyle.Proofs.Places

/-!
# Positions and the text between them

Reading a text character by character moves a position on: a line feed begins a new line, any other
character a new column. `stretch` says what the text between two positions is: the characters whose
own positions are neither before the first nor behind the last.
-/

namespace Userstyle.Source

open Text

namespace Position

/-- The position of the character that follows `c`. -/
def after (p : Position) (c : Char) : Position :=
  if c = '\n' then ⟨p.line + 1, 0⟩ else ⟨p.line, p.column + 1⟩

/-- The position behind a text that begins at `p`. -/
def through (p : Position) (s : List Char) : Position := s.foldl after p

/-- The position behind the beginning of a text. -/
def behind (before : List Char) : Position := (⟨0, 0⟩ : Position).through before

/-- Positions are ordered by line and then by column. -/
instance : LE Position :=
  ⟨fun p q => p.line < q.line ∨ p.line = q.line ∧ p.column ≤ q.column⟩

/-- A position is before another on an earlier line, or on the same line in an earlier column. -/
instance : LT Position :=
  ⟨fun p q => p.line < q.line ∨ p.line = q.line ∧ p.column < q.column⟩

theorem le_def {p q : Position} :
    p ≤ q ↔ p.line < q.line ∨ p.line = q.line ∧ p.column ≤ q.column := Iff.rfl

theorem lt_def {p q : Position} :
    p < q ↔ p.line < q.line ∨ p.line = q.line ∧ p.column < q.column := Iff.rfl

/-- The order of positions is decided by comparing lines and columns. -/
instance (p q : Position) : Decidable (p ≤ q) := decidable_of_iff _ le_def.symm

theorem lt_of_lt_of_le {p q r : Position} (h : p < q) (h' : q ≤ r) : p < r := by
  rw [lt_def] at *
  rw [le_def] at h'
  omega

theorem le_of_lt {p q : Position} (h : p < q) : p ≤ q := by
  rw [lt_def] at h
  rw [le_def]
  omega

theorem not_le_of_lt {p q : Position} (h : p < q) : ¬ q ≤ p := by
  rw [lt_def] at h
  rw [le_def]
  omega

theorem line_le_of_le {p q : Position} (h : p ≤ q) : p.line ≤ q.line := by
  rw [le_def] at h
  omega

theorem lt_after (p : Position) (c : Char) : p < p.after c := by
  unfold after
  rw [lt_def]
  split
  · exact Or.inl (Nat.lt_succ_self _)
  · exact Or.inr ⟨rfl, Nat.lt_succ_self _⟩

@[simp] theorem through_cons (p : Position) (c : Char) (s : List Char) :
    p.through (c :: s) = (p.after c).through s := rfl

@[simp] theorem through_append (p : Position) (s t : List Char) :
    p.through (s ++ t) = (p.through s).through t := List.foldl_append

theorem behind_append (s t : List Char) : behind (s ++ t) = (behind s).through t :=
  through_append _ s t

theorem le_through (p : Position) (s : List Char) : p ≤ p.through s := by
  induction s generalizing p with
  | nil => exact Or.inr ⟨rfl, Nat.le_refl _⟩
  | cons c s ih => exact le_of_lt (lt_of_lt_of_le (lt_after p c) (ih _))

theorem lt_through {s : List Char} (p : Position) (h : s ≠ []) : p < p.through s := by
  cases s with
  | nil => exact absurd rfl h
  | cons c s => exact lt_of_lt_of_le (lt_after p c) (le_through _ s)

/-- A text without line feeds stays on its line. -/
theorem through_of_not_mem {s : List Char} (p : Position) (h : '\n' ∉ s) :
    p.through s = ⟨p.line, p.column + s.length⟩ := by
  induction s generalizing p with
  | nil => rfl
  | cons c s ih =>
    rw [List.mem_cons, not_or] at h
    rw [through_cons, ih _ h.2, after, if_neg (Ne.symm h.1)]
    simp only [List.length_cons, Position.mk.injEq, true_and]
    omega

/-- A line feed leads to the first column of the next line. -/
theorem through_line {s : List Char} (p : Position) (h : '\n' ∉ s) :
    p.through (s ++ ['\n']) = ⟨p.line + 1, 0⟩ := by
  rw [through_append, through_of_not_mem p h]
  rfl

end Position

open Position

/-- The position of the byte offset `o`. -/
def positionAt (text : List Char) (o : Nat) : Position := behind (takeBytes o text)

theorem positionAt_byteLength (before rest : List Char) :
    positionAt (before ++ rest) (byteLength before) = behind before := by
  unfold positionAt
  rw [takeBytes_append]

theorem positionAt_le {text : List Char} {o o' : Nat} (h : IsStart text o) (h' : IsStart text o')
    (hle : o ≤ o') : positionAt text o ≤ positionAt text o' := by
  obtain ⟨b, m, c, a, rfl, rfl, rfl⟩ := h.eq_append h' hle
  rw [positionAt_byteLength, List.append_assoc, positionAt_byteLength, behind_append]
  exact le_through _ m

/-- The characters of a text that begins at `p`, each with its position. -/
def placed (p : Position) : List Char → List (Position × Char)
  | [] => []
  | c :: r => (p, c) :: placed (p.after c) r

/-- The text from the first position of a span to its last, both characters included. -/
def stretch (text : List Char) (span : Span Position) : List Char :=
  ((placed ⟨0, 0⟩ text).filter fun x => span.first ≤ x.1 ∧ x.1 ≤ span.last).map Prod.snd

theorem placed_append (p : Position) (s t : List Char) :
    placed p (s ++ t) = placed p s ++ placed (p.through s) t := by
  induction s generalizing p with
  | nil => rfl
  | cons c s ih => simp [placed, ih]

theorem map_snd_placed (p : Position) (s : List Char) : (placed p s).map Prod.snd = s := by
  induction s generalizing p with
  | nil => rfl
  | cons c s ih => simp [placed, ih]

theorem le_of_mem_placed {p : Position} {s : List Char} {x : Position × Char}
    (h : x ∈ placed p s) : p ≤ x.1 := by
  induction s generalizing p with
  | nil => cases h
  | cons c s ih =>
    rcases List.mem_cons.mp h with rfl | h
    · exact le_through p []
    · exact le_of_lt (lt_of_lt_of_le (lt_after p c) (ih h))

theorem lt_of_mem_placed {p : Position} {s : List Char} {x : Position × Char}
    (h : x ∈ placed p s) : x.1 < p.through s := by
  induction s generalizing p with
  | nil => cases h
  | cons c s ih =>
    rcases List.mem_cons.mp h with rfl | h
    · exact lt_of_lt_of_le (lt_after _ c) (le_through _ s)
    · exact ih h

section Stretch

variable {p first last : Position} {s : List Char}

theorem filter_placed_ahead (h : p.through s ≤ first) :
    (placed p s).filter (fun x => first ≤ x.1 ∧ x.1 ≤ last) = [] := by
  rw [List.filter_eq_nil_iff]
  intro x hx
  have hnot : ¬ first ≤ x.1 := not_le_of_lt (lt_of_lt_of_le (lt_of_mem_placed hx) h)
  simpa using fun hle => absurd hle hnot

theorem filter_placed_past (h : last < p) :
    (placed p s).filter (fun x => first ≤ x.1 ∧ x.1 ≤ last) = [] := by
  rw [List.filter_eq_nil_iff]
  intro x hx
  have hnot : ¬ x.1 ≤ last := not_le_of_lt (lt_of_lt_of_le h (le_of_mem_placed hx))
  simpa using fun _ => hnot

theorem filter_placed_inside (h : first ≤ p) (h' : ∀ x ∈ placed p s, x.1 ≤ last) :
    (placed p s).filter (fun x => first ≤ x.1 ∧ x.1 ≤ last) = placed p s := by
  rw [List.filter_eq_self]
  intro x hx
  have hle : first ≤ x.1 := by
    have hp := le_of_mem_placed hx
    rw [le_def] at *
    omega
  simpa using ⟨hle, h' x hx⟩

theorem le_last_of_mem_placed {c : Char} {x : Position × Char} (h : x ∈ placed p (s ++ [c])) :
    x.1 ≤ p.through s := by
  rw [placed_append, List.mem_append] at h
  rcases h with h | h
  · exact le_of_lt (lt_of_mem_placed h)
  · rw [List.mem_singleton.mp h]
    exact le_through _ []

end Stretch

/-- Between the positions of two characters stands what the text has between them, and the two. -/
theorem stretch_append (before mid : List Char) (c : Char) (after : List Char) :
    stretch (before ++ mid ++ c :: after) ⟨behind before, behind (before ++ mid)⟩ =
      mid ++ [c] := by
  have hsplit : before ++ mid ++ c :: after = before ++ ((mid ++ [c]) ++ after) := by simp
  have hfirst : (⟨0, 0⟩ : Position).through before = behind before := rfl
  have hlast : (behind before).through mid = behind (before ++ mid) :=
    (behind_append before mid).symm
  have hpast : behind (before ++ mid) < (behind before).through (mid ++ [c]) := by
    rw [through_append, hlast]
    exact lt_after _ c
  have hinside : ∀ x ∈ placed (behind before) (mid ++ [c]), x.1 ≤ behind (before ++ mid) := by
    intro x hx
    rw [← hlast]
    exact le_last_of_mem_placed hx
  have hrefl : behind before ≤ behind before := le_through _ []
  show ((placed ⟨0, 0⟩ (before ++ mid ++ c :: after)).filter fun x =>
    behind before ≤ x.1 ∧ x.1 ≤ behind (before ++ mid)).map Prod.snd = mid ++ [c]
  rw [hsplit, placed_append, placed_append, hfirst, List.filter_append, List.filter_append,
    filter_placed_ahead hrefl, filter_placed_inside hrefl hinside, filter_placed_past hpast,
    List.nil_append, List.append_nil, map_snd_placed]

end Userstyle.Source
