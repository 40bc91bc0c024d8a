import Userstyle.Source.Place

/-!
# Byte offsets of characters

Offsets count bytes, texts are lists of characters. The two meet in decompositions: a text written
as `before ++ after` has a place between the two parts, and its offset is the byte length of
`before`. Two decompositions of one text are in the order of their offsets.
-/

namespace Userstyle.Text

theorem takeBytes_append (s t : List Char) : takeBytes (byteLength s) (s ++ t) = s := by
  induction s with
  | nil => cases t <;> simp [takeBytes]
  | cons c s ih =>
    have hc := c.utf8Size_pos
    have hne : byteLength (c :: s) ≠ 0 := by rw [byteLength_cons]; omega
    have hsub : byteLength (c :: s) - c.utf8Size = byteLength s := by rw [byteLength_cons]; omega
    rw [List.cons_append, takeBytes, if_neg hne, hsub, ih]

/-- Of two decompositions of a text, the one with the greater offset continues the other. -/
theorem exists_append_of_byteLength_le {b₁ a₁ b₂ a₂ : List Char} (h : b₁ ++ a₁ = b₂ ++ a₂)
    (hle : byteLength b₁ ≤ byteLength b₂) : ∃ m, b₂ = b₁ ++ m ∧ a₁ = m ++ a₂ := by
  rcases List.append_eq_append_iff.mp h with ⟨m, hb, ha⟩ | ⟨m, hb, ha⟩
  · exact ⟨m, hb, ha⟩
  · cases m with
    | nil => exact ⟨[], by simpa using hb.symm, by simpa using ha.symm⟩
    | cons c m =>
      have hc := c.utf8Size_pos
      rw [hb, byteLength_append, byteLength_cons] at hle
      omega

end Userstyle.Text

namespace Userstyle.Source

open Text

/-- A character of the text begins at the byte offset `o`. -/
def IsStart (text : List Char) (o : Nat) : Prop :=
  ∃ before c after, text = before ++ c :: after ∧ byteLength before = o

/-- Between the beginnings of two characters stands a piece of the text. -/
theorem IsStart.eq_append {text : List Char} {o o' : Nat} (h : IsStart text o)
    (h' : IsStart text o') (hle : o ≤ o') :
    ∃ before mid c after, text = before ++ mid ++ c :: after ∧ byteLength before = o ∧
      byteLength (before ++ mid) = o' := by
  obtain ⟨b, c, a, ht, rfl⟩ := h
  obtain ⟨b', c', a', ht', rfl⟩ := h'
  obtain ⟨m, rfl, -⟩ := exists_append_of_byteLength_le (ht.symm.trans ht') hle
  exact ⟨b, m, c', a', ht', rfl, rfl⟩

namespace Place

/-- The place lies in the text: what comes before it and what it has ahead are the text. -/
def On (text : List Char) (p : Place) : Prop :=
  ∃ before, text = before ++ p.rest ∧ byteLength before = p.offset

theorem start_on (text : List Char) : (start text).On text := ⟨[], rfl, rfl⟩

theorem On.advance {text : List Char} {p : Place} (h : p.On text) (n : Nat) :
    (p.advance n).On text := by
  obtain ⟨b, ht, ho⟩ := h
  refine ⟨b ++ p.rest.take n, ?_, ?_⟩
  · rw [List.append_assoc]
    simpa [Place.advance] using ht
  · rw [byteLength_append, ho]
    rfl

/-- The text between two places is what one has ahead and the other has not. -/
theorem textTo_append (o : Nat) (s t : List Char) :
    (⟨o, s ++ t⟩ : Place).textTo ⟨o + byteLength s, t⟩ = s := by
  unfold textTo
  rw [Nat.add_sub_cancel_left, takeBytes_append]

end Place

end Userstyle.Source
