import Userstyle.Css.Lexeme

/-!
# Where names and numbers end

A token is found by looking at the text from its beginning on. How far ahead of the end of a token
the tokenizer looks is limited: it does not look past a character that can go on neither with a name
nor with a number (`isBoundary`). Here this is shown for the names and numbers in tokens: what ends
in front of such a character ends there as well when the text changes behind the character, or when
the text is cut off in front of it.
-/

namespace Userstyle.Css

/-- A character past which the tokenizer does not look for the end of a token. -/
def isBoundary (c : Char) : Bool :=
  !isNameChar c && !(['\\', '.', '+', '%', '=', '!', '*', '>'].contains c)

/-- The texts `t` and `t'` go on behind `a` with the same boundary, or `t'` is empty. A backslash in
front of the boundary would count for more if nothing followed it. -/
def SameEnd (a t t' : List Char) : Prop :=
  ∃ x r, isBoundary x = true ∧ t = x :: r ∧ ((∃ r', t' = x :: r') ∨ t' = [] ∧ ¬['\\'] <:+ a)

theorem SameEnd.of_suffix {a b t t' : List Char} (h : SameEnd a t t') (hb : b <:+ a) :
    SameEnd b t t' := by
  obtain ⟨x, r, hx, ht, hr | ⟨ht', ha⟩⟩ := h
  · exact ⟨x, r, hx, ht, Or.inl hr⟩
  · exact ⟨x, r, hx, ht, Or.inr ⟨ht', fun hs => ha (hs.trans hb)⟩⟩

theorem SameEnd.tail {c : Char} {a t t' : List Char} (h : SameEnd (c :: a) t t') :
    SameEnd a t t' :=
  h.of_suffix (List.suffix_cons c a)

theorem SameEnd.drop {a t t' : List Char} (h : SameEnd a t t') (n : Nat) :
    SameEnd (a.drop n) t t' :=
  h.of_suffix (List.drop_suffix n a)

section Boundary

variable {x : Char}

theorem isBoundary_iff : isBoundary x = true ↔ isNameChar x = false ∧
    x ≠ '\\' ∧ x ≠ '.' ∧ x ≠ '+' ∧ x ≠ '%' ∧ x ≠ '=' ∧ x ≠ '!' ∧ x ≠ '*' ∧ x ≠ '>' := by
  simp [isBoundary]

theorem isDigit_of_isBoundary (hx : isBoundary x = true) : x.isDigit = false := by
  have hn := (isBoundary_iff.mp hx).1
  simp only [isNameChar, Bool.or_eq_false_iff] at hn
  exact hn.1.2

theorem ne_hyphen_of_isBoundary (hx : isBoundary x = true) : x ≠ '-' := by
  rintro rfl
  exact absurd hx (by decide)

theorem isNameStart_of_isBoundary (hx : isBoundary x = true) : isNameStart x = false := by
  have hn := (isBoundary_iff.mp hx).1
  simp only [isNameChar, Bool.or_eq_false_iff] at hn
  exact hn.1.1

theorem isAlpha_of_isHexDigit {c : Char} (h : isHexDigit c = true) (hd : c.isDigit = false) :
    c.isAlpha = true := by
  have hz : 'Z'.val.toNat = 90 ∧ 'z'.val.toNat = 122 := ⟨rfl, rfl⟩
  have hf : 'F'.val.toNat = 70 ∧ 'f'.val.toNat = 102 := ⟨rfl, rfl⟩
  simp only [isHexDigit, hd, Bool.false_or, Bool.or_eq_true, Bool.and_eq_true, decide_eq_true_eq,
    Char.le_def, UInt32.le_iff_toNat_le] at h
  unfold Char.isAlpha Char.isUpper Char.isLower
  simp only [Bool.or_eq_true, Bool.and_eq_true, decide_eq_true_eq, UInt32.le_iff_toNat_le,
    ge_iff_le]
  omega

theorem isHexDigit_of_isBoundary (hx : isBoundary x = true) : isHexDigit x = false := by
  have hd := isDigit_of_isBoundary hx
  have hs := isNameStart_of_isBoundary hx
  simp only [isNameStart, Bool.or_eq_false_iff] at hs
  refine Bool.eq_false_iff.mpr fun h => ?_
  have ha := isAlpha_of_isHexDigit h hd
  rw [hs.1.1.1] at ha
  cases ha

end Boundary

/-! ## Lengths that a boundary limits -/

section Limited

variable {a t t' : List Char}

/-- The text goes on behind `a` with a boundary or not at all. -/
def Limited (t : List Char) : Prop := ∀ x r, t = x :: r → isBoundary x = true

theorem SameEnd.left (h : SameEnd a t t') : Limited t := by
  obtain ⟨x, r, hx, rfl, -⟩ := h
  intro y s hy
  rw [← (List.cons.inj hy).1]
  exact hx

theorem SameEnd.right (h : SameEnd a t t') : Limited t' := by
  obtain ⟨x, r, hx, rfl, ⟨r', rfl⟩ | ⟨rfl, -⟩⟩ := h
  · intro y s hy
    rw [← (List.cons.inj hy).1]
    exact hx
  · intro y s hy
    cases hy

theorem SameEnd.ne_nil (h : SameEnd a t t') : t ≠ [] := by
  obtain ⟨x, r, -, rfl, -⟩ := h
  exact List.cons_ne_nil x r

/-- A run of characters ends at a boundary that is none of them. -/
theorem takeWhile_append_limited {p : Char → Bool} (ht : Limited t)
    (hp : ∀ x, isBoundary x = true → p x = false) :
    (a ++ t).takeWhile p = a.takeWhile p := by
  induction a with
  | nil =>
    cases t with
    | nil => rfl
    | cons x r => simp [hp x (ht x r rfl)]
  | cons c a ih => by_cases hc : p c = true <;> simp [hc, ih]

theorem digitCount_append (ht : Limited t) : digitCount (a ++ t) = digitCount a := by
  unfold digitCount
  rw [takeWhile_append_limited ht fun x hx => isDigit_of_isBoundary hx]

theorem digitCount_le (s : List Char) : digitCount s ≤ s.length :=
  (List.takeWhile_prefix _).length_le

theorem beginsWithDigit_append (ht : Limited t) :
    beginsWithDigit (a ++ t) = beginsWithDigit a := by
  cases a with
  | nil =>
    cases t with
    | nil => rfl
    | cons x r => exact isDigit_of_isBoundary (ht x r rfl)
  | cons c a => rfl

theorem signLength_append (ht : Limited t) : signLength (a ++ t) = signLength a := by
  cases a with
  | nil =>
    cases t with
    | nil => rfl
    | cons x r =>
      have hx := ht x r rfl
      have hplus := (isBoundary_iff.mp hx).2.2.2.1
      have hminus := ne_hyphen_of_isBoundary hx
      unfold signLength
      split
      · exact absurd (List.cons.inj ‹_›).1 hplus
      · exact absurd (List.cons.inj ‹_›).1 hminus
      · rfl
  | cons c a =>
    rw [List.cons_append]
    unfold signLength
    split <;> split <;> simp_all

theorem signLength_le (s : List Char) : signLength s ≤ s.length := by
  unfold signLength
  split <;> simp

theorem fractionLength_append (ht : Limited t) : fractionLength (a ++ t) = fractionLength a := by
  cases a with
  | nil =>
    cases t with
    | nil => rfl
    | cons x r =>
      have hdot := (isBoundary_iff.mp (ht x r rfl)).2.2.1
      unfold fractionLength
      split
      · exact absurd (List.cons.inj ‹_›).1 hdot
      · rfl
  | cons c a =>
    unfold fractionLength
    by_cases hc : c = '.'
    · subst hc
      simp [beginsWithDigit_append ht, digitCount_append ht]
    · simp [hc]

theorem fractionLength_le (s : List Char) : fractionLength s ≤ s.length := by
  unfold fractionLength
  split
  · rename_i r
    have := digitCount_le r
    rw [List.length_cons]
    split <;> omega
  · exact Nat.zero_le _

theorem exponentLength_append (ht : Limited t) : exponentLength (a ++ t) = exponentLength a := by
  cases a with
  | nil =>
    cases t with
    | nil => rfl
    | cons x r =>
      have hn := (isBoundary_iff.mp (ht x r rfl)).1
      have hx : ¬ (x = 'e' ∨ x = 'E') := by
        rintro (rfl | rfl) <;> exact absurd hn (by decide)
      simp [exponentLength, hx]
  | cons c a =>
    have hdrop : (a ++ t).drop (signLength a) = a.drop (signLength a) ++ t :=
      List.drop_append_of_le_length (signLength_le a)
    simp only [List.cons_append, exponentLength, signLength_append ht, hdrop,
      beginsWithDigit_append ht, digitCount_append ht]

theorem exponentLength_le (s : List Char) : exponentLength s ≤ s.length := by
  cases s with
  | nil => exact Nat.le_refl 0
  | cons c r =>
    have hs := signLength_le r
    have hd := digitCount_le (r.drop (signLength r))
    rw [List.length_drop] at hd
    simp only [exponentLength, List.length_cons]
    split <;> omega

theorem beginsWithNumber_append (ht : Limited t) :
    beginsWithNumber (a ++ t) = beginsWithNumber a := by
  have hdrop : (a ++ t).drop (signLength a) = a.drop (signLength a) ++ t :=
    List.drop_append_of_le_length (signLength_le a)
  unfold beginsWithNumber
  rw [signLength_append ht, hdrop]
  cases a.drop (signLength a) with
  | nil =>
    cases t with
    | nil => rfl
    | cons x r =>
      have hx := ht x r rfl
      have hdot := (isBoundary_iff.mp hx).2.2.1
      have hdigit := isDigit_of_isBoundary hx
      rw [List.nil_append]
      split
      · exact absurd (List.cons.inj ‹_›).1 hdot
      · simp [beginsWithDigit, hdigit]
  | cons c b =>
    by_cases hc : c = '.'
    · subst hc
      exact beginsWithDigit_append ht
    · rw [List.cons_append]
      split <;> split <;> simp_all [beginsWithDigit]

/-! ## Escapes and names -/

/-- Whether the end of a line follows a backslash. -/
theorem beginsWithNewline_congr (h : SameEnd ('\\' :: a) t t') :
    beginsWithNewline (a ++ t') = beginsWithNewline (a ++ t) := by
  obtain ⟨x, r, -, rfl, hr⟩ := h
  cases a with
  | cons c a => rfl
  | nil =>
    obtain ⟨r', rfl⟩ | ⟨-, hlast⟩ := hr
    · rfl
    · exact absurd (List.suffix_refl _) hlast

theorem escapeDigits_append (ht : Limited t) : escapeDigits (a ++ t) = escapeDigits a := by
  unfold escapeDigits
  rw [List.take_append]
  have htake : Limited (t.take (6 - a.length)) := by
    intro x r hxr
    cases t with
    | nil => simp at hxr
    | cons y s =>
      cases hn : 6 - a.length with
      | zero => simp [hn] at hxr
      | succ n =>
        rw [hn, List.take_succ_cons] at hxr
        rw [← (List.cons.inj hxr).1]
        exact ht y s rfl
  exact takeWhile_append_limited htake fun x hx => isHexDigit_of_isBoundary hx

theorem escapeDigits_le (s : List Char) : (escapeDigits s).length ≤ s.length := by
  unfold escapeDigits
  exact Nat.le_trans (List.takeWhile_prefix _).length_le (List.length_take_le' _ _)

theorem newlineLength_cons (c : Char) (s : List Char) :
    newlineLength (c :: s) =
      if c = '\r' ∧ s.head? = some '\n' then 2 else if isNewline c then 1 else 0 := by
  unfold newlineLength
  split
  · rename_i heq
    obtain ⟨rfl, rfl⟩ := List.cons.inj heq
    simp
  · rename_i d r hnot heq
    obtain ⟨rfl, rfl⟩ := List.cons.inj heq
    have hno : ¬(c = '\r' ∧ s.head? = some '\n') := by
      rintro ⟨rfl, hs⟩
      obtain ⟨r, rfl⟩ := List.head?_eq_some_iff.mp hs
      exact hnot r rfl rfl
    rw [if_neg hno]
  · rename_i heq
    cases heq

theorem newlineLength_congr (h : SameEnd a t t') (ha : a ≠ [])
    (hlen : newlineLength (a ++ t) ≤ a.length) :
    newlineLength (a ++ t') = newlineLength (a ++ t) := by
  obtain ⟨x, r, -, rfl, hr⟩ := h
  cases a with
  | nil => exact absurd rfl ha
  | cons c a =>
    simp only [List.cons_append, newlineLength_cons] at hlen ⊢
    cases a with
    | cons d a => rfl
    | nil =>
      -- A carriage return in front of a line feed would take it along.
      by_cases hc : c = '\r' ∧ x = '\n'
      · simp [hc] at hlen
      · obtain ⟨r', rfl⟩ | ⟨rfl, -⟩ := hr
        · simp
        · simpa using fun h₁ h₂ => absurd ⟨h₁, h₂⟩ hc

/-- The length of the one white space that the digits of an escape take along. -/
def takenSpace : List Char → Nat
  | [] => 0
  | c :: r => if isNewline c then newlineLength (c :: r) else if isSpace c then 1 else 0

theorem escapeLength_eq (s : List Char) :
    escapeLength s =
      if (escapeDigits s).length = 0 then (if s = [] then 0 else 1)
      else (escapeDigits s).length + takenSpace (s.drop (escapeDigits s).length) := by
  unfold escapeLength
  dsimp only
  by_cases hzero : (escapeDigits s).length = 0
  · simp [hzero]
  · rw [if_neg hzero, if_neg hzero]
    cases s.drop (escapeDigits s).length with
    | nil => rfl
    | cons c r =>
      by_cases hnewline : isNewline c = true
      · simp [takenSpace, hnewline]
      · by_cases hspace : isSpace c = true <;> simp [takenSpace, hnewline, hspace]

theorem newlineLength_le (s : List Char) : newlineLength s ≤ s.length := by
  cases s with
  | nil => exact Nat.le_refl 0
  | cons c r =>
    rw [newlineLength_cons]
    split
    · rename_i hreturn
      obtain ⟨r, rfl⟩ := List.head?_eq_some_iff.mp hreturn.2
      simp
    · split <;> simp

theorem takenSpace_le (s : List Char) : takenSpace s ≤ s.length := by
  cases s with
  | nil => exact Nat.le_refl 0
  | cons c r =>
    rw [takenSpace]
    split
    · exact newlineLength_le (c :: r)
    · split <;> simp

theorem escapeLength_le (s : List Char) : escapeLength s ≤ s.length := by
  rw [escapeLength_eq]
  split
  · split
    · exact Nat.zero_le _
    · exact List.length_pos_iff.mpr ‹_›
  · have hdigits := escapeDigits_le s
    have hspace := takenSpace_le (s.drop (escapeDigits s).length)
    rw [List.length_drop] at hspace
    omega

theorem takenSpace_congr (h : SameEnd a t t') (hlen : takenSpace (a ++ t) ≤ a.length) :
    takenSpace (a ++ t') = takenSpace (a ++ t) := by
  cases a with
  | cons c a =>
    have hnewline := newlineLength_congr h (List.cons_ne_nil c a)
    simp only [List.cons_append, takenSpace] at hlen hnewline ⊢
    by_cases hc : isNewline c = true
    · rw [if_pos hc] at hlen
      rw [if_pos hc, if_pos hc, hnewline hlen]
    · rw [if_neg hc, if_neg hc]
  | nil =>
    obtain ⟨x, r, -, rfl, hr⟩ := h
    simp only [List.nil_append, takenSpace, List.length_nil] at hlen ⊢
    have hx : isNewline x = false := by
      refine Bool.eq_false_iff.mpr fun hx => ?_
      rw [if_pos hx, newlineLength_cons, if_pos hx] at hlen
      split at hlen <;> cases hlen
    have hspace : isSpace x = false := by
      refine Bool.eq_false_iff.mpr fun hspace => ?_
      rw [if_neg (by simp [hx]), if_pos hspace] at hlen
      cases hlen
    obtain ⟨r', rfl⟩ | ⟨rfl, -⟩ := hr <;> simp [hx, hspace]

/-- An escape that ends in front of a boundary. -/
theorem escapeLength_congr (h : SameEnd a t t') (hlen : escapeLength (a ++ t) ≤ a.length) :
    escapeLength (a ++ t') = escapeLength (a ++ t) := by
  have hle := escapeDigits_le a
  have hdrop (u : List Char) : (a ++ u).drop (escapeDigits a).length =
      a.drop (escapeDigits a).length ++ u :=
    List.drop_append_of_le_length hle
  simp only [escapeLength_eq, escapeDigits_append h.left, escapeDigits_append h.right, hdrop]
    at hlen ⊢
  by_cases hzero : (escapeDigits a).length = 0
  · have ht := h.ne_nil
    have ha : a ≠ [] := by
      rintro rfl
      simp [ht, escapeDigits] at hlen
    simp [hzero, ht, ha]
  · rw [if_neg hzero] at hlen
    rw [if_neg hzero, if_neg hzero, takenSpace_congr (h.drop _)]
    rw [List.length_drop]
    omega

theorem nameLength_cons (c : Char) (r : List Char) :
    nameLength (c :: r) =
      if c = '\\' then
        if beginsWithNewline r then 0
        else 1 + escapeLength r + nameLength (r.drop (escapeLength r))
      else if isNameChar c then 1 + nameLength r else 0 := by
  rw [nameLength]

/-- A name that ends in front of a boundary. -/
theorem nameLength_congr (h : SameEnd a t t') (hlen : nameLength (a ++ t) ≤ a.length) :
    nameLength (a ++ t') = nameLength (a ++ t) := by
  induction hn : a.length using Nat.strongRecOn generalizing a with
  | ind n ih =>
    cases a with
    | nil =>
      have hzero {u : List Char} (hu : Limited u) : nameLength u = 0 := by
        cases u with
        | nil => rw [nameLength]
        | cons x r =>
          have hx := isBoundary_iff.mp (hu x r rfl)
          rw [nameLength_cons, if_neg hx.2.1, hx.1]
          rfl
      rw [List.nil_append, List.nil_append, hzero h.left, hzero h.right]
    | cons c a =>
      rw [List.length_cons] at hn hlen
      simp only [List.cons_append, nameLength_cons] at hlen ⊢
      by_cases hc : c = '\\'
      · subst hc
        simp only [if_true, beginsWithNewline_congr h] at hlen ⊢
        split
        · rfl
        · rename_i hnewline
          rw [if_neg hnewline] at hlen
          have hescape : escapeLength (a ++ t) ≤ a.length := by omega
          have hdrop (u : List Char) : (a ++ u).drop (escapeLength (a ++ t)) =
              a.drop (escapeLength (a ++ t)) ++ u :=
            List.drop_append_of_le_length hescape
          rw [hdrop] at hlen
          rw [escapeLength_congr h.tail hescape, hdrop, hdrop,
            ih (a.drop (escapeLength (a ++ t))).length _ (h.tail.drop _) _ rfl]
          · rw [List.length_drop]
            omega
          · rw [List.length_drop]
            omega
      · simp only [hc, if_false] at hlen ⊢
        by_cases hname : isNameChar c = true
        · simp only [hname, if_true] at hlen ⊢
          rw [ih a.length (by omega) h.tail (by omega) rfl]
        · simp [hname]

theorem beginsWithName_cons (c : Char) (r : List Char) :
    beginsWithName (c :: r) =
      if c = '\\' then !beginsWithNewline r
      else if c = '-' then r.head?.any fun d => isNameStart d || d == '-' || d == '\\'
      else isNameStart c := by
  unfold beginsWithName
  split
  · rename_i heq
    cases heq
  · rename_i heq
    obtain ⟨rfl, rfl⟩ := List.cons.inj heq
    simp
  · rename_i heq
    obtain ⟨rfl, rfl⟩ := List.cons.inj heq
    simp
  · rename_i hslash hhyphen heq
    obtain ⟨rfl, rfl⟩ := List.cons.inj heq
    rw [if_neg hslash]
    split
    · rename_i hc
      subst hc
      cases r with
      | nil => rfl
      | cons d r => exact absurd rfl (hhyphen d r rfl)
    · rfl

theorem beginsWithName_congr (h : SameEnd a t t') :
    beginsWithName (a ++ t') = beginsWithName (a ++ t) := by
  have hnone {u : List Char} (hu : Limited u) : beginsWithName u = false ∧
      (u.head?.any fun d => isNameStart d || d == '-' || d == '\\') = false := by
    cases u with
    | nil => exact ⟨rfl, rfl⟩
    | cons x r =>
      have hx := hu x r rfl
      have hslash := (isBoundary_iff.mp hx).2.1
      simp [beginsWithName_cons, isNameStart_of_isBoundary hx, hslash, ne_hyphen_of_isBoundary hx]
  cases a with
  | nil => rw [List.nil_append, List.nil_append, (hnone h.left).1, (hnone h.right).1]
  | cons c a =>
    simp only [List.cons_append, beginsWithName_cons]
    by_cases hc : c = '\\'
    · subst hc
      rw [if_pos rfl, if_pos rfl, beginsWithNewline_congr h]
    · rw [if_neg hc, if_neg hc]
      cases a with
      | nil => rw [List.nil_append, List.nil_append, (hnone h.left).2, (hnone h.right).2]
      | cons d a => rfl

/-! ## Numbers -/

theorem unitNameLength_eq (s : List Char) :
    unitNameLength s =
      if s.head? = some '%' then 1 else if beginsWithName s then nameLength s else 0 := by
  by_cases h : s.head? = some '%'
  · obtain ⟨r, rfl⟩ := List.head?_eq_some_iff.mp h
    rfl
  · rw [if_neg h]
    unfold unitNameLength
    split
    · exact absurd rfl h
    · rfl

theorem unitNameLength_congr (h : SameEnd a t t') (hlen : unitNameLength (a ++ t) ≤ a.length) :
    unitNameLength (a ++ t') = unitNameLength (a ++ t) := by
  have hhead : (a ++ t').head? = some '%' ↔ (a ++ t).head? = some '%' := by
    cases a with
    | cons c a => rfl
    | nil =>
      have hno {u : List Char} (hu : Limited u) : u.head? ≠ some '%' := by
        intro hs
        obtain ⟨r, rfl⟩ := List.head?_eq_some_iff.mp hs
        exact absurd (hu '%' r rfl) (by decide)
      exact iff_of_false (hno h.right) (hno h.left)
  rw [unitNameLength_eq] at hlen
  rw [unitNameLength_eq, unitNameLength_eq, beginsWithName_congr h]
  simp only [hhead]
  split
  · rfl
  · rename_i hpercent
    rw [if_neg hpercent] at hlen
    split
    · rename_i hname
      rw [if_pos hname] at hlen
      exact nameLength_congr h hlen
    · rfl

/-- A number that ends in front of a boundary. -/
theorem numberLength_congr (h : SameEnd a t t') (hlen : numberLength (a ++ t) ≤ a.length) :
    numberLength (a ++ t') = numberLength (a ++ t) := by
  have hdrop (n : Nat) (hn : n ≤ a.length) (u : List Char) :
      (a ++ u).drop n = a.drop n ++ u :=
    List.drop_append_of_le_length hn
  -- The number without its unit depends on what comes before the boundary only.
  have hsign := signLength_le a
  have hdigits := digitCount_le (a.drop (signLength a))
  rw [List.length_drop] at hdigits
  generalize hwhole : signLength a + digitCount (a.drop (signLength a)) = whole
  have hfractionLe := fractionLength_le (a.drop whole)
  rw [List.length_drop] at hfractionLe
  generalize hfraction : whole + fractionLength (a.drop whole) = fraction
  have hexponentLe := exponentLength_le (a.drop fraction)
  rw [List.length_drop] at hexponentLe
  generalize hexponent : fraction + exponentLength (a.drop fraction) = exponent
  have hle : exponent ≤ a.length := by omega
  have hnumber (u : List Char) (hu : Limited u) :
      numberLength (a ++ u) = exponent + unitNameLength (a.drop exponent ++ u) := by
    unfold numberLength
    simp only [signLength_append hu, hdrop _ hsign, digitCount_append hu, hwhole,
      hdrop whole (by omega), fractionLength_append hu, hfraction, hdrop fraction (by omega),
      exponentLength_append hu, hexponent, hdrop exponent hle]
  rw [hnumber t h.left] at hlen
  rw [hnumber t h.left, hnumber t' h.right, unitNameLength_congr (h.drop exponent)]
  rw [List.length_drop]
  omega

end Limited

end Userstyle.Css
