import Userstyle.Json.Token
import Userstyle.Script.Literal

/-!
# Reading string literals

`readLiteral` reads the inside of a double-quoted string literal by the rules of JavaScript: it
gives the value and what stands behind the closing quote. A literal that has been read does not
depend on what stands behind it (`readLiteral_append`). What `stringBody` writes is read back as it
was, whatever stands behind it, and no beginning of it is read as a whole literal
(`stringBody_denotes`).
-/

namespace Userstyle.Script

/-- The characters at which a line of JavaScript ends. -/
def isLineTerminator (c : Char) : Bool :=
  c == '\n' || c == '\r' || c == '\u2028' || c == '\u2029'

/-- The text stays on one line of JavaScript. -/
def OnOneLine (s : List Char) : Prop := ∀ c ∈ s, isLineTerminator c = false

instance (s : List Char) : Decidable (OnOneLine s) := List.decidableBAll _ s

theorem onOneLine_append {s t : List Char} : OnOneLine (s ++ t) ↔ OnOneLine s ∧ OnOneLine t :=
  List.forall_mem_append

theorem onOneLine_cons {c : Char} {s : List Char} :
    OnOneLine (c :: s) ↔ isLineTerminator c = false ∧ OnOneLine s :=
  List.forall_mem_cons

/-- The character that a backslash and one other character stand for. The escapes of more than two
characters and the continuation of a line do not count. -/
def singleEscape? (c : Char) : Option Char :=
  match c with
  | 'b' => some '\x08'
  | 't' => some '\t'
  | 'n' => some '\n'
  | 'v' => some '\x0b'
  | 'f' => some '\x0c'
  | 'r' => some '\r'
  | c => if c.isDigit || c == 'x' || c == 'u' || isLineTerminator c then none else some c

/-- The character that four hexadecimal digits stand for. -/
def unicodeEscape? (a b c d : Char) : Option Char :=
  match Json.unit? a b c d with
  | none => none
  | some unit => if unit.isValidChar then some (Char.ofNat unit) else none

/-- Reads a string literal from behind its opening quote to behind the closing one. -/
def readLiteral : List Char → Option (List Char × List Char)
  | [] => none
  | '\"' :: r => some ([], r)
  | '\\' :: 'u' :: a :: b :: c :: d :: r => do
    let char ← unicodeEscape? a b c d
    let (value, rest) ← readLiteral r
    return (char :: value, rest)
  | '\\' :: c :: r => do
    let char ← singleEscape? c
    let (value, rest) ← readLiteral r
    return (char :: value, rest)
  | c :: r =>
    if c = '\\' || isLineTerminator c then none
    else do
      let (value, rest) ← readLiteral r
      return (c :: value, rest)

theorem onOneLine_stringChar (c : Char) : OnOneLine (stringChar c) := by
  unfold stringChar
  by_cases h₁ : c = '\\'
  · rw [if_pos h₁]
    decide
  by_cases h₂ : c = '\"'
  · rw [if_neg h₁, if_pos h₂]
    decide
  by_cases h₃ : c = '\n'
  · rw [if_neg h₁, if_neg h₂, if_pos h₃]
    decide
  by_cases h₄ : c = '\r'
  · rw [if_neg h₁, if_neg h₂, if_neg h₃, if_pos h₄]
    decide
  by_cases h₅ : c = '\u2028'
  · rw [if_neg h₁, if_neg h₂, if_neg h₃, if_neg h₄, if_pos h₅]
    decide
  by_cases h₆ : c = '\u2029'
  · rw [if_neg h₁, if_neg h₂, if_neg h₃, if_neg h₄, if_neg h₅, if_pos h₆]
    decide
  rw [if_neg h₁, if_neg h₂, if_neg h₃, if_neg h₄, if_neg h₅, if_neg h₆]
  have hend : isLineTerminator c = false := by simp [isLineTerminator, h₃, h₄, h₅, h₆]
  exact onOneLine_cons.mpr ⟨hend, List.forall_mem_nil _⟩

/-- What is written into a literal stays on one line, whatever the text is. -/
theorem onOneLine_stringBody (s : List Char) : OnOneLine (stringBody s) := by
  intro x hx
  obtain ⟨c, -, hc⟩ := List.mem_flatMap.mp hx
  exact onOneLine_stringChar c x hc

/-- A character that is written into a literal is read as that character. -/
theorem readLiteral_stringChar (c : Char) {s value rest : List Char}
    (h : readLiteral s = some (value, rest)) :
    readLiteral (stringChar c ++ s) = some (c :: value, rest) := by
  unfold stringChar
  by_cases h₁ : c = '\\'
  · subst h₁
    simp [readLiteral, singleEscape?, isLineTerminator, h]
  by_cases h₂ : c = '\"'
  · subst h₂
    simp [readLiteral, singleEscape?, isLineTerminator, h]
  by_cases h₃ : c = '\n'
  · subst h₃
    simp [readLiteral, singleEscape?, h]
  by_cases h₄ : c = '\r'
  · subst h₄
    simp [readLiteral, singleEscape?, h]
  have h2028 : unicodeEscape? '2' '0' '2' '8' = some '\u2028' := by decide
  have h2029 : unicodeEscape? '2' '0' '2' '9' = some '\u2029' := by decide
  by_cases h₅ : c = '\u2028'
  · subst h₅
    simp [readLiteral, h2028, h]
  by_cases h₆ : c = '\u2029'
  · subst h₆
    simp [readLiteral, h2029, h]
  simp [readLiteral, isLineTerminator, h, h₁, h₂, h₃, h₄, h₅, h₆]

/-- A text that is written into a literal is read as that text, up to the quote behind it. -/
theorem readLiteral_stringBody (s rest : List Char) :
    readLiteral (stringBody s ++ '\"' :: rest) = some (s, rest) := by
  induction s with
  | nil => rfl
  | cons c s ih =>
    have hbody : stringBody (c :: s) = stringChar c ++ stringBody s := List.flatMap_cons
    rw [hbody, List.append_assoc]
    exact readLiteral_stringChar c ih

/-- A character is read in front of a literal if both can be read. -/
theorem readLiteral_behind {char : Option Char} {s value rest : List Char} :
    (do
      let c ← char
      let (value, rest) ← readLiteral s
      return (c :: value, rest)) = some (value, rest) ↔
        ∃ c v, char = some c ∧ readLiteral s = some (v, rest) ∧ value = c :: v := by
  cases char with
  | none => simp
  | some c =>
    cases hs : readLiteral s with
    | none => simp
    | some x =>
      obtain ⟨v, r⟩ := x
      constructor
      · intro h
        cases h
        exact ⟨c, v, rfl, rfl, rfl⟩
      · rintro ⟨c', v', hc, hv, rfl⟩
        cases hc
        cases hv
        rfl

/-- What stands behind a literal is not read. -/
theorem readLiteral_append {s value rest : List Char} (h : readLiteral s = some (value, rest))
    (t : List Char) : readLiteral (s ++ t) = some (value, rest ++ t) := by
  fun_induction readLiteral s generalizing value with
  | case1 => cases h
  | case2 r =>
    cases h
    rfl
  | case3 a b c d r ih =>
    obtain ⟨char, v, hchar, hr, rfl⟩ := readLiteral_behind.mp h
    simp [readLiteral, hchar, ih hr]
  | case4 c r hlong ih =>
    obtain ⟨char, v, hchar, hr, rfl⟩ := readLiteral_behind.mp h
    -- The long escape begins with a character that has no short one.
    have hu : c ≠ 'u' := by
      rintro rfl
      cases hchar
    simp [readLiteral, hu, hchar, ih hr]
  | case5 => cases h
  | case6 c r hquote hlong hpair hplain ih =>
    obtain ⟨hslash, hend⟩ : c ≠ '\\' ∧ isLineTerminator c = false := by simpa using hplain
    obtain ⟨char, v, hchar, hr, rfl⟩ := (@readLiteral_behind (some c) r value rest).mp h
    cases hchar
    simp [readLiteral, hslash, hend, ih hr]

/-- The literal of a text is read up to the quote behind it and not further, and not less far: no
beginning of what is written is a whole literal. The value is the text, and the literal stays on one
line. -/
theorem stringBody_denotes (s rest : List Char) :
    readLiteral (stringBody s ++ '\"' :: rest) = some (s, rest) ∧
      (∀ t, t <+: stringBody s → readLiteral t = none) ∧ OnOneLine (stringBody s) := by
  refine ⟨readLiteral_stringBody s rest, fun t ht => ?_, onOneLine_stringBody s⟩
  obtain ⟨u, hu⟩ := ht
  rw [Option.eq_none_iff_forall_not_mem]
  rintro ⟨value, left⟩ hread
  -- The quote behind all that is written would be left as well.
  have hmore := readLiteral_append hread (u ++ ['\"'])
  rw [← List.append_assoc, hu, readLiteral_stringBody s []] at hmore
  have hleft : [] = left ++ (u ++ ['\"']) := congrArg Prod.snd (Option.some.inj hmore)
  simp at hleft

end Userstyle.Script
