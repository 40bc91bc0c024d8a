/-!
# Tokens of JSON

The tokens that a configuration file may hold: marks of structure, `null` and strings, in strict
JSON as RFC 8259 has it. Numbers and truth values are not among them. In a string a control
character must be escaped, and a numeric escape of a surrogate must be followed by the escape of
its other half.
-/

namespace Userstyle.Json

/-- The tokens of a JSON text without numbers and truth values. -/
inductive Token where
  /-- The opening bracket of an object. -/
  | objectOpen
  /-- The closing bracket of an object. -/
  | objectClose
  /-- The opening bracket of an array. -/
  | arrayOpen
  /-- The closing bracket of an array. -/
  | arrayClose
  /-- The colon between a key and its value. -/
  | colon
  /-- The comma between two members. -/
  | comma
  /-- The value `null`. -/
  | null
  /-- A string with its escapes resolved. -/
  | text (s : String)
  deriving DecidableEq, Repr

/-- The white space of JSON. -/
def isSpace (c : Char) : Bool := c == ' ' || c == '\t' || c == '\n' || c == '\r'

/-- The value of a hexadecimal digit. -/
def hexDigit? (c : Char) : Option Nat :=
  if '0' ≤ c ∧ c ≤ '9' then some (c.toNat - '0'.toNat)
  else if 'a' ≤ c ∧ c ≤ 'f' then some (c.toNat - 'a'.toNat + 10)
  else if 'A' ≤ c ∧ c ≤ 'F' then some (c.toNat - 'A'.toNat + 10)
  else none

/-- The UTF-16 unit that four hexadecimal digits stand for. -/
def unit? (a b c d : Char) : Option Nat := do
  let a ← hexDigit? a
  let b ← hexDigit? b
  let c ← hexDigit? c
  let d ← hexDigit? d
  return ((a * 16 + b) * 16 + c) * 16 + d

/-- Whether a unit is the first half of a surrogate pair. -/
def isLead (unit : Nat) : Bool := 0xD800 ≤ unit && unit < 0xDC00

/-- Whether a unit is the second half of a surrogate pair. -/
def isTrail (unit : Nat) : Bool := 0xDC00 ≤ unit && unit < 0xE000

/-- The character of a surrogate pair. -/
def pairChar (lead trail : Nat) : Char :=
  Char.ofNat (0x10000 + (lead - 0xD800) * 0x400 + (trail - 0xDC00))

/-- The character that a short escape stands for. -/
def shortEscape? (c : Char) : Option Char :=
  if c = '\"' ∨ c = '\\' ∨ c = '/' then some c
  else if c = 'b' then some '\x08'
  else if c = 'f' then some '\x0c'
  else if c = 'n' then some '\n'
  else if c = 'r' then some '\r'
  else if c = 't' then some '\t'
  else none

/-- Puts a character in front of what was read. -/
def consRead (c : Char) (read : Option (List Char × List Char)) :
    Option (List Char × List Char) :=
  read.map fun (s, rest) => (c :: s, rest)

/-- Reads a string from behind its opening quote to behind its closing quote. -/
def readString : List Char → Option (List Char × List Char)
  | [] => none
  | '\"' :: r => some ([], r)
  | '\\' :: 'u' :: a :: b :: c :: d :: r =>
    match unit? a b c d with
    | none => none
    | some unit =>
      if isTrail unit then none
      else if isLead unit then
        match r with
        | '\\' :: 'u' :: e :: f :: g :: h :: r' =>
          match unit? e f g h with
          | none => none
          | some trail => if isTrail trail then consRead (pairChar unit trail) (readString r')
              else none
        | _ => none
      else consRead (Char.ofNat unit) (readString r)
  | '\\' :: c :: r =>
    match shortEscape? c with
    | none => none
    | some d => consRead d (readString r)
  | c :: r => if c = '\\' ∨ c.toNat < 0x20 then none else consRead c (readString r)

/-- A bound on the text behind what was read holds with a character in front as well. -/
theorem length_of_consRead {c : Char} {read : Option (List Char × List Char)}
    {s rest : List Char} {n : Nat} (h : consRead c read = some (s, rest))
    (ih : ∀ s' rest', read = some (s', rest') → rest'.length < n) : rest.length < n := by
  cases read with
  | none => cases h
  | some p =>
    obtain ⟨s', rest'⟩ := p
    cases h
    exact ih _ _ rfl

theorem length_readString {s text rest : List Char} (h : readString s = some (text, rest)) :
    rest.length < s.length := by
  fun_induction readString s generalizing text rest with
  | case1 => cases h
  | case2 r => cases h; simp
  | case3 => cases h
  | case4 => cases h
  | case5 => cases h
  | case6 a b c d _ _ _ _ e f g h' r' trail _ _ ih =>
    have := length_of_consRead h fun s' rest' hr => ih hr
    simp only [List.length_cons]
    omega
  | case7 => cases h
  | case8 => cases h
  | case9 a b c d r _ _ _ _ ih =>
    have := length_of_consRead h fun s' rest' hr => ih hr
    simp only [List.length_cons]
    omega
  | case10 => cases h
  | case11 c r _ _ _ ih =>
    have := length_of_consRead h fun s' rest' hr => ih hr
    simp only [List.length_cons]
    omega
  | case12 => cases h
  | case13 c r _ _ _ _ ih =>
    have := length_of_consRead h fun s' rest' hr => ih hr
    simp only [List.length_cons]
    omega

/-- Reads the token at the beginning of a text. -/
def Token.read : List Char → Option (Token × List Char)
  | '\x7b' :: r => some (.objectOpen, r)
  | '\x7d' :: r => some (.objectClose, r)
  | '[' :: r => some (.arrayOpen, r)
  | ']' :: r => some (.arrayClose, r)
  | ':' :: r => some (.colon, r)
  | ',' :: r => some (.comma, r)
  | 'n' :: 'u' :: 'l' :: 'l' :: r => some (.null, r)
  | '\"' :: r => (readString r).map fun (s, rest) => (.text (String.ofList s), rest)
  | _ => none

/-- A token that was read took up some of the text. -/
theorem Token.length_read {s rest : List Char} {t : Token}
    (h : Token.read s = some (t, rest)) : rest.length < s.length := by
  unfold Token.read at h
  split at h
  case h_8 r =>
    obtain ⟨⟨text, rest'⟩, hr, he⟩ := Option.map_eq_some_iff.1 h
    cases he
    have := length_readString hr
    simp only [List.length_cons]
    omega
  all_goals cases h
  all_goals simp only [List.length_cons]; omega

/-- The tokens of a whole text, unless something in it is not a token. -/
def tokens (s : List Char) : Option (List Token) :=
  match _h : s.dropWhile isSpace with
  | [] => some []
  | c :: r =>
    match _ht : Token.read (c :: r) with
    | none => none
    | some (t, rest) => (tokens rest).map (t :: ·)
termination_by s.length
decreasing_by
  have h₁ := Token.length_read _ht
  have h₂ := (List.dropWhile_suffix (l := s) isSpace).length_le
  rw [_h] at h₂
  omega

end Userstyle.Json
