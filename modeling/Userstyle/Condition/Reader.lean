import Userstyle.Condition
import Userstyle.Error
import Userstyle.Text.Blank
import Userstyle.Text.Size

/-!
# Reading a parameter list

A parameter list is a comma-separated list of calls. Blank characters may stand around names,
parentheses, quotes and commas. An argument is quoted, with a backslash in front of characters to
be taken literally, or it is everything up to the closing parenthesis; only `regexp` insists on
quotes.

Each reading function takes the text that is left and returns what it read with the text behind it.
-/

namespace Userstyle.Condition

open Text

/-- Why reading stopped, and the text from the place where it did. -/
structure Refusal where
  /-- What is wrong at that place. -/
  fault : ConditionFault
  /-- The text from there on. -/
  rest : List Char
  deriving DecidableEq, Repr

/-- The characters of the name of a matching function. -/
def isNameChar (c : Char) : Bool := c.isAlphanum || c == '-'

/-- Drops the backslash of every pair of a backslash and a character. A last backslash that has
nothing behind it stays. -/
def unescape : List Char → List Char
  | [] => []
  | '\\' :: c :: r => c :: unescape r
  | c :: r => c :: unescape r

/-- Reads an argument from behind its opening quote to behind the closing parenthesis. -/
def readQuoted (quote : Char) (s : List Char) : Except Refusal (List Char × List Char) :=
  match s.dropWhile (· != quote) with
  | [] => .error ⟨.unterminatedQuote, s⟩
  | _ :: after =>
    match trimStart after with
    | ')' :: rest => .ok (unescape (s.takeWhile (· != quote)), rest)
    | rest => .error ⟨.parenthesisMissing, rest⟩

/-- Reads an argument without quotes to behind the closing parenthesis. -/
def readBare (m : Matcher) (s : List Char) : Except Refusal (List Char × List Char) :=
  if m = .regexp then .error ⟨.regexpUnquoted, s⟩
  else
    match s.dropWhile (· != ')') with
    | [] => .error ⟨.parenthesisMissing, s⟩
    | _ :: rest => .ok (trim (s.takeWhile (· != ')')), rest)

/-- Reads an argument from its first character to behind the closing parenthesis. -/
def readArgument (m : Matcher) (s : List Char) : Except Refusal (List Char × List Char) :=
  match s with
  | '\"' :: r => readQuoted '\"' r
  | '\'' :: r => readQuoted '\'' r
  | _ => readBare m s

/-- Reads one call. -/
def readCall (s : List Char) : Except Refusal (Condition × List Char) :=
  let name := s.takeWhile isNameChar
  if name.isEmpty then .error ⟨.matcherExpected, s⟩
  else
    match Matcher.ofName? name with
    | none => .error ⟨.unknownMatcher (String.ofList name), s⟩
    | some m =>
      match trimStart (s.dropWhile isNameChar) with
      | '(' :: r =>
        match readArgument m (trimStart r) with
        | .error refusal => .error refusal
        | .ok (argument, rest) => .ok (⟨m, String.ofList argument⟩, rest)
      | rest => .error ⟨.argumentExpected (String.ofList name), rest⟩

theorem length_dropWhile_le (p : Char → Bool) (s : List Char) :
    (s.dropWhile p).length ≤ s.length :=
  (List.dropWhile_suffix p).length_le

theorem length_trimStart_le (s : List Char) : (trimStart s).length ≤ s.length :=
  length_dropWhile_le isBlank s

theorem length_readQuoted {quote : Char} {s argument rest : List Char}
    (h : readQuoted quote s = .ok (argument, rest)) : rest.length < s.length := by
  unfold readQuoted at h
  have hs := length_dropWhile_le (· != quote) s
  split at h
  · cases h
  · rename_i quote' after hd
    rw [hd, List.length_cons] at hs
    have ha := length_trimStart_le after
    split at h
    · rename_i rest' ht
      rw [ht, List.length_cons] at ha
      cases h
      omega
    · cases h

theorem length_readBare {m : Matcher} {s argument rest : List Char}
    (h : readBare m s = .ok (argument, rest)) : rest.length < s.length := by
  unfold readBare at h
  have hs := length_dropWhile_le (· != ')') s
  split at h
  · cases h
  · split at h
    · cases h
    · rename_i hd
      rw [hd, List.length_cons] at hs
      cases h
      omega

theorem length_readArgument {m : Matcher} {s argument rest : List Char}
    (h : readArgument m s = .ok (argument, rest)) : rest.length < s.length := by
  unfold readArgument at h
  split at h
  · have := length_readQuoted h
    simp only [List.length_cons]
    omega
  · have := length_readQuoted h
    simp only [List.length_cons]
    omega
  · exact length_readBare h

/-- A call that was read took up some of the text. -/
theorem length_readCall {s rest : List Char} {c : Condition}
    (h : readCall s = .ok (c, rest)) : rest.length < s.length := by
  unfold readCall at h
  have h₁ := length_dropWhile_le isNameChar s
  have h₂ := length_trimStart_le (s.dropWhile isNameChar)
  simp only at h
  split at h
  · cases h
  · split at h
    · cases h
    · split at h
      · rename_i r hr
        have h₃ := length_trimStart_le r
        split at h
        · cases h
        · rename_i argument rest' ha
          have h₄ := length_readArgument ha
          rw [hr, List.length_cons] at h₂
          cases h
          omega
      · cases h

/-- What follows a call: nothing, or a comma and the text of the next call. -/
def nextCall? (s : List Char) : Except Refusal (Option (List Char)) :=
  match trimStart s with
  | [] => .ok none
  | ',' :: r =>
    match trimStart r with
    | [] => .error ⟨.trailingComma, []⟩
    | rest => .ok (some rest)
  | rest => .error ⟨.commaExpected, rest⟩

/-- The text of the next call is not longer than the text before the comma. -/
theorem length_nextCall? {s rest : List Char} (h : nextCall? s = .ok (some rest)) :
    rest.length ≤ s.length := by
  unfold nextCall? at h
  have h₁ := length_trimStart_le s
  split at h
  · cases h
  · rename_i r hr
    have h₂ := length_trimStart_le r
    split at h
    · cases h
    · rw [hr, List.length_cons] at h₁
      cases h
      omega
  · cases h

/-- Reads a call and all that follow it to the end of the text. -/
def readCalls (s : List Char) : Except Refusal (List Condition) :=
  match _h : readCall s with
  | .error refusal => .error refusal
  | .ok (c, r) =>
    match _hr : nextCall? r with
    | .error refusal => .error refusal
    | .ok none => .ok [c]
    | .ok (some next) => (readCalls next).map (c :: ·)
termination_by s.length
decreasing_by
  have := length_readCall _h
  have := length_nextCall? _hr
  omega

/-- Reads a whole parameter list. -/
def readList (s : List Char) : Except Refusal (List Condition) :=
  match trimStart s with
  | [] => .error ⟨.emptyList, []⟩
  | c :: r => readCalls (c :: r)

/-- The conditions of a parameter list. An error names the byte offset at which reading stopped. -/
def ofParams (params : String) : Except Error (List Condition) :=
  match readList params.toList with
  | .ok cs => .ok cs
  | .error refusal =>
    let offset := byteLength params.toList - byteLength refusal.rest
    .error (.invalidCondition params offset refusal.fault)

end Userstyle.Condition
