import Userstyle.Css.Token
import Userstyle.Source.Place

/-!
# Lexemes

A lexeme is a token with the characters that make it up. The functions below measure how many
characters a construct takes at the beginning of a text, as CSS Syntax Level 3 lays it down; `scan`
puts them together, and `lexemes` cuts a whole text. No character is left out, so the lexemes of a
text put together are the text.

A string, comment or unquoted URL that is cut by the end of the text counts as closed there.
-/

namespace Userstyle.Css

open Source Text

/-! ## Characters -/

/-- The characters that end a line. -/
def isNewline (c : Char) : Bool := c == '\n' || c == '\r' || c == '\x0c'

/-- The characters of white space. -/
def isSpace (c : Char) : Bool := c == ' ' || c == '\t' || isNewline c

/-- The hexadecimal digits. -/
def isHexDigit (c : Char) : Bool :=
  c.isDigit || ('a' ≤ c && c ≤ 'f') || ('A' ≤ c && c ≤ 'F')

/-- The characters that a name may begin with. -/
def isNameStart (c : Char) : Bool := c.isAlpha || c == '_' || c == '\x00' || 0x80 ≤ c.toNat

/-- The characters that a name may go on with. -/
def isNameChar (c : Char) : Bool := isNameStart c || c.isDigit || c == '-'

/-- The characters that an unquoted URL must not hold. -/
def isBarredFromUrl (c : Char) : Bool :=
  c == '\"' || c == '\'' || c == '(' || c == '\x0b' || c == '\x7f' ||
    ('\x01' ≤ c && c ≤ '\x08') || ('\x0e' ≤ c && c ≤ '\x1f')

/-! ## Escapes and names -/

/-- Whether a text begins with the end of a line. -/
def beginsWithNewline : List Char → Bool
  | [] => false
  | c :: _ => isNewline c

/-- Whether a text begins with a digit. -/
def beginsWithDigit : List Char → Bool
  | [] => false
  | c :: _ => c.isDigit

/-- The length of the end of a line at the beginning of a text. -/
def newlineLength : List Char → Nat
  | '\r' :: '\n' :: _ => 2
  | c :: _ => if isNewline c then 1 else 0
  | [] => 0

/-- The digits of a numeric escape behind its backslash, at most six. -/
def escapeDigits (s : List Char) : List Char := (s.take 6).takeWhile isHexDigit

/-- The length of an escape behind its backslash. Digits take one white space with them. -/
def escapeLength (s : List Char) : Nat :=
  let digits := (escapeDigits s).length
  if digits = 0 then (if s.isEmpty then 0 else 1)
  else
    match s.drop digits with
    | [] => digits
    | c :: r => if isNewline c then digits + newlineLength (c :: r)
        else if isSpace c then digits + 1 else digits

/-- The character that stands for one that cannot be shown. -/
def replacement : Char := '\ufffd'

/-- The value of a hexadecimal digit. -/
def hexValue (c : Char) : Nat :=
  if c.isDigit then c.toNat - '0'.toNat else c.toLower.toNat - 'a'.toNat + 10

/-- The character with a code point, or the replacement if there is none or it is NUL. -/
def charOfCode (code : Nat) : Char :=
  if code ≠ 0 ∧ code.isValidChar then Char.ofNat code else replacement

/-- The character that an escape stands for, given the text behind its backslash. -/
def escapedChar (s : List Char) : Char :=
  match escapeDigits s, s with
  | [], [] => replacement
  | [], c :: _ => if c = '\x00' then replacement else c
  | digits, _ => charOfCode (digits.foldl (fun n c => 16 * n + hexValue c) 0)

/-- The length of the name at the beginning of a text. -/
def nameLength : List Char → Nat
  | [] => 0
  | c :: r =>
    if c = '\\' then
      if beginsWithNewline r then 0
      else 1 + escapeLength r + nameLength (r.drop (escapeLength r))
    else if isNameChar c then 1 + nameLength r
    else 0
termination_by s => s.length
decreasing_by all_goals simp; try omega

/-- A name with its escapes resolved. -/
def decodeName : List Char → List Char
  | [] => []
  | c :: r =>
    if c = '\\' then escapedChar r :: decodeName (r.drop (escapeLength r))
    else (if c = '\x00' then replacement else c) :: decodeName r
termination_by s => s.length
decreasing_by all_goals simp; try omega

/-- Whether a text begins with a name. A hyphen with a backslash behind it always does. -/
def beginsWithName : List Char → Bool
  | [] => false
  | '\\' :: r => !beginsWithNewline r
  | '-' :: c :: _ => isNameStart c || c == '-' || c == '\\'
  | c :: _ => isNameStart c

/-! ## Numbers -/

/-- How many digits a text begins with. -/
def digitCount (s : List Char) : Nat := (s.takeWhile Char.isDigit).length

/-- The length of the sign at the beginning of a text. -/
def signLength : List Char → Nat
  | '+' :: _ => 1
  | '-' :: _ => 1
  | _ => 0

/-- The length of a decimal point with digits behind it. -/
def fractionLength : List Char → Nat
  | '.' :: r => if beginsWithDigit r then 1 + digitCount r else 0
  | _ => 0

/-- The length of an exponent. -/
def exponentLength : List Char → Nat
  | [] => 0
  | c :: r =>
    let digits := r.drop (signLength r)
    if (c = 'e' ∨ c = 'E') ∧ beginsWithDigit digits then 1 + signLength r + digitCount digits
    else 0

/-- The length of a percent sign or the name of a unit. -/
def unitNameLength (s : List Char) : Nat :=
  match s with
  | '%' :: _ => 1
  | _ => if beginsWithName s then nameLength s else 0

/-- Whether a text begins with a number: a digit or a decimal point with a digit behind it, with or
without a sign. -/
def beginsWithNumber (s : List Char) : Bool :=
  match s.drop (signLength s) with
  | '.' :: r => beginsWithDigit r
  | r => beginsWithDigit r

/-- The length of a number with its unit. -/
def numberLength (s : List Char) : Nat :=
  let whole := signLength s + digitCount (s.drop (signLength s))
  let fraction := whole + fractionLength (s.drop whole)
  let exponent := fraction + exponentLength (s.drop fraction)
  exponent + unitNameLength (s.drop exponent)

/-! ## Comments, strings and URLs -/

/-- The length of a comment behind its opening mark, the closing mark included. -/
def commentLength : List Char → Nat
  | [] => 0
  | '*' :: '/' :: _ => 2
  | _ :: r => 1 + commentLength r

/-- The length of a quoted string behind its opening quote, the closing quote included, and whether
it is whole. A string that is not ends before the end of the line. -/
def stringLength (quote : Char) : List Char → Bool × Nat
  | [] => (true, 0)
  | c :: r =>
    if c = quote then (true, 1)
    else if isNewline c then (false, 0)
    else if c = '\\' then
      let escaped := if beginsWithNewline r then newlineLength r else escapeLength r
      let (whole, n) := stringLength quote (r.drop escaped)
      (whole, 1 + escaped + n)
    else
      let (whole, n) := stringLength quote r
      (whole, 1 + n)
termination_by s => s.length
decreasing_by all_goals simp; try omega

/-- The length of what is left of a URL that has gone wrong, the closing parenthesis included. A
backslash keeps a parenthesis or a backslash from counting. -/
def badUrlLength : List Char → Nat
  | [] => 0
  | ')' :: _ => 1
  | '\\' :: ')' :: r => 2 + badUrlLength r
  | '\\' :: '\\' :: r => 2 + badUrlLength r
  | _ :: r => 1 + badUrlLength r

/-- The length of the end of an unquoted URL from white space on, and whether it is whole: only the
closing parenthesis may follow the white space. -/
def urlEndLength (s : List Char) : Bool × Nat :=
  let spaces := (s.takeWhile isSpace).length
  match s.drop spaces with
  | [] => (true, spaces)
  | ')' :: _ => (true, spaces + 1)
  | _ :: r => (false, spaces + 1 + badUrlLength r)

/-- The length of an unquoted URL from its first character on, the closing parenthesis included,
and whether it is whole. -/
def urlLength : List Char → Bool × Nat
  | [] => (true, 0)
  | c :: r =>
    if c = ')' then (true, 1)
    else if isSpace c then urlEndLength (c :: r)
    else if isBarredFromUrl c then (false, 1 + badUrlLength r)
    else if c = '\\' then
      if beginsWithNewline r then (false, 1 + badUrlLength r)
      else
        let (whole, n) := urlLength (r.drop (escapeLength r))
        (whole, 1 + escapeLength r + n)
    else
      let (whole, n) := urlLength r
      (whole, 1 + n)
termination_by s => s.length
decreasing_by all_goals simp; try omega

/-! ## Tokens -/

/-- Whether two names are the same apart from upper and lower case. -/
def sameName (a b : List Char) : Bool := a.map Char.toLower == b.map Char.toLower

/-- The token that begins with a name, and its length. A name with a parenthesis behind it is a
function; `url(` begins an unquoted URL unless a quote follows, white space aside. -/
def scanName (s : List Char) : Token × Nat :=
  let name := nameLength s
  match s.drop name with
  | '(' :: r =>
    if sameName (decodeName (s.take name)) "url".toList then
      let spaces := (r.takeWhile isSpace).length
      match r.drop spaces with
      | '\"' :: _ => (.opening .round, name + 1)
      | '\'' :: _ => (.opening .round, name + 1)
      | url =>
        let (whole, n) := urlLength url
        (if whole then .plain else .badUrl, name + 1 + spaces + n)
    else (.opening .round, name + 1)
  | _ => (.plain, name)

/-- The token that begins with a quote, and its length. -/
def scanString (quote : Char) (r : List Char) : Token × Nat :=
  let (whole, n) := stringLength quote r
  (if whole then .plain else .badString, 1 + n)

/-- The token that begins with a character that none of the other rules is for, and its length:
an operator with an equals sign, a number, a name, or the character alone. -/
def scanOther (c : Char) (r : List Char) : Token × Nat :=
  if c ∈ ['$', '*', '^', '|', '~'] ∧ r.head? = some '=' then (.plain, 2)
  else if beginsWithNumber (c :: r) then (.plain, numberLength (c :: r))
  else if beginsWithName (c :: r) then scanName (c :: r)
  else (.plain, 1)

/-- The first token of a text, and how many characters it takes. -/
def scan : List Char → Token × Nat
  | [] => (.plain, 0)
  | '\"' :: r => scanString '\"' r
  | '\'' :: r => scanString '\'' r
  | '(' :: _ => (.opening .round, 1)
  | '[' :: _ => (.opening .square, 1)
  | '\x7b' :: _ => (.opening .curly, 1)
  | ')' :: _ => (.closing .round, 1)
  | ']' :: _ => (.closing .square, 1)
  | '\x7d' :: _ => (.closing .curly, 1)
  | ';' :: _ => (.semicolon, 1)
  | '/' :: '*' :: r => (.comment, 2 + commentLength r)
  | '<' :: '!' :: '-' :: '-' :: _ => (.commentOpen, 4)
  | '-' :: '-' :: '>' :: _ => (.commentClose, 3)
  | '#' :: r =>
    if beginsWithName r || beginsWithDigit r || r.head? == some '-' then
      (.plain, 1 + nameLength r)
    else (.plain, 1)
  | '@' :: r =>
    if beginsWithName r then
      (.atKeyword (String.ofList (decodeName (r.take (nameLength r)))), 1 + nameLength r)
    else (.plain, 1)
  | c :: r =>
    if isSpace c then (.space, 1 + (r.takeWhile isSpace).length) else scanOther c r

/-! ## Lexemes -/

/-- A token with the characters that make it up. -/
structure Lexeme where
  /-- What kind of token it is. -/
  token : Token
  /-- Its characters. -/
  text : List Char
  /-- The place where it begins. -/
  start : Place
  /-- The place behind it. -/
  stop : Place
  deriving DecidableEq, Repr

/-- The byte offset of the last character of a lexeme. -/
def Lexeme.lastOffset (l : Lexeme) : Nat := l.start.offset + byteLength l.text.dropLast

/-- The lexeme at a place, unless the text ends there. It has at least one character. -/
def Lexeme.at? (p : Place) : Option Lexeme :=
  match p.rest with
  | [] => none
  | c :: r =>
    let (token, n) := scan (c :: r)
    let length := max n 1
    some ⟨token, (c :: r).take length, p, p.advance length⟩

/-- The text gets shorter with every lexeme. -/
theorem Lexeme.length_stop {p : Place} {l : Lexeme} (h : Lexeme.at? p = some l) :
    l.stop.rest.length < p.rest.length := by
  unfold Lexeme.at? at h
  split at h
  · cases h
  · rename_i c r hr
    simp only [Option.some.injEq] at h
    subst h
    simp only [Place.advance, hr, List.length_drop, List.length_cons]
    omega

/-- The lexemes from a place to the end of the text. -/
def lexemes (p : Place) : List Lexeme :=
  match _h : Lexeme.at? p with
  | none => []
  | some l => l :: lexemes l.stop
termination_by p.rest.length
decreasing_by exact Lexeme.length_stop _h

end Userstyle.Css
