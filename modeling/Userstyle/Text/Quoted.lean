import Userstyle.Text.Graphic

/-!
# Quoted texts

Messages quote a text in double quotes on one line: the quote and the backslash get a backslash,
line feed, carriage return, tab and NUL have short forms, and a character that is not graphic is
shown by its code point in hexadecimal.
-/

namespace Userstyle.Text

/-- A character by its code point, in lower-case hexadecimal without leading zeros. -/
def codePointEscape (c : Char) : List Char :=
  ['\\', 'u', '\x7b'] ++ Nat.toDigits 16 c.toNat ++ ['\x7d']

/-- How a character is shown inside double quotes. -/
def quotedChar (c : Char) : List Char :=
  if c = '\"' then ['\\', '\"']
  else if c = '\\' then ['\\', '\\']
  else if c = '\n' then ['\\', 'n']
  else if c = '\r' then ['\\', 'r']
  else if c = '\t' then ['\\', 't']
  else if c = '\x00' then ['\\', '0']
  else if isGraphic c then [c]
  else codePointEscape c

/-- A text in double quotes. -/
def quoted (s : List Char) : List Char :=
  ['\"'] ++ s.flatMap quotedChar ++ ['\"']

end Userstyle.Text
