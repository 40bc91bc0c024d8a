/-!
# Literals of the generated script

Texts from the style sheet go into the script inside string literals and regular-expression
literals. The functions here write the part between the delimiters.
-/

namespace Userstyle.Script

/-- A character inside a double-quoted string literal. The two Unicode line terminators are
escaped like the line feed and the carriage return, so a literal stays on one line. -/
def stringChar (c : Char) : List Char :=
  if c = '\\' then ['\\', '\\']
  else if c = '\"' then ['\\', '\"']
  else if c = '\n' then ['\\', 'n']
  else if c = '\r' then ['\\', 'r']
  else if c = '\u2028' then ['\\', 'u', '2', '0', '2', '8']
  else if c = '\u2029' then ['\\', 'u', '2', '0', '2', '9']
  else [c]

/-- A text inside a double-quoted string literal. -/
def stringBody (s : List Char) : List Char := s.flatMap stringChar

/-- The source of a regular expression inside a literal: a slash gets a backslash unless it has
one already. A backslash and the character behind it are kept together as they are. -/
def regexBody : List Char → List Char
  | [] => []
  | '\\' :: c :: r => '\\' :: c :: regexBody r
  | c :: r => if c = '/' then '\\' :: c :: regexBody r else c :: regexBody r

/-- A host name as the source of a regular expression: its dots get a backslash. -/
def hostSource (s : List Char) : List Char :=
  s.flatMap fun c => if c = '.' then ['\\', c] else [c]

end Userstyle.Script
