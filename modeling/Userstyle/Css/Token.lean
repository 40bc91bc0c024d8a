/-!
# Tokens

The tokens of CSS Syntax Level 3, told apart as far as splitting a style sheet into rules needs it.
A function counts as its opening parenthesis, and everything that is neither a mark of structure
nor an error is plain.
-/

namespace Userstyle.Css

/-- The three kinds of brackets. -/
inductive Bracket where
  /-- Parentheses. -/
  | round
  /-- Square brackets. -/
  | square
  /-- Curly brackets. -/
  | curly
  deriving DecidableEq, Repr

/-- The character that closes a bracket. -/
def Bracket.closer : Bracket → Char
  | .round => ')'
  | .square => ']'
  | .curly => '\x7d'

/-- The tokens of a style sheet. -/
inductive Token where
  /-- A run of white space. -/
  | space
  /-- A comment. -/
  | comment
  /-- The mark that opens an HTML comment. -/
  | commentOpen
  /-- The mark that closes an HTML comment. -/
  | commentClose
  /-- An at-keyword; the name is given without the sign and with its escapes resolved. -/
  | atKeyword (name : String)
  /-- A semicolon. -/
  | semicolon
  /-- An opening bracket, or the name of a function with its parenthesis. -/
  | opening (b : Bracket)
  /-- A closing bracket. -/
  | closing (b : Bracket)
  /-- A quoted string cut by the end of its line. -/
  | badString
  /-- An unquoted `url(...)` with a character that it must not hold. -/
  | badUrl
  /-- Any other token. -/
  | plain
  deriving DecidableEq, Repr

end Userstyle.Css
