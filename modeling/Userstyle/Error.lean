/-!
# Errors

Everything that can stop a conversion, by cause. `Error.message` is the text shown to the user.
-/

namespace Userstyle

/-- What is wrong with the rules of a style sheet. -/
inductive SyntaxIssue where
  /-- A closing bracket with nothing to close. -/
  | strayToken (c : Char)
  /-- A semicolon where a rule must have its block. -/
  | unexpectedSemicolon
  /-- The text or the enclosing block ends where a rule must have its block. -/
  | missingBlock
  /-- The text ends inside a block. -/
  | unclosedBlock
  /-- A quoted string is cut by the end of its line. -/
  | badString
  /-- An unquoted `url(...)` holds a character that it must not hold. -/
  | badUrl
  deriving DecidableEq, Repr

/-- The wording of a syntax issue. -/
def SyntaxIssue.message : SyntaxIssue → String
  | .strayToken c => "unexpected '" ++ c.toString ++ "'"
  | .unexpectedSemicolon => "unexpected ';' before rule block"
  | .missingBlock => "expected '\x7b' before end of input"
  | .unclosedBlock => "unclosed block"
  | .badString => "unterminated string"
  | .badUrl => "malformed url()"

/-- What is wrong with the parameter list of an `@-moz-document` rule. -/
inductive ConditionFault where
  /-- The list is blank. -/
  | emptyList
  /-- Two conditions without a comma between them. -/
  | commaExpected
  /-- Nothing follows a comma. -/
  | trailingComma
  /-- A condition does not begin with a name. -/
  | matcherExpected
  /-- The name is not that of a matcher. -/
  | unknownMatcher (name : String)
  /-- No parenthesis follows the name of a matcher. -/
  | argumentExpected (name : String)
  /-- A quoted argument has no closing quote. -/
  | unterminatedQuote
  /-- The argument is not followed by a closing parenthesis. -/
  | parenthesisMissing
  /-- The argument of `regexp` has no quotes. -/
  | regexpUnquoted
  deriving DecidableEq, Repr

/-- The wording of a fault in a parameter list. -/
def ConditionFault.message : ConditionFault → String
  | .emptyList => "empty condition list"
  | .commaExpected => "expected ',' between conditions"
  | .trailingComma => "trailing ','"
  | .matcherExpected => "expected a matching function"
  | .unknownMatcher name => "unknown matching function `" ++ name ++ "`"
  | .argumentExpected name => "expected '(' after `" ++ name ++ "`"
  | .unterminatedQuote => "unterminated quoted argument"
  | .parenthesisMissing => "missing closing parenthesis"
  | .regexpUnquoted => "regexp() argument must be quoted"

/-- Everything that can stop a conversion. -/
inductive Error where
  /-- The style sheet cannot be split into rules. Line and column count from one. -/
  | invalidCss (issue : SyntaxIssue) (line column : Nat)
  /-- A parameter list cannot be read. The offset counts bytes of the list. -/
  | invalidCondition (params : String) (offset : Nat) (fault : ConditionFault)
  /-- A position that the text does not have. Line and column count from zero. -/
  | outOfRange (line column : Nat)
  /-- A position on a line before the one that was reached. Lines count from zero. -/
  | notMonotonic (requested current : Nat)
  /-- A builder was given a second style sheet. -/
  | alreadyConsumed
  /-- A script was asked of a builder that has no style sheet. -/
  | notReady
  /-- A second script was asked of a builder. -/
  | alreadyBuilt
  deriving DecidableEq, Repr

/-- The text of an error. -/
def Error.message : Error → String
  | .invalidCss issue line column =>
    "Invalid CSS at " ++ toString line ++ ":" ++ toString column ++ ": " ++ issue.message
  | .invalidCondition params offset fault =>
    "Invalid userstyle condition `" ++ params ++ "` at offset " ++ toString offset ++ ": " ++
      fault.message
  | .outOfRange line column =>
    "Source position " ++ toString line ++ ":" ++ toString column ++ " is outside the input text"
  | .notMonotonic requested current =>
    "Source line " ++ toString requested ++ " requested after line " ++ toString current ++
      " was resolved"
  | .alreadyConsumed => "Builder has already consumed a stylesheet"
  | .notReady => "Builder has not consumed a stylesheet yet"
  | .alreadyBuilt => "Userscript has already been built"

end Userstyle
