import Userstyle.Text.Blank
import Userstyle.Text.Lines

/-!
# Metadata of a script

The header of a script names the script, its namespace, its author and its homepage. The values
come from plain texts, from a configuration file or from the command line; later sources lie over
earlier ones.
-/

namespace Userstyle

open Text

/-- The namespace of a script that sets none. -/
def defaultScope : String := "userstyle"

/-- What the header of a script says about the script. -/
structure Metadata where
  /-- The name of the script. -/
  name : Option String := none
  /-- The namespace, which tells scripts of one name apart. -/
  scope : String := defaultScope
  /-- Who wrote the script. -/
  author : Option String := none
  /-- Where the script is at home. -/
  homepage : Option String := none
  deriving DecidableEq, Repr

namespace Metadata

/-- Metadata that sets nothing. -/
def empty : Metadata := {}

/-- A text, unless it is blank. -/
def unlessBlank (s : String) : Option String := if isAllBlank s.toList then none else some s

/-- Metadata from plain texts; a blank text sets nothing. -/
def ofTexts (name author homepage : String) : Metadata :=
  { name := unlessBlank name, author := unlessBlank author, homepage := unlessBlank homepage }

/-- Lays metadata over other metadata: what is set above counts. The default namespace counts as
not set. -/
def overlay (base upper : Metadata) : Metadata where
  name := upper.name <|> base.name
  scope := if upper.scope = defaultScope then base.scope else upper.scope
  author := upper.author <|> base.author
  homepage := upper.homepage <|> base.homepage

/-- Whether a character ends the line of a header value. -/
def isLineEnd (c : Char) : Bool := c == '\r' || c == '\n'

/-- A value on one line: its lines without the blanks around them, joined by spaces, blank lines
left out. -/
def oneLine (s : List Char) : List Char :=
  [' '].intercalate (((pieces isLineEnd s).map trim).filter fun piece => !piece.isEmpty)

/-- A value as the header shows it, unless it is blank. -/
def headerValue? (s : String) : Option String :=
  match oneLine s.toList with
  | [] => none
  | value => some (String.ofList value)

/-- A key with its value, if there is one to show. -/
def headerField (key : String) (value : Option String) : List (String × String) :=
  match value.bind headerValue? with
  | some shown => [(key, shown)]
  | none => []

/-- The keys and values of the header in order. Blank values are left out; the namespace is always
there. -/
def headerFields (m : Metadata) : List (String × String) :=
  headerField "name" m.name ++ [("namespace", (headerValue? m.scope).getD defaultScope)] ++
    headerField "author" m.author ++ headerField "homepage" m.homepage

end Metadata

end Userstyle
