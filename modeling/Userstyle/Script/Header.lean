import Userstyle.Metadata

/-!
# Header of a script

The header is a block of comment lines between two marks. Each line holds a key in a column of
fixed width and its value.
-/

namespace Userstyle.Script

/-- The mark that opens the header. -/
def headerOpen : String := "// ==UserScript=="

/-- The mark that closes the header. -/
def headerClose : String := "// ==/UserScript=="

/-- The width of the column of keys, with the sign in front of the key. -/
def keyWidth : Nat := 15

/-- The function that the script needs the right to call. -/
def styleGrant : String := "GM_addStyle"

/-- A key in its column. -/
def keyColumn (key : String) : String := ("@" ++ key).pushn ' ' (keyWidth - (key.length + 1))

/-- A line of the header. -/
def headerLine (key value : String) : String := "// " ++ keyColumn key ++ value

/-- The lines of the header that come from the metadata. -/
def metadataLines (m : Metadata) : List String :=
  m.headerFields.map fun field => headerLine field.1 field.2

/-- The whole header. -/
def headerLines (m : Metadata) (patterns : List String) : List String :=
  [headerOpen] ++ metadataLines m ++
    [headerLine "run-at" "document-start", headerLine "grant" styleGrant] ++
    patterns.map (headerLine "match") ++ [headerClose]

end Userstyle.Script
