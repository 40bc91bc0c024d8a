import Userstyle.Script.Literal
import Userstyle.Text.Blank
import Userstyle.Text.Lines

/-!
# Writing statements

A writer gathers the lines of the generated script at a depth of indentation. `Writer.css` writes
style text as statements that append it to the variable `cssText`, line by line and without the
blank lines. A line keeps its line feed inside the string literal.
-/

namespace Userstyle.Script

open Text

/-- One step of indentation. -/
def indentation : String := "    "

/-- The variable in which the generated script gathers the style text. -/
def accumulator : String := "cssText"

/-- The indentation of a depth. -/
def indentOf : Nat → String
  | 0 => ""
  | depth + 1 => indentation ++ indentOf depth

/-- The statement that appends a text to the gathered style text. -/
def appendStatement (text : List Char) : String :=
  accumulator ++ " += \"" ++ String.ofList (stringBody text) ++ "\";"

/-- The statements that append the lines of a style text, leaving out blank ones. -/
def appendStatements (css : List Char) : List String :=
  ((lines css).filter fun line => !isAllBlank line).map appendStatement

/-- The lines written so far and the depth at which the next one goes. -/
structure Writer where
  /-- The lines written so far. -/
  written : List String
  /-- The depth of indentation. -/
  depth : Nat
  deriving DecidableEq, Repr

namespace Writer

/-- A writer with nothing written. -/
def start (depth : Nat) : Writer := ⟨[], depth⟩

/-- Writes lines at the current depth. -/
def lines (w : Writer) (ls : List String) : Writer :=
  { w with written := w.written ++ ls.map (indentOf w.depth ++ ·) }

/-- Writes one line at the current depth. -/
def line (w : Writer) (l : String) : Writer := w.lines [l]

/-- Goes one step deeper. -/
def indent (w : Writer) : Writer := { w with depth := w.depth + 1 }

/-- Goes one step back, but not beyond the margin. -/
def outdent (w : Writer) : Writer := { w with depth := w.depth - 1 }

/-- Writes the statements that append a style text. -/
def css (w : Writer) (text : List Char) : Writer := w.lines (appendStatements text)

end Writer

end Userstyle.Script
