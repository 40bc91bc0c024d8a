import Userstyle.Css.Stylesheet
import Userstyle.Script.Writer
import Userstyle.Targeting

/-!
# Programs

A program is the middle part of the generated script together with the match patterns of the style
sheet. Nodes are copied from the style sheet as they are, in their order. What stands inside an
`@-moz-document` block is copied into a conditional on the checks of its conditions.
-/

namespace Userstyle.Script

open Css Source

/-- The statements for a style sheet, and where they are to run. -/
structure Program where
  /-- The statements, as lines. -/
  statements : List String
  /-- The match patterns and diagnostics of the whole style sheet. -/
  targeting : Targeting
  deriving DecidableEq, Repr

/-- A program that is being written. -/
structure Draft where
  /-- The statements written so far. -/
  writer : Writer
  /-- The line of the style sheet that was copied last. -/
  cursor : LineCursor
  /-- The conditions read so far. -/
  targeting : Targeting

/-- The checks of conditions, one on a line, all but the last followed by the operator. -/
def checkLines : List Condition → List String
  | [] => []
  | [c] => [c.check]
  | c :: cs => (c.check ++ " ||") :: checkLines cs

namespace Draft

/-- Nothing written yet, at the beginning of a style sheet. -/
def start (css : List Char) : Draft := ⟨.start 1, .start css, .empty⟩

/-- Cuts a stretch out of the style sheet. -/
def cut (d : Draft) (span : Span Position) : Logged (List Char × Draft) :=
  match d.cursor.slice span with
  | (.ok text, cursor) => pure (text, { d with cursor })
  | (.error e, _) => .ofExcept (.error e)

/-- Copies a stretch of the style sheet. -/
def copy (d : Draft) (span : Span Position) : Logged Draft := do
  let (text, d) ← d.cut span
  return { d with writer := d.writer.css text }

/-- Copies a list of nodes with everything between them. -/
def copyAll (d : Draft) (nodes : List (Node Position)) : Logged Draft :=
  match nodes.head?, nodes.getLast? with
  | some first, some last => d.copy ⟨first.span.first, last.span.last⟩
  | _, _ => return d

/-- Writes lines before the copied text of a conditional. -/
def openGuard (d : Draft) (cs : List Condition) : Draft :=
  let checks := ((d.writer.line "if (").indent.lines (checkLines cs)).outdent
  { d with writer := (checks.line ") \x7b").indent }

/-- Writes the line behind the copied text of a conditional. -/
def closeGuard (d : Draft) : Draft := { d with writer := d.writer.outdent.line "\x7d" }

/-- Adds the rules of an `@-moz-document` block, to be appended where its conditions hold. -/
def addDocument (d : Draft) (params : String) (children : List (Node Position)) :
    Logged Draft := do
  let (cs, targeting) ← d.targeting.read params
  let d ← (openGuard { d with targeting } cs).copyAll children
  return d.closeGuard

/-- Adds a top-level node. -/
def addNode (d : Draft) (node : Node Position) : Logged Draft :=
  match node with
  | .atRule name params children span =>
    if isNamespaceName name then do
      .record (.namespaceRule span.first.lineNumber)
      d.copy span
    else if isDocumentName name then do
      .record (.documentRule span.first.lineNumber children.length)
      d.addDocument params children
    else d.copy span
  | .rule span => d.copy span
  | .comment span => d.copy span

/-- Adds top-level nodes one after the other. -/
def addNodes (d : Draft) : List (Node Position) → Logged Draft
  | [] => return d
  | node :: nodes => do
    let d ← d.addNode node
    d.addNodes nodes

end Draft

/-- The program of a style sheet. A byte-order mark at its beginning does not count. -/
def compile (css : String) : Logged Program := do
  let css := withoutMark css
  let nodes ← parseLogged css
  let draft ← (Draft.start css.toList).addNodes nodes
  return ⟨draft.writer.written, draft.targeting⟩

end Userstyle.Script
