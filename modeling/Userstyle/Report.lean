import Userstyle.Css.Stylesheet
import Userstyle.Json.Value
import Userstyle.Targeting

/-!
# Reports

A report sums up a style sheet: how many nodes of each kind it has at its top level, what each of
its `@-moz-document` rules says, and which match patterns its script would get. It is shown as text
or as JSON.
-/

namespace Userstyle

open Css Source

/-- What a report says about an `@-moz-document` rule. -/
structure DocumentSummary where
  /-- The line on which the rule begins, from one. -/
  line : Nat
  /-- The parameters of the rule. -/
  params : String
  /-- The check that decides whether its block applies. -/
  expression : String
  /-- How many rules and at-rules its block holds. -/
  rules : Nat
  deriving DecidableEq, Repr

/-- A summary of a style sheet. -/
structure Report where
  /-- How many rules there are. -/
  rules : Nat := 0
  /-- How many at-rules there are. -/
  atRules : Nat := 0
  /-- How many comments there are. -/
  comments : Nat := 0
  /-- How many of the at-rules are `@namespace` rules. -/
  namespaces : Nat := 0
  /-- The `@-moz-document` rules in order. -/
  documents : List DocumentSummary := []
  /-- Where a script for the style sheet is to run. -/
  targeting : Targeting := .empty
  deriving DecidableEq, Repr

namespace Report

/-- A report on nothing. -/
def empty : Report := {}

/-- The summary of an `@-moz-document` rule with these conditions. -/
def documentSummary (params : String) (children : List (Node Position)) (span : Span Position)
    (cs : List Condition) : DocumentSummary where
  line := span.first.lineNumber
  params := params
  expression := Condition.disjunction cs
  rules := (children.filter fun child => !child.isComment).length

/-- Takes a top-level node into account. -/
def add (r : Report) (node : Node Position) : Logged Report :=
  match node with
  | .rule _ => return { r with rules := r.rules + 1 }
  | .comment _ => return { r with comments := r.comments + 1 }
  | .atRule name params children span =>
    let r := { r with atRules := r.atRules + 1 }
    if isNamespaceName name then return { r with namespaces := r.namespaces + 1 }
    else if isDocumentName name then do
      let (cs, targeting) ← r.targeting.read params
      let summary := documentSummary params children span cs
      return { r with documents := r.documents ++ [summary], targeting }
    else return r

/-- Takes top-level nodes into account one after the other. -/
def addAll (r : Report) : List (Node Position) → Logged Report
  | [] => return r
  | node :: nodes => do
    let r ← r.add node
    r.addAll nodes

end Report

/-- The report on a style sheet. A byte-order mark at its beginning does not count. -/
def inspect (css : String) : Logged Report := do
  let nodes ← parseLogged (withoutMark css)
  Report.empty.addAll nodes

namespace Report

/-! ## Reports as text -/

/-- The lines about an `@-moz-document` rule. -/
def documentLines (d : DocumentSummary) : List String :=
  ["@-moz-document on line " ++ toString d.line ++ " (" ++ toString d.rules ++ " rules)",
   "  Params:      " ++ d.params,
   "  Check:       " ++ d.expression]

/-- The lines about the match patterns. -/
def patternLines : PatternSet → List String
  | .frozen => ["  (none - the script runs on every page)"]
  | .listed [] => ["  (none - no @-moz-document blocks, the script runs on every page)"]
  | .listed (p :: ps) => (p :: ps).map ("  " ++ ·)

/-- The lines about the conditions without a match pattern. -/
def diagnosticLines : List Diagnostic → List String
  | [] => []
  | d :: ds => ["", "Diagnostics:"] ++ (d :: ds).map fun d => "  " ++ d.message

/-- The lines of a report on a file. -/
def lines (r : Report) (file : String) : List String :=
  ["Userstyle: " ++ file,
   "  Rules:       " ++ toString r.rules,
   "  At-rules:    " ++ toString r.atRules ++ " (" ++ toString r.namespaces ++ " @namespace, " ++
     toString r.documents.length ++ " @-moz-document)",
   "  Comments:    " ++ toString r.comments,
   ""] ++
  r.documents.flatMap documentLines ++
  (if r.documents.isEmpty then [] else [""]) ++
  ["Match patterns:"] ++ patternLines r.targeting.patterns ++
  diagnosticLines r.targeting.diagnostics

/-- A report on a file as text. -/
def text (r : Report) (file : String) : String := String.join ((r.lines file).map (· ++ "\n"))

/-! ## Reports as JSON -/

open Json

/-- An `@-moz-document` rule as JSON. -/
def documentJson (d : DocumentSummary) : Value :=
  .object [("line", .number d.line), ("params", .text d.params),
    ("expression", .text d.expression), ("rules", .number d.rules)]

/-- A pattern set as JSON. -/
def patternsJson : PatternSet → Value
  | .listed ps => .object [("state", .text "open"), ("patterns", .array (ps.map .text))]
  | .frozen => .object [("state", .text "frozen")]

/-- A diagnostic as JSON. -/
def diagnosticJson : Diagnostic → Value
  | .regexpCondition pattern =>
    .object [("kind", .text "regexp_condition"), ("pattern", .text pattern)]
  | .prefixWithoutPath start =>
    .object [("kind", .text "url_prefix_without_path"), ("prefix", .text start)]

/-- A report as a JSON value. -/
def json (r : Report) : Value :=
  .object [("rules", .number r.rules), ("at_rules", .number r.atRules),
    ("comments", .number r.comments), ("namespaces", .number r.namespaces),
    ("documents", .array (r.documents.map documentJson)),
    ("match_patterns", patternsJson r.targeting.patterns),
    ("diagnostics", .array (r.targeting.diagnostics.map diagnosticJson))]

/-- A report as JSON text. -/
def jsonText (r : Report) : String := r.json.pretty 0 ++ "\n"

end Report

end Userstyle
