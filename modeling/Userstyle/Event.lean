import Userstyle.Condition.Check
import Userstyle.Diagnostic

/-!
# Events

What happens during a run is recorded as events. Each has a level and a text; a log line shows
both. Debug events follow the reading of a style sheet, warnings tell of a script that will run on
more pages than its author may expect.
-/

namespace Userstyle

/-- How much an event matters. -/
inductive Level where
  /-- Shown on request only. -/
  | debug
  /-- Shown on request only; tells of a result. -/
  | info
  /-- Always shown. -/
  | warn
  deriving DecidableEq, Repr

/-- The name of a level in a log line. -/
def Level.name : Level → String
  | .debug => "debug"
  | .info => "info"
  | .warn => "warn"

/-- Something worth a log line. -/
inductive Event where
  /-- A style sheet was split into this many top-level nodes. -/
  | parsed (nodes : Nat)
  /-- A `@namespace` rule was met. -/
  | namespaceRule (line : Nat)
  /-- An `@-moz-document` rule with this many children was met. -/
  | documentRule (line children : Nat)
  /-- A condition was read. -/
  | conditionRead (c : Condition)
  /-- A condition froze the pattern set. -/
  | matchDisabled (c : Condition)
  /-- A diagnostic of a finished script. -/
  | diagnosed (d : Diagnostic)
  /-- A script was written to a file. -/
  | converted (input output : String) (bytes patterns : Nat)
  /-- A finished script has no match patterns. -/
  | runsEverywhere
  deriving DecidableEq, Repr

namespace Event

/-- The level of an event. -/
def level : Event → Level
  | .parsed _ | .namespaceRule _ | .documentRule .. | .conditionRead _ => .debug
  | .converted .. => .info
  | .matchDisabled _ | .diagnosed _ | .runsEverywhere => .warn

/-- The text of an event. -/
def message : Event → String
  | .parsed nodes => "parsed stylesheet: " ++ toString nodes ++ " top-level nodes"
  | .namespaceRule line => "namespace at line " ++ toString line
  | .documentRule line children =>
    "@-moz-document at line " ++ toString line ++ " with " ++ toString children ++ " rules"
  | .conditionRead c => "condition " ++ c.display ++ " -> " ++ c.check
  | .matchDisabled c => c.display ++ " disables @match directives for the whole document"
  | .diagnosed d => d.message
  | .converted input output bytes patterns =>
    "Converted '" ++ input ++ "' to '" ++ output ++ "' (" ++ toString bytes ++ " bytes, " ++
      toString patterns ++ " match patterns)"
  | .runsEverywhere => "No @match patterns: the script will run on every page"

/-- The log line of an event. -/
def line (e : Event) : String := "[" ++ e.level.name ++ "] " ++ e.message

end Event

end Userstyle
