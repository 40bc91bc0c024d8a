import Userstyle.Script.Header
import Userstyle.Script.Program

/-!
# Building a script

A script is its header, a preamble, the statements of its program, and the call that adds the
gathered style text to the page. A builder takes one style sheet and gives one script.
-/

namespace Userstyle

open Script

/-- A finished script. -/
structure Userscript where
  /-- The text of the script. -/
  text : String
  /-- The match patterns in its header. -/
  patterns : PatternSet
  /-- The conditions that no match pattern covers. -/
  diagnostics : List Diagnostic
  deriving DecidableEq, Repr

/-- Whether the header names no pages, so that the script runs on all of them. -/
def Userscript.runsEverywhere (s : Userscript) : Bool := s.patterns.patterns.isEmpty

namespace Script

/-- The lines between the header and the statements. -/
def preamble : List String :=
  ["(function() \x7b",
   indentation ++ "var domain = window.location.hostname;",
   indentation ++ "var url = window.location.href;",
   indentation ++ "var " ++ accumulator ++ " = '';"]

/-- The lines behind the statements. -/
def closing : List String :=
  [indentation ++ "if (" ++ accumulator ++ ".length > 0) \x7b",
   indentation ++ indentation ++ styleGrant ++ "(" ++ accumulator ++ ");",
   indentation ++ "\x7d",
   "\x7d)();"]

/-- The script of a program. -/
def Program.assemble (p : Program) (m : Metadata) : Userscript where
  text :=
    let lines := headerLines m p.targeting.patterns.patterns ++ preamble ++ p.statements ++ closing
    String.join (lines.map (· ++ "\n"))
  patterns := p.targeting.patterns
  diagnostics := p.targeting.diagnostics

/-- A builder, by what has happened to it. -/
inductive Builder where
  /-- It has no style sheet yet. -/
  | empty
  /-- It has a style sheet. -/
  | ready (program : Program)
  /-- Its script has been handed out. -/
  | built
  /-- Its style sheet could not be converted. -/
  | failed
  deriving DecidableEq, Repr

namespace Builder

/-- Gives the builder a style sheet. It takes only one, good or bad. -/
def consume (b : Builder) (css : String) : Logged Unit × Builder :=
  match b with
  | .empty =>
    let compiled := compile css
    match compiled.result with
    | .ok program => (⟨compiled.events, .ok ()⟩, .ready program)
    | .error e => (⟨compiled.events, .error e⟩, .failed)
  | _ => (.ofExcept (.error .alreadyConsumed), b)

/-- Asks the builder for its script. It gives only one. -/
def build (b : Builder) (m : Metadata) : Except Error Userscript × Builder :=
  match b with
  | .ready program => (.ok (program.assemble m), .built)
  | .built => (.error .alreadyBuilt, .built)
  | .empty => (.error .notReady, .empty)
  | .failed => (.error .notReady, .failed)

end Builder

/-- The script of a style sheet, by a builder that is used once. -/
def convert (css : String) (m : Metadata) : Logged Userscript :=
  let (consumed, builder) := Builder.empty.consume css
  consumed >>= fun _ => .ofExcept (builder.build m).1

end Script

end Userstyle
