import Userstyle.Condition.Reader
import Userstyle.Logged
import Userstyle.PatternSet
import Userstyle.Text.Size

/-!
# Targeting

Where a script has to run is decided for the whole style sheet, not for one parameter list. Each
condition either adds match patterns or, where no pattern covers it, freezes the set and leaves a
diagnostic. `Targeting` is what all conditions read so far amount to.
-/

namespace Userstyle

open Text

/-- What one condition means for the match patterns. -/
inductive Contribution where
  /-- These patterns cover the condition. -/
  | patterns (ps : List String)
  /-- No pattern covers the condition. -/
  | freezing (d : Diagnostic)
  deriving DecidableEq, Repr

/-- A path is looked for behind this many bytes of a URL, the length of `https://`. -/
def schemeLength : Nat := 8

/-- What comes before the first slash that is not among the first `skip` bytes. -/
def beforePath? : Nat → List Char → Option (List Char)
  | _, [] => none
  | skip, c :: r =>
    if skip = 0 ∧ c = '/' then some [] else (beforePath? (skip - c.utf8Size) r).map (c :: ·)

/-- The match patterns that cover a condition. A domain stands for itself and its subdomains, over
any scheme. A URL prefix is cut at the first slash from its ninth byte on, which is the one behind
its host if the scheme is that of the web; without such a slash there is no pattern. -/
def Condition.contribution (c : Condition) : Contribution :=
  match c.matcher with
  | .domain => .patterns ["*://" ++ c.argument ++ "/*", "*://*." ++ c.argument ++ "/*"]
  | .url => .patterns [c.argument]
  | .urlPrefix =>
    match beforePath? schemeLength c.argument.toList with
    | some site => .patterns [String.ofList site ++ "/*"]
    | none => .freezing (.prefixWithoutPath c.argument)
  | .regexp => .freezing (.regexpCondition c.argument)

/-- The match patterns of a style sheet, and the conditions that have none. -/
structure Targeting where
  /-- The patterns gathered so far. -/
  patterns : PatternSet := .empty
  /-- One diagnostic for every condition without a pattern, in the order of the conditions. -/
  diagnostics : List Diagnostic := []
  deriving DecidableEq, Repr

namespace Targeting

/-- Nothing read yet. -/
def empty : Targeting := {}

/-- Takes one more condition into account. -/
def add (t : Targeting) (c : Condition) : Targeting :=
  match c.contribution with
  | .patterns ps => { t with patterns := t.patterns.addAll ps }
  | .freezing d => ⟨t.patterns.freeze.2, t.diagnostics ++ [d]⟩

/-- The warning for a condition that freezes a set that was not frozen before. -/
def warnings (t : Targeting) (c : Condition) : List Event :=
  match c.contribution with
  | .patterns _ => []
  | .freezing _ => if t.patterns.freeze.1 then [.matchDisabled c] else []

/-- Takes conditions into account one after the other. -/
def addAll (t : Targeting) (cs : List Condition) : Targeting := cs.foldl add t

/-- The log of reading conditions one after the other. -/
def log (t : Targeting) : List Condition → List Event
  | [] => []
  | c :: cs => .conditionRead c :: t.warnings c ++ (t.add c).log cs

/-- Reads a parameter list and takes its conditions into account. If the list cannot be read,
nothing of it counts. -/
def read (t : Targeting) (params : String) : Logged (List Condition × Targeting) := do
  let cs ← .ofExcept (Condition.ofParams params)
  .recordAll (t.log cs)
  return (cs, t.addAll cs)

@[simp] theorem addAll_nil (t : Targeting) : t.addAll [] = t := rfl

@[simp] theorem addAll_cons (t : Targeting) (c : Condition) (cs : List Condition) :
    t.addAll (c :: cs) = (t.add c).addAll cs := rfl

@[simp] theorem addAll_append (t : Targeting) (cs ds : List Condition) :
    t.addAll (cs ++ ds) = (t.addAll cs).addAll ds := List.foldl_append

end Targeting

end Userstyle
