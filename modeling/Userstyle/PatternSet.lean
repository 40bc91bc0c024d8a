/-!
# Match patterns of a script

The header of a script may list patterns of the pages that it runs on. The list grows while the
conditions of a style sheet are read, until one of them has no pattern that covers it: then the set
is frozen, the script runs on every page, and the set never takes patterns again.
-/

namespace Userstyle

/-- The match patterns gathered for a whole style sheet. -/
inductive PatternSet where
  /-- These patterns so far, in the order in which they were met. -/
  | listed (patterns : List String)
  /-- No list of patterns is safe. -/
  | frozen
  deriving DecidableEq, Repr

namespace PatternSet

/-- The set before any condition is read. -/
def empty : PatternSet := .listed []

/-- The default set takes patterns. -/
instance : Inhabited PatternSet := ⟨empty⟩

/-- Whether the set takes no more patterns. -/
def isFrozen : PatternSet → Bool
  | .listed _ => false
  | .frozen => true

/-- The patterns to write into the header. -/
def patterns : PatternSet → List String
  | .listed ps => ps
  | .frozen => []

/-- Puts a pattern at the end, unless it is there already or the set is frozen. -/
def add (s : PatternSet) (p : String) : PatternSet :=
  match s with
  | .listed ps => if p ∈ ps then .listed ps else .listed (ps ++ [p])
  | .frozen => .frozen

/-- Adds patterns one after the other. -/
def addAll (s : PatternSet) (ps : List String) : PatternSet := ps.foldl add s

/-- Drops every pattern for good, and tells whether the set was not frozen before. -/
def freeze (s : PatternSet) : Bool × PatternSet := (!s.isFrozen, .frozen)

/-- The patterns of two sets together; frozen if one of the two is. -/
def absorb (s t : PatternSet) : PatternSet :=
  match t with
  | .listed ps => s.addAll ps
  | .frozen => s.freeze.2

@[simp] theorem frozen_add (p : String) : frozen.add p = frozen := rfl

@[simp] theorem addAll_nil (s : PatternSet) : s.addAll [] = s := rfl

@[simp] theorem addAll_cons (s : PatternSet) (p : String) (ps : List String) :
    s.addAll (p :: ps) = (s.add p).addAll ps := rfl

@[simp] theorem frozen_addAll (ps : List String) : frozen.addAll ps = frozen := by
  induction ps with
  | nil => rfl
  | cons p ps ih => simpa using ih

end PatternSet

end Userstyle
