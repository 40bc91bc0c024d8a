import Userstyle.Text.Quoted

/-!
# Diagnostics

A diagnostic says why a style sheet could not be given match patterns. It does not stop the
conversion.
-/

namespace Userstyle

/-- A condition that no match pattern covers. -/
inductive Diagnostic where
  /-- A `regexp` condition. -/
  | regexpCondition (pattern : String)
  /-- A `url-prefix` condition that ends before the path of the URL begins. -/
  | prefixWithoutPath (start : String)
  deriving DecidableEq, Repr

/-- The sentence shown to the user. -/
def Diagnostic.message : Diagnostic → String
  | .regexpCondition pattern =>
    "regexp(" ++ String.ofList (Text.quoted pattern.toList) ++
      ") cannot be expressed as @match; the script will run on every page"
  | .prefixWithoutPath start =>
    "url-prefix(" ++ String.ofList (Text.quoted start.toList) ++
      ") has no path separator after the host; the script will run on every page"

end Userstyle
