import Userstyle.Condition
import Userstyle.Script.Literal

/-!
# Runtime checks

The generated script decides on each page which blocks apply. The check of a condition is a
JavaScript expression over the variables `domain` and `url` of that script.
-/

namespace Userstyle.Condition

open Script

/-- The expression that is true on the pages that satisfy the condition. -/
def check (c : Condition) : String :=
  let argument := c.argument.toList
  match c.matcher with
  | .domain =>
    "/(?:^|\\.)" ++ String.ofList (regexBody (hostSource argument)) ++ "$/.test(domain)"
  | .url => "url === \"" ++ String.ofList (stringBody argument) ++ "\""
  | .urlPrefix => "url.indexOf(\"" ++ String.ofList (stringBody argument) ++ "\") === 0"
  | .regexp => "/^(?:" ++ String.ofList (regexBody argument) ++ ")$/.test(url)"

/-- The expression that is true on the pages that satisfy one of the conditions. -/
def disjunction (cs : List Condition) : String := " || ".intercalate (cs.map check)

end Userstyle.Condition
