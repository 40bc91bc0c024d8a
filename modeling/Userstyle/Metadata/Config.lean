import Userstyle.Json.Token
import Userstyle.Metadata

/-!
# Configuration files

A configuration file sets metadata in JSON: an object with some of the keys `name`, `namespace`,
`author` and `homepage`, or an array with the values in that order, from which values may be
missing at the end. The namespace is a string, the others may be `null` as well. A key that is
unknown or given twice makes the file invalid.
-/

namespace Userstyle.Metadata

open Json

/-- The value of a member: a string or `null`. -/
def memberValue? : Token → Option (Option String)
  | .text s => some (some s)
  | .null => some none
  | _ => none

/-- The members of an object, from its first key to the end of the text. -/
def members? : List Token → Option (List (String × Option String))
  | [.text key, .colon, value, .objectClose] => (memberValue? value).map fun v => [(key, v)]
  | .text key :: .colon :: value :: .comma :: rest => do
    let v ← memberValue? value
    let vs ← members? rest
    return (key, v) :: vs
  | _ => none

/-- The elements of an array, from the first one to the end of the text. -/
def elements? : List Token → Option (List (Option String))
  | [value, .arrayClose] => (memberValue? value).map fun v => [v]
  | value :: .comma :: rest => do
    let v ← memberValue? value
    let vs ← elements? rest
    return v :: vs
  | _ => none

/-- The keys of a configuration file in order. -/
def configKeys : List String := ["name", "namespace", "author", "homepage"]

/-- Sets the field that a key names. The namespace cannot be unset. -/
def setField? (m : Metadata) (key : String) (value : Option String) : Option Metadata :=
  if key = "name" then some { m with name := value }
  else if key = "namespace" then value.map fun scope => { m with scope }
  else if key = "author" then some { m with author := value }
  else if key = "homepage" then some { m with homepage := value }
  else none

/-- Sets the fields that members name. -/
def setFields? (m : Metadata) : List (String × Option String) → Option Metadata
  | [] => some m
  | (key, value) :: rest => do
    let m ← m.setField? key value
    m.setFields? rest

/-- The metadata of the members of an object. -/
def ofMembers? (ms : List (String × Option String)) : Option Metadata :=
  if (ms.map Prod.fst).Nodup then empty.setFields? ms else none

/-- The metadata of the elements of an array. -/
def ofElements? (values : List (Option String)) : Option Metadata :=
  if values.length ≤ configKeys.length then empty.setFields? (configKeys.zip values) else none

/-- The metadata of a configuration file, if the file is valid. -/
def ofConfig? (text : String) : Option Metadata :=
  match tokens text.toList with
  | some [.objectOpen, .objectClose] => some empty
  | some [.arrayOpen, .arrayClose] => some empty
  | some (.objectOpen :: rest) => (members? rest).bind ofMembers?
  | some (.arrayOpen :: rest) => (elements? rest).bind ofElements?
  | _ => none

end Userstyle.Metadata
