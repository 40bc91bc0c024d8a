/-!
# JSON values

The values that a report is made of, and how they are printed: members and elements each on their
own line, two spaces deeper than what they belong to; an empty list or object on one line.
-/

namespace Userstyle.Json

/-- A JSON value without truth values, `null`, fractions and signs. -/
inductive Value where
  /-- A natural number. -/
  | number (n : Nat)
  /-- A string. -/
  | text (s : String)
  /-- An array. -/
  | array (elements : List Value)
  /-- An object, its members in order. -/
  | object (members : List (String × Value))

/-- A hexadecimal digit in lower case. -/
def hexChar (n : Nat) : Char := Nat.digitChar n

/-- A character inside a JSON string. -/
def stringChar (c : Char) : List Char :=
  if c = '\"' then ['\\', '\"']
  else if c = '\\' then ['\\', '\\']
  else if c = '\x08' then ['\\', 'b']
  else if c = '\x0c' then ['\\', 'f']
  else if c = '\n' then ['\\', 'n']
  else if c = '\r' then ['\\', 'r']
  else if c = '\t' then ['\\', 't']
  else if c.toNat < 0x20 then
    ['\\', 'u', '0', '0', hexChar (c.toNat / 16), hexChar (c.toNat % 16)]
  else [c]

/-- A text as a JSON string. -/
def stringText (s : String) : String :=
  "\"" ++ String.ofList (s.toList.flatMap stringChar) ++ "\""

/-- A new line with its indentation. -/
def newLine (depth : Nat) : String := "\n".pushn ' ' (2 * depth)

namespace Value

mutual

/-- A value as text; the lines inside it are at `depth + 1`. -/
def pretty (depth : Nat) : Value → String
  | .number n => toString n
  | .text s => stringText s
  | .array [] => "[]"
  | .array (v :: vs) =>
    "[" ++ newLine (depth + 1) ++ pretty (depth + 1) v ++ prettyElements (depth + 1) vs ++
      newLine depth ++ "]"
  | .object [] => "\x7b\x7d"
  | .object (m :: ms) =>
    "\x7b" ++ newLine (depth + 1) ++ prettyMember (depth + 1) m ++ prettyMembers (depth + 1) ms ++
      newLine depth ++ "\x7d"

/-- The elements of an array behind the first one. -/
def prettyElements (depth : Nat) : List Value → String
  | [] => ""
  | v :: vs => "," ++ newLine depth ++ pretty depth v ++ prettyElements depth vs

/-- A member of an object. -/
def prettyMember (depth : Nat) : String × Value → String
  | (key, v) => stringText key ++ ": " ++ pretty depth v

/-- The members of an object behind the first one. -/
def prettyMembers (depth : Nat) : List (String × Value) → String
  | [] => ""
  | m :: ms => "," ++ newLine depth ++ prettyMember depth m ++ prettyMembers depth ms

end

end Value

end Userstyle.Json
