import Userstyle.Source.LineCursor

/-!
# Locators

A locator turns byte offsets into positions. It keeps the line of the last answer and goes on from
there; an offset before that line sends it back to the beginning of the text.
-/

namespace Userstyle.Source

open Text

/-- The line on which an offset lies, given a cursor on that line or an earlier one. -/
def LineCursor.seek (c : LineCursor) (offset : Nat) : LineCursor :=
  match _h : c.next? with
  | none => c
  | some d => if d.place.offset ≤ offset then d.seek offset else c
termination_by c.place.rest.length
decreasing_by exact LineCursor.length_next? _h

/-- Finds the positions of byte offsets in one text. -/
structure Locator where
  /-- The text. -/
  text : List Char
  /-- The line of the last answer. -/
  cursor : LineCursor

namespace Locator

/-- A locator that has not been used yet. -/
def start (text : List Char) : Locator := ⟨text, .start text⟩

/-- The position of a byte offset, and the locator to use from then on. -/
def locate (l : Locator) (offset : Nat) : Position × Locator :=
  let nearest := if offset < l.cursor.place.offset then .start l.text else l.cursor
  let cursor := nearest.seek offset
  let before := takeBytes (offset - cursor.place.offset) cursor.place.rest
  (⟨cursor.line, before.length⟩, { l with cursor })

end Locator

end Userstyle.Source
