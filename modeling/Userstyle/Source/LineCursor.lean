import Userstyle.Error
import Userstyle.Source.Place

/-!
# Line cursors

A line cursor stands at the beginning of a line and moves forward only. It turns positions into
byte offsets (`resolve`) and into text (`slice`): looking up positions in the order of the text
costs one pass over it. A look-up on a line that the cursor has left is refused. A look-up moves
the cursor to the line it asks for, or to the last line if there are not so many.
-/

namespace Userstyle.Source

open Text

/-- The beginning of a line of a text. -/
structure LineCursor where
  /-- The number of the line, from zero. -/
  line : Nat
  /-- The place where the line begins. -/
  place : Place
  deriving DecidableEq, Repr

namespace LineCursor

/-- The first line of a text. -/
def start (text : List Char) : LineCursor := ⟨0, .start text⟩

/-- The characters of the line, without its line feed. -/
def lineText (c : LineCursor) : List Char := c.place.rest.takeWhile (· != '\n')

/-- The next line, if the line ends with a line feed. -/
def next? (c : LineCursor) : Option LineCursor :=
  match c.place.rest.drop c.lineText.length with
  | [] => none
  | _ :: _ => some ⟨c.line + 1, c.place.advance (c.lineText.length + 1)⟩

/-- The text gets shorter from line to line. -/
theorem length_next? {c d : LineCursor} (h : c.next? = some d) :
    d.place.rest.length < c.place.rest.length := by
  unfold next? at h
  split at h
  · cases h
  · rename_i hd
    have hl := congrArg List.length hd
    cases h
    simp only [Place.advance, List.length_drop, List.length_cons] at hl ⊢
    omega

/-- The line `n` lines further on, or the last line of the text. -/
def down : Nat → LineCursor → LineCursor
  | 0, c => c
  | n + 1, c =>
    match c.next? with
    | some d => d.down n
    | none => c

/-- The place of a column of the line. The column behind the last one is the end of the line. -/
def column? (c : LineCursor) (column : Nat) : Option Place :=
  if column ≤ c.lineText.length then some (c.place.advance column) else none

/-- The place of a position, and where the cursor stands afterwards. -/
def find (c : LineCursor) (p : Position) : Except Error Place × LineCursor :=
  if p.line < c.line then (.error (.notMonotonic p.line c.line), c)
  else
    let d := c.down (p.line - c.line)
    if d.line < p.line then (.error (.outOfRange p.line p.column), d)
    else
      match d.column? p.column with
      | some place => (.ok place, d)
      | none => (.error (.outOfRange p.line p.column), d)

/-- The byte offset of a position, and where the cursor stands afterwards. -/
def resolve (c : LineCursor) (p : Position) : Except Error Nat × LineCursor :=
  let (place, d) := c.find p
  (place.map Place.offset, d)

/-- The text from one position to another, the character at the second one included, and where the
cursor stands afterwards. -/
def slice (c : LineCursor) (span : Span Position) : Except Error (List Char) × LineCursor :=
  match c.find span.first with
  | (.error e, d) => (.error e, d)
  | (.ok first, d) =>
    match d.find span.last with
    | (.error e, d') => (.error e, d')
    | (.ok last, d') =>
      if first.offset ≤ last.pastChar.offset then (.ok (first.textTo last.pastChar), d')
      else (.error (.outOfRange span.first.line span.first.column), d')

end LineCursor

end Userstyle.Source
