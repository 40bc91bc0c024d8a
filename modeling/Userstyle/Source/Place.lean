import Userstyle.Text.Size

/-!
# Places in a text

A place is kept as the number of bytes before it together with the text from there on, so going on
from a place costs nothing and a stretch of text can be cut out between two places.
-/

namespace Userstyle.Source

open Text

/-- A place in a text, between two characters. -/
structure Place where
  /-- How many bytes come before the place. -/
  offset : Nat
  /-- The text from the place on. -/
  rest : List Char
  deriving DecidableEq, Repr

namespace Place

/-- The place before the first character. -/
def start (text : List Char) : Place := ⟨0, text⟩

/-- The place `n` characters further on. -/
def advance (p : Place) (n : Nat) : Place :=
  ⟨p.offset + byteLength (p.rest.take n), p.rest.drop n⟩

/-- The text from a place to a later one. -/
def textTo (p q : Place) : List Char := takeBytes (q.offset - p.offset) p.rest

/-- The place behind the next character, or the same place at the end of the text. -/
def pastChar (p : Place) : Place := p.advance 1

end Place

/-- A position by line and column, both counted from zero. Lines end with a line feed; columns
count characters. -/
structure Position where
  /-- How many line feeds come before the position. -/
  line : Nat
  /-- How many characters of its line come before the position. -/
  column : Nat
  deriving DecidableEq, Repr

/-- The number of the line as users count, from one. -/
def Position.lineNumber (p : Position) : Nat := p.line + 1

/-- The number of the column as users count, from one. -/
def Position.columnNumber (p : Position) : Nat := p.column + 1

/-- A stretch of text by its first and its last character, both included. -/
structure Span (α : Type) where
  /-- Where the first character is. -/
  first : α
  /-- Where the last character is. -/
  last : α
  deriving DecidableEq, Repr

end Userstyle.Source
