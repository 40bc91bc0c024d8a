/-!
# Sizes of texts

A text is a list of characters. Offsets into it count the bytes of its UTF-8 form, columns of
syntax errors count the units of its UTF-16 form. `takeBytes` and `dropBytes` cut a text at a byte
offset; the offsets used are always those where a character begins.
-/

namespace Userstyle.Text

/-- How many bytes the UTF-8 form of a text has. -/
def byteLength : List Char → Nat
  | [] => 0
  | c :: r => c.utf8Size + byteLength r

/-- How many UTF-16 units a character takes. -/
def charUnits (c : Char) : Nat := if c.toNat < 0x10000 then 1 else 2

/-- How many units the UTF-16 form of a text has. -/
def unitLength : List Char → Nat
  | [] => 0
  | c :: r => charUnits c + unitLength r

/-- The characters that begin before byte `n`. -/
def takeBytes : Nat → List Char → List Char
  | _, [] => []
  | n, c :: r => if n = 0 then [] else c :: takeBytes (n - c.utf8Size) r

/-- The characters that begin at byte `n` or behind it. -/
def dropBytes : Nat → List Char → List Char
  | _, [] => []
  | n, c :: r => if n = 0 then c :: r else dropBytes (n - c.utf8Size) r

@[simp] theorem byteLength_nil : byteLength [] = 0 := rfl

@[simp] theorem byteLength_cons (c : Char) (r : List Char) :
    byteLength (c :: r) = c.utf8Size + byteLength r := rfl

@[simp] theorem byteLength_append (s t : List Char) :
    byteLength (s ++ t) = byteLength s + byteLength t := by
  induction s with
  | nil => simp
  | cons c s ih => simp [ih, Nat.add_assoc]

@[simp] theorem byteLength_toList (s : String) : byteLength s.toList = s.utf8ByteSize := by
  rw [← String.ofList_toList (s := s)]
  generalize s.toList = l
  rw [String.toList_ofList]
  induction l with
  | nil => simp
  | cons c r ih => rw [byteLength_cons, ih, String.ofList_cons]; simp

/-- Cutting at an offset loses nothing. -/
@[simp] theorem takeBytes_append_dropBytes (n : Nat) (s : List Char) :
    takeBytes n s ++ dropBytes n s = s := by
  induction s generalizing n with
  | nil => rfl
  | cons c r ih => by_cases h : n = 0 <;> simp [takeBytes, dropBytes, h, ih]

end Userstyle.Text
