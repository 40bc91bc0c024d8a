/-!
# Blank characters

Trimming and blank tests go by the Unicode property `White_Space`. It holds of the no-break space
and of the line separator, and not of the zero-width space or the byte-order mark.
-/

namespace Userstyle.Text

/-- The characters with the Unicode property `White_Space`. -/
def isBlank (c : Char) : Bool :=
  let code := c.toNat
  (0x09 ≤ code && code ≤ 0x0D) || code == 0x20 || code == 0x85 || code == 0xA0 ||
    code == 0x1680 || (0x2000 ≤ code && code ≤ 0x200A) || code == 0x2028 || code == 0x2029 ||
    code == 0x202F || code == 0x205F || code == 0x3000

/-- The text from its first character that is not blank. -/
def trimStart (s : List Char) : List Char := s.dropWhile isBlank

/-- The text up to its last character that is not blank. -/
def trimEnd (s : List Char) : List Char := (s.reverse.dropWhile isBlank).reverse

/-- The text without the blank characters at its two ends. -/
def trim (s : List Char) : List Char := trimEnd (trimStart s)

/-- A text with no character other than blank ones. -/
def isAllBlank (s : List Char) : Bool := s.all isBlank

/-- Trimming a text at its beginning leaves a last part of it. -/
theorem trimStart_isSuffix (s : List Char) : trimStart s <:+ s := List.dropWhile_suffix isBlank

/-- Trimming a text at its end leaves a first part of it. -/
theorem trimEnd_isPrefix (s : List Char) : trimEnd s <+: s := by
  have h := List.reverse_prefix.mpr (trimStart_isSuffix s.reverse)
  rwa [List.reverse_reverse] at h

end Userstyle.Text
