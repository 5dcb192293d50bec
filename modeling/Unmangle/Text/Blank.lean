import Unmangle.Text.Basic

set_option autoImplicit false

/-! # Blank characters

The characters of the Unicode property White_Space, the texts made of them alone, and texts without
them at the ends.
-/

namespace Unmangle

/-- The ranges of code points with the property White_Space, both ends included. -/
def blankRanges : List (Nat × Nat) :=
  [(0x9, 0xD), (0x20, 0x20), (0x85, 0x85), (0xA0, 0xA0), (0x1680, 0x1680), (0x2000, 0x200A),
   (0x2028, 0x2029), (0x202F, 0x202F), (0x205F, 0x205F), (0x3000, 0x3000)]

/-- Whether a character has the property White_Space. -/
def isBlankChar (c : Char) : Bool :=
  blankRanges.any fun (low, high) => low ≤ c.toNat && c.toNat ≤ high

def Text.isBlank (t : Text) : Bool := t.all isBlankChar

def Text.trim (t : Text) : Text :=
  ((t.dropWhile isBlankChar).reverse.dropWhile isBlankChar).reverse

end Unmangle
