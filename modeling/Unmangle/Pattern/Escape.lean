import Unmangle.Text.Basic

set_option autoImplicit false

/-! # Literal characters in patterns

A pattern writes a character that has a meaning of its own with a backslash before it.
-/

namespace Unmangle.Pattern

/-- The characters that are written with a backslash before them. -/
def specialChars : Text := "\\.+*?()|[]\x7b\x7d^$#&-~".toList

def isSpecial (c : Char) : Bool := specialChars.contains c

/-- The written form of one literal character. -/
def escapeChar (c : Char) : Text := if isSpecial c then ['\\', c] else [c]

def escape (t : Text) : Text := t.flatMap escapeChar

end Unmangle.Pattern
