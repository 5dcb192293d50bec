import Unmangle.Decode.Decoder

set_option autoImplicit false

/-! # Clipboards

The text of a clipboard is read, decoded and written back in one go. A clipboard can be without
text, and it can refuse to be written.
-/

namespace Unmangle

/-- A clipboard: the text it holds, whether it refuses writes, and the writes that succeeded. -/
structure Clipboard where
  text : Option Text
  refuses : Bool
  writes : Nat
  deriving DecidableEq, Repr

namespace Clipboard

def empty : Clipboard := ⟨none, false, 0⟩

def read (c : Clipboard) : Except Error Text :=
  match c.text with
  | none => .error (.clipboard .empty)
  | some t => .ok t

def write (c : Clipboard) (t : Text) : Except Error Clipboard :=
  if c.refuses then .error (.clipboard .refused)
  else .ok { c with text := some t, writes := c.writes + 1 }

/-- Puts the decoded text in place of the text. -/
def decode (c : Clipboard) (d : Decoder) : Traced (Clipboard × Stats) := do
  let text ← Traced.of c.read
  let (decoded, stats) := d.decode text
  Traced.report (.clipboardDecoded stats.replaced)
  let c ← Traced.of (c.write decoded)
  return (c, stats)

end Clipboard

end Unmangle
