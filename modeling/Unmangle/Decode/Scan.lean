import Unmangle.Pattern.Match

set_option autoImplicit false

/-! # Scanning a text for matches

A scan goes through a text from left to right and cuts it into characters that belong to no match
and hits. Hits do not overlap, and an empty hit directly at the end of another hit does not count.

* `Pattern.scan` is the list of these pieces; put together they are the text.
* `Piece.spans` gives the hits as ranges of bytes.
-/

namespace Unmangle

/-- A piece of a scanned text. -/
inductive Piece where
  /-- A character outside of all hits. -/
  | plain (c : Char)
  /-- A hit, with the character that stands before it in the text. -/
  | hit (left : Option Char) (word : Text)
  deriving DecidableEq, Repr

namespace Piece

def text : Piece → Text
  | .plain c => [c]
  | .hit _ word => word

def isHit : Piece → Bool
  | .plain _ => false
  | .hit .. => true

/-- The ranges of bytes of the hits, where the pieces start at an offset. -/
def spans : Nat → List Piece → List (Nat × Nat)
  | _, [] => []
  | offset, piece :: rest =>
      let stop := offset + Text.byteSize piece.text
      (if piece.isHit then [(offset, stop)] else []) ++ spans stop rest

end Piece

namespace Pattern

/-- Scans the rest of a text, given what stands before it, nearest first. The number counts the
characters of the last hit that are still to pass; the flag tells whether a hit ends here. -/
def scanFrom (e : Pattern) : Text → Text → Nat → Bool → List Piece
  | before, [], inside, touching =>
      match inside, e.hit? before [] with
      | 0, some _ => if touching then [] else [.hit before.head? []]
      | _, _ => []
  | before, c :: rest, inside + 1, touching => e.scanFrom (c :: before) rest inside touching
  | before, c :: rest, 0, touching =>
      match e.hit? before (c :: rest) with
      | none => .plain c :: e.scanFrom (c :: before) rest 0 false
      | some 0 =>
          (if touching then [] else [.hit before.head? []]) ++
            .plain c :: e.scanFrom (c :: before) rest 0 false
      | some (n + 1) =>
          .hit before.head? ((c :: rest).take (n + 1)) :: e.scanFrom (c :: before) rest n true

def scan (e : Pattern) (t : Text) : List Piece := e.scanFrom [] t 0 false

end Pattern

end Unmangle
