set_option autoImplicit false

/-! # Texts

A text is the list of its characters. This module holds the measures and cuts that the rest of
the library makes on texts: the number of bytes of the UTF-8 form (`Text.byteSize`), the lines of
a text (`Text.lines`), the pieces between separators (`Text.splitOn`) and the removal of leading
characters.
-/

namespace Unmangle

/-- A text, as the list of its characters. -/
abbrev Text := List Char

namespace Text

/-- The number of bytes of the UTF-8 form of a text. -/
def byteSize : Text → Nat
  | [] => 0
  | c :: rest => c.utf8Size + byteSize rest

@[simp] theorem byteSize_append (a b : Text) : byteSize (a ++ b) = byteSize a + byteSize b := by
  induction a with
  | nil => simp [byteSize]
  | cons c a ih => simp [byteSize, ih, Nat.add_assoc]

/-- The lines of a text. A line feed ends a line, one carriage return directly before it belongs
to the line end, and a last line without a line feed is a line unless it is empty. -/
def lines : Text → List Text
  | [] => []
  | '\n' :: rest => [] :: lines rest
  | '\r' :: '\n' :: rest => [] :: lines rest
  | c :: rest =>
      match lines rest with
      | [] => [[c]]
      | line :: more => (c :: line) :: more

/-- The pieces of a text between the occurrences of a separator, empty pieces included. There is
always at least one piece. -/
def splitOn (sep : Char) : Text → List Text
  | [] => [[]]
  | c :: rest =>
      if c = sep then [] :: splitOn sep rest
      else
        match splitOn sep rest with
        | [] => [[c]]
        | piece :: more => (c :: piece) :: more

/-- What is left of a text after a number of bytes, unless a character reaches over that place. -/
def dropBytes? : Nat → Text → Option Text
  | 0, t => some t
  | _ + 1, [] => none
  | n + 1, c :: rest => if c.utf8Size ≤ n + 1 then dropBytes? (n + 1 - c.utf8Size) rest else none

/-- What stands before a number of bytes of a text, unless a character reaches over that place. -/
def takeBytes? : Nat → Text → Option Text
  | 0, _ => some []
  | _ + 1, [] => none
  | n + 1, c :: rest =>
      if c.utf8Size ≤ n + 1 then (takeBytes? (n + 1 - c.utf8Size) rest).map (c :: ·) else none

/-- What stands from one byte of a text to before another one. -/
def slice? (t : Text) (start stop : Nat) : Option Text :=
  (dropBytes? start t).bind (takeBytes? (stop - start))

def dropDots (t : Text) : Text := t.dropWhile (· == '.')

end Text

end Unmangle
