import Unmangle.Text.Basic

set_option autoImplicit false

/-! # Fields of a line

A line of a table holds fields with commas between them. Double quotes put a part of a field into
quotes and are dropped; in quotes a comma is a plain character, and a backslash takes the next
character as it is. A line whose quotes are not closed has no fields to give.
-/

namespace Unmangle.Table

/-- Where the reader of a line stands. -/
inductive Quoting where
  | outside
  | inside
  /-- In quotes, right after a backslash. -/
  | escaped
  deriving DecidableEq, Repr

def addChar (c : Char) : List Text → List Text
  | [] => [[c]]
  | field :: rest => (c :: field) :: rest

/-- The fields of the rest of a line. -/
def fieldsFrom : Quoting → Text → Option (List Text)
  | .outside, [] => some [[]]
  | .inside, [] => none
  | .escaped, [] => none
  | .outside, c :: rest =>
      if c = '"' then fieldsFrom .inside rest
      else if c = ',' then (fieldsFrom .outside rest).map ([] :: ·)
      else (fieldsFrom .outside rest).map (addChar c)
  | .inside, c :: rest =>
      if c = '"' then fieldsFrom .outside rest
      else if c = '\\' then fieldsFrom .escaped rest
      else (fieldsFrom .inside rest).map (addChar c)
  | .escaped, c :: rest => (fieldsFrom .inside rest).map (addChar c)

/-- The fields of a line; an empty line has none. -/
def fields? (line : Text) : Option (List Text) :=
  if line.isEmpty then some [] else fieldsFrom .outside line

end Unmangle.Table
