import Unmangle.Pattern.Basic
import Unmangle.Text.Word

set_option autoImplicit false

/-! # Matching

An expression is tried at a place in a text. The ways in which it can match are listed in order of
preference: the first alternative before the next, a body before nothing. What stands first is the
match, since a choice that makes the rest fail drops out of the list.

* `Pattern.ends` lists the places where a match can end.
* `Pattern.hit?` is the length of the preferred match.
-/

namespace Unmangle

/-- A place in a text: what stands before it, nearest first, what stands after it, and how many
characters were taken on the way to it. -/
structure Place where
  before : Text
  after : Text
  taken : Nat
  deriving DecidableEq, Repr

namespace Place

/-- The place between two parts of a text, the first one backwards, before anything is taken. -/
def between (before after : Text) : Place := ⟨before, after, 0⟩

/-- The place one character further on, if the text goes on with the given one. -/
def eat (c : Char) (p : Place) : Option Place :=
  match p.after with
  | [] => none
  | d :: rest => if d = c then some ⟨d :: p.before, rest, p.taken + 1⟩ else none

def atBoundary (p : Place) : Bool := isBoundary p.before.head? p.after.head?

end Place

namespace Pattern

/-- The places where a match that starts at a place can end, the preferred one first. -/
def ends : Pattern → Place → List Place
  | .empty, p => [p]
  | .literal c, p => (p.eat c).toList
  | .boundary, p => if p.atBoundary then [p] else []
  | .textStart, p => if p.before.isEmpty then [p] else []
  | .textEnd, p => if p.after.isEmpty then [p] else []
  | .never, _ => []
  | .group body, p => body.ends p
  | .optional body, p => body.ends p ++ [p]
  | .seq first next, p => (first.ends p).flatMap next.ends
  | .choice first next, p => first.ends p ++ next.ends p

/-- The number of characters that the preferred match between two parts of a text takes. -/
def hit? (e : Pattern) (before after : Text) : Option Nat :=
  (e.ends (.between before after)).head?.map (·.taken)

end Pattern

end Unmangle
