import Unmangle.Text.Basic

set_option autoImplicit false

/-! # Tries

A trie is a finite set of texts that shares common prefixes: each text is a path of characters
down from the root, and the node where it ends is marked. The children of a node stand in
ascending order of their keys, so the shape of a trie does not depend on the order in which its
members came.

* `Trie.insert` and `Trie.erase` tell whether they changed the set.
* `Trie.erase` finds on the way down where the branch of a member has to be cut, so that no node
  stays that neither ends a member nor has a child.
-/

namespace Unmangle

/-- The children of a node, in ascending order of the characters under which they are kept. Each
child carries the character it was reached by, the mark that a member ends there, and its own
children. -/
inductive Branches where
  | nil
  | cons (key : Char) (label : Option Char) (ends : Bool) (below rest : Branches)
  deriving DecidableEq, Repr, Inhabited

/-- A node: the character it was reached by (`none` at the root), whether a member ends there,
and the children. -/
structure Node where
  label : Option Char
  ends : Bool
  below : Branches
  deriving DecidableEq, Repr, Inhabited

namespace Branches

def push (key : Char) (n : Node) (rest : Branches) : Branches :=
  .cons key n.label n.ends n.below rest

def toList : Branches → List (Char × Node)
  | .nil => []
  | .cons key label ends below rest => (key, ⟨label, ends, below⟩) :: rest.toList

def size : Branches → Nat
  | .nil => 0
  | .cons _ _ _ _ rest => rest.size + 1

/-- The number of nodes in the subtrees of all children. -/
def count : Branches → Nat
  | .nil => 0
  | .cons _ _ _ below rest => below.count + rest.count + 1

def isEmpty : Branches → Bool
  | .nil => true
  | .cons .. => false

def find? (c : Char) : Branches → Option Node
  | .nil => none
  | .cons key label ends below rest => if key = c then some ⟨label, ends, below⟩ else rest.find? c

/-- The children with a node under one key, in place of the one that was there. -/
def set (c : Char) (n : Node) : Branches → Branches
  | .nil => push c n .nil
  | .cons key label ends below rest =>
      if c = key then push c n rest
      else if c < key then push c n (.cons key label ends below rest)
      else .cons key label ends below (rest.set c n)

def erase (c : Char) : Branches → Branches
  | .nil => .nil
  | .cons key label ends below rest =>
      if c = key then rest else .cons key label ends below (rest.erase c)

end Branches

namespace Node

def root : Node := ⟨none, false, .nil⟩

def fresh (c : Char) : Node := ⟨some c, false, .nil⟩

/-- The node at the end of a path. -/
def descend : Text → Node → Option Node
  | [], n => some n
  | c :: path, n => (n.below.find? c).bind (descend path)

/-- The subtree after a change to the node at the end of a path, if there is such a node and the
change can be made to it. -/
def update? (change : Node → Option Node) : Text → Node → Option Node
  | [], n => change n
  | c :: path, n =>
      ((n.below.find? c).bind (update? change path)).map fun child =>
        { n with below := n.below.set c child }

/-- The subtree with a member added, and whether it was new; missing nodes on its path are made. -/
def insert : Text → Node → Bool × Node
  | [], n => (!n.ends, { n with ends := true })
  | c :: path, n =>
      let grown := insert path ((n.below.find? c).getD (fresh c))
      (grown.1, { n with below := n.below.set c grown.2 })

/-- Whether a node stays when one of its children goes: a member ends at it, or it has more
children. -/
def holdsOn (n : Node) : Bool := n.ends || decide (1 < n.below.size)

/-- Walks down a path. Gives the depth of the last node before its end that holds on, or the given
depth if there is none, and the node at the end of the path. -/
def walk (depth anchor : Nat) : Text → Node → Option (Nat × Node)
  | [], n => some (anchor, n)
  | c :: path, n =>
      (n.below.find? c).bind (walk (depth + 1) (if n.holdsOn then depth else anchor) path)

def withoutChild? (c : Char) (n : Node) : Option Node :=
  if (n.below.find? c).isSome then some { n with below := n.below.erase c } else none

/-- The subtree without the branch that leaves a path at a depth. -/
def cut? (depth : Nat) (path : Text) (n : Node) : Option Node :=
  match path.drop depth with
  | [] => none
  | c :: _ => n.update? (withoutChild? c) (path.take depth)

def withoutMark? (n : Node) : Option Node := some { n with ends := false }

def unmark? (path : Text) (n : Node) : Option Node := n.update? withoutMark? path

end Node

/-- A set of texts: the root of its tree and the number of members. -/
structure Trie where
  root : Node
  size : Nat
  deriving DecidableEq, Repr

namespace Trie

def empty : Trie := ⟨.root, 0⟩

instance : Inhabited Trie := ⟨empty⟩

/-- Whether there is no member, not even the empty text. -/
def isEmpty (t : Trie) : Bool := t.size == 0

def contains (t : Trie) (w : Text) : Bool := (t.root.descend w).any (·.ends)

def insert (t : Trie) (w : Text) : Bool × Trie :=
  let grown := t.root.insert w
  (grown.1, ⟨grown.2, if grown.1 then t.size + 1 else t.size⟩)

/-- Takes a text away, and tells whether it was a member. If its path ends in a node without
children, the whole branch goes that leads to no other member. -/
def erase (t : Trie) (w : Text) : Bool × Trie :=
  match t.root.walk 0 0 w with
  | none => (false, t)
  | some (anchor, last) =>
      if last.ends then
        match if last.below.isEmpty && !w.isEmpty then t.root.cut? anchor w
            else t.root.unmark? w with
        | some root => (true, ⟨root, t.size - 1⟩)
        | none => (false, t)
      else (false, t)

def extend (t : Trie) (ws : List Text) : Trie := ws.foldl (fun t w => (t.insert w).2) t

def ofList (ws : List Text) : Trie := empty.extend ws

end Trie

end Unmangle
