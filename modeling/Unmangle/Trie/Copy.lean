import Unmangle.Trie.Basic

set_option autoImplicit false

/-! # Copying and comparing tries

Both walk the tree with an explicit stack, so that the depth of a tree is not limited by the depth
of calls. Each loop carries a count of steps that is computed from the tree and never runs out.

* `Node.copy` builds a node once all its children are built.
* `Node.same` compares two nodes at a time and puts the pairs of their children on the stack.
-/

namespace Unmangle

/-! ## Copying -/

/-- A node that is being copied: its children still to copy, the last one first, and the children
copied so far. -/
structure CopyFrame where
  source : Node
  pending : List (Char × Node)
  built : Branches

namespace CopyFrame

def start (n : Node) : CopyFrame := ⟨n, n.below.toList.reverse, .nil⟩

/-- The copy, once no child is pending. -/
def finish (f : CopyFrame) : Node := { f.source with below := f.built }

/-- One step at a time: go down to the next pending child, or attach a finished copy to the frame
that waits for it. A waiting frame stands with the key of the child that it waits for. -/
def run : Nat → CopyFrame → List (Char × CopyFrame) → Node
  | 0, f, _ => f.finish
  | steps + 1, f, waiting =>
      match f.pending, waiting with
      | (c, child) :: more, _ =>
          run steps (start child) ((c, { f with pending := more }) :: waiting)
      | [], (c, parent) :: rest =>
          run steps { parent with built := parent.built.push c f.finish } rest
      | [], [] => f.finish

end CopyFrame

def Node.copy (n : Node) : Node := CopyFrame.run (2 * n.below.count + 1) (.start n) []

def Trie.copy (t : Trie) : Trie := ⟨t.root.copy, t.size⟩

/-! ## Comparing -/

/-- Pairs each child on the left with the one on the right under the same key, if all have one. -/
def Branches.pairUp (right : Branches) : Branches → Option (List (Node × Node))
  | .nil => some []
  | .cons key label ends below rest =>
      match right.find? key, right.pairUp rest with
      | some other, some pairs => some ((⟨label, ends, below⟩, other) :: pairs)
      | _, _ => none

/-- Whether two nodes agree in all but what is below their children. -/
def Node.agrees (a b : Node) : Bool :=
  a.label == b.label && a.ends == b.ends && a.below.size == b.below.size

/-- Compares the pairs on the stack and, after each, the pairs of their children. -/
def Node.sameAll : Nat → List (Node × Node) → Bool
  | _, [] => true
  | 0, _ :: _ => false
  | steps + 1, (a, b) :: stack =>
      if a.agrees b then
        match b.below.pairUp a.below with
        | some pairs => sameAll steps (pairs ++ stack)
        | none => false
      else false

/-- Whether two nodes have the same character, the same mark and the same children. -/
def Node.same (a b : Node) : Bool := Node.sameAll (a.below.count + 1) [(a, b)]

def Trie.same (t u : Trie) : Bool := t.root.same u.root && t.size == u.size

end Unmangle
