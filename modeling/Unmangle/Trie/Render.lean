import Unmangle.Trie.Basic
import Unmangle.Pattern.Escape

set_option autoImplicit false

/-! # The pattern of a trie

A trie is written as one pattern group that matches its members and nothing else
(`Trie.pattern`). A run of nodes without branches is one literal, a branch point is a group of
alternatives in ascending order, and the group is optional where a member ends at the branch
point. The writer keeps the nodes still to write on a stack together with the text that goes
between them, so the depth of a trie is not limited by the depth of calls.
-/

namespace Unmangle

/-- The run of characters from a node down through nodes with a single child at which no member
ends, and the node where the run stops. -/
def Branches.run (label : Option Char) (ends : Bool) : Branches → Text × Node
  | .cons key label' ends' below .nil =>
      if ends then (label.toList, ⟨label, ends, .cons key label' ends' below .nil⟩)
      else
        let tail := run label' ends' below
        (label.toList ++ tail.1, tail.2)
  | below => (label.toList, ⟨label, ends, below⟩)

def Node.run (n : Node) : Text × Node := n.below.run n.label n.ends

/-- What the writer still has to do: write a node with all below it, or a piece of text. -/
inductive RenderStep where
  | node (n : Node)
  | text (t : Text)

namespace RenderStep

/-- The steps that write alternatives: the nodes with a bar before each but the first. -/
def alternatives : List (Char × Node) → List RenderStep
  | [] => []
  | (_, n) :: rest => .node n :: rest.flatMap fun e => [.text ['|'], .node e.2]

def opening : Text := "(?:".toList

/-- The text that closes a group; an optional one is marked. -/
def closing (optional : Bool) : Text := if optional then ")?".toList else ")".toList

/-- Does the steps from the top of the stack. -/
def write : Nat → List RenderStep → Text
  | _, [] => []
  | 0, _ :: _ => []
  | steps + 1, .text t :: stack => t ++ write steps stack
  | steps + 1, .node n :: stack =>
      let (span, stop) := n.run
      Pattern.escape span ++
        if stop.below.isEmpty then write steps stack
        else
          opening ++
            write steps (alternatives stop.below.toList ++ .text (closing stop.ends) :: stack)

end RenderStep

/-- The pattern of a node and all below it. No node takes more than three steps: itself, the bar
before it and the end of its group. -/
def Node.render (n : Node) : Text := RenderStep.write (3 * n.below.count + 3) [.node n]

/-- The pattern of the trie without members: it matches nothing, not even the empty text. -/
def Trie.neverMatches : Text := "(?:[^\\s\\S])".toList

/-- The pattern that matches the members of a trie, as one group. -/
def Trie.pattern (t : Trie) : Text :=
  if t.isEmpty then neverMatches else RenderStep.opening ++ t.root.render ++ [')']

end Unmangle
