import Unmangle.Trie.Render

set_option autoImplicit false

/-! # The outline of a trie

An indented view for readers, one unbranched run of characters a line. A dollar sign at the end of
a line marks that a member ends there; alone on the first line it stands for the empty text. The
printer keeps the nodes still to print on a stack, each with the depth of its line.
-/

namespace Unmangle

namespace Outline

/-- The mark of a line at whose end a member ends. -/
def endMark (ends : Bool) : Text := if ends then ['$'] else []

/-- The line of a node: the run that starts there, two blanks further in for each level. -/
def line (depth : Nat) (n : Node) : Text :=
  List.replicate (2 * depth) ' ' ++ n.run.1 ++ endMark n.run.2.ends

/-- Puts children on a stack, the last one first. -/
def push (depth : Nat) (children : List (Char × Node)) (stack : List (Nat × Node)) :
    List (Nat × Node) :=
  children.reverse.foldl (fun stack e => (depth, e.2) :: stack) stack

/-- Prints the nodes on a stack with all that is below them, one line a step. -/
def lines : Nat → List (Nat × Node) → List Text
  | _, [] => []
  | 0, _ :: _ => []
  | steps + 1, (depth, n) :: stack =>
      line depth n :: lines steps (push (depth + 1) n.run.2.below.toList stack)

end Outline

namespace Trie

/-- The lines of the outline. There is no line without a node of its own. -/
def outlineLines (t : Trie) : List Text :=
  (if t.root.ends then [Outline.endMark true] else []) ++
    Outline.lines t.root.below.count (Outline.push 0 t.root.below.toList [])

def outline (t : Trie) : Text := ['\n'].intercalate t.outlineLines

/-- A short summary for logs: the number of members, the root's children and its mark. -/
def summary (t : Trie) : String :=
  "Trie \x7b len: " ++ toString t.size ++ ", root: Node \x7b character: None, children: " ++
    toString t.root.below.size ++ ", terminal: " ++ toString t.root.ends ++ " \x7d \x7d"

end Trie

end Unmangle
