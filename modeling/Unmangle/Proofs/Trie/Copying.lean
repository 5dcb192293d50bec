import Mathlib.Algebra.GroupWithZero.Nat
import Unmangle.Proofs.Trie.Shape
import Unmangle.Trie.Copy

set_option autoImplicit false

/-! # A copy equals its source

The copying loop keeps one frame for each node on the way down. At any moment the frames determine
the tree that the loop will end with: each frame becomes its node once its pending children are in
place (`CopyFrame.outcome`), and the frame below it takes that node as a child
(`CopyFrame.resume`). No step changes this tree (`CopyFrame.run_eq`), and at the start it is the
source.
-/

namespace Unmangle

namespace Branches

/-- Children pushed back one by one, the last one first, are the children again. -/
theorem foldl_push_toList (b : Branches) :
    b.toList.reverse.foldl (fun built e => built.push e.1 e.2) .nil = b := by
  induction b with
  | nil => rfl
  | cons key label ends below rest _ ih =>
      rw [toList, List.reverse_cons, List.foldl_append, ih]
      rfl

end Branches

namespace CopyFrame

/-- The node that a frame becomes once its pending children are in place. -/
def outcome (f : CopyFrame) : Node :=
  { f.source with below := f.pending.foldl (fun built e => built.push e.1 e.2) f.built }

/-- What the waiting frames make of a finished node. -/
def resume : Node → List (Char × CopyFrame) → Node
  | n, [] => n
  | n, (c, parent) :: rest =>
      resume (outcome { parent with built := parent.built.push c n }) rest

theorem outcome_start (n : Node) : (start n).outcome = n := by
  show { n with below := n.below.toList.reverse.foldl _ .nil } = n
  rw [Branches.foldl_push_toList]

/-! ## The number of steps -/

/-- The steps that some pending children take: one to go down to each node and one to come back. -/
def work (pending : List (Char × Node)) : Nat :=
  (pending.map fun e => 2 * e.2.below.count + 2).sum

theorem work_reverse_toList (b : Branches) : work b.toList.reverse = 2 * b.count := by
  induction b with
  | nil => rfl
  | cons key label ends below rest _ ih =>
      rw [work, List.map_reverse, List.sum_reverse] at ih ⊢
      rw [Branches.toList, List.map_cons, List.sum_cons, ih, Branches.count]
      show 2 * below.count + 2 + 2 * rest.count = _
      omega

/-- The steps that a frame and the frames that wait for it take. -/
def workAll (f : CopyFrame) (waiting : List (Char × CopyFrame)) : Nat :=
  work f.pending + (waiting.map fun e => work e.2.pending + 1).sum

/-- **The loop.** With enough steps it ends in the tree that its frames determine. -/
theorem run_eq (steps : Nat) (f : CopyFrame) (waiting : List (Char × CopyFrame))
    (h : workAll f waiting ≤ steps) : run steps f waiting = resume f.outcome waiting := by
  induction steps generalizing f waiting with
  | zero =>
      obtain ⟨source, pending, built⟩ := f
      cases pending with
      | cons e more =>
          simp only [workAll, work, List.map_cons, List.sum_cons] at h
          omega
      | nil =>
          cases waiting with
          | nil => rfl
          | cons e rest =>
              simp only [workAll, List.map_cons, List.sum_cons] at h
              omega
  | succ steps ih =>
      obtain ⟨source, pending, built⟩ := f
      cases pending with
      | cons e more =>
          obtain ⟨c, child⟩ := e
          -- down to the child, whose frame will come back as the child itself
          have hwork : workAll (start child) ((c, ⟨source, more, built⟩) :: waiting) ≤ steps := by
            have hchild : work (start child).pending = 2 * child.below.count :=
              work_reverse_toList child.below
            simp only [workAll, List.map_cons, List.sum_cons, hchild]
            simp only [workAll, work, List.map_cons, List.sum_cons] at h
            simp only [work]
            omega
          show run steps (start child) ((c, ⟨source, more, built⟩) :: waiting) = _
          rw [ih _ _ hwork, outcome_start]
          rfl
      | nil =>
          cases waiting with
          | nil => rfl
          | cons e rest =>
              obtain ⟨c, parent⟩ := e
              have hwork : workAll { parent with built := parent.built.push c ⟨source.label,
                  source.ends, built⟩ } rest ≤ steps := by
                simp only [workAll, List.map_cons, List.sum_cons] at h ⊢
                omega
              exact ih _ _ hwork

end CopyFrame

/-- A copy of a node is the node. -/
theorem Node.copy_eq (n : Node) : n.copy = n := by
  have hwork : CopyFrame.workAll (.start n) [] ≤ 2 * n.below.count + 1 := by
    have hstart : CopyFrame.work (CopyFrame.start n).pending = 2 * n.below.count :=
      CopyFrame.work_reverse_toList n.below
    simp only [CopyFrame.workAll, hstart, List.map_nil, List.sum_nil]
    omega
  rw [copy, CopyFrame.run_eq _ _ _ hwork, CopyFrame.outcome_start]
  rfl

/-- A copy of a trie is the trie. -/
theorem Trie.copy_eq (t : Trie) : t.copy = t := by
  rw [copy, Node.copy_eq]

end Unmangle
