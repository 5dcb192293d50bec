import Unmangle.Proofs.Trie.Canonical

set_option autoImplicit false

/-! # The pattern of a node by recursion

What the writer of patterns makes of a node is told here without its stack, by recursion on the
tree: the characters from the node down to the end of its run, and a group of what is written for
the children there, if there are any (`Node.rendering`). The writer ends with this text, and on the
way what is written so far and the renderings of what is on the stack are this text together
(`Writing.loopInvariant_rendering`).

The main statement is `Trie.writes_rendering`.
-/

namespace Unmangle

open RenderStep

/-! ## Runs -/

namespace Node

/-- A run goes from a node through nodes at which no member ends and that have one child, to a node
that is not of this kind. Its text are the characters of all these nodes, both ends included. -/
inductive RunsTo : Node → Text → Node → Prop
  | stop {n : Node} (hstop : n.ends = true ∨ n.below.size ≠ 1) : RunsTo n n.label.toList n
  | next {n child m : Node} {c : Char} {span : Text} (hends : n.ends = false)
      (honly : n.below.toList = [(c, child)]) (hrun : RunsTo child span m) :
      RunsTo n (n.label.toList ++ span) m

end Node

theorem Branches.runsTo_run (label : Option Char) (ends : Bool) (b : Branches) :
    Node.RunsTo ⟨label, ends, b⟩ (b.run label ends).1 (b.run label ends).2 := by
  fun_induction run label ends b with
  | case1 label key label' ends' below => exact .stop (.inl rfl)
  | case2 label ends key label' ends' below hends tail ih =>
      exact .next (Bool.eq_false_iff.2 hends) rfl ih
  | case3 label ends below hrun =>
      refine .stop (.inr fun hsize => ?_)
      cases below with
      | nil => cases hsize
      | cons key label' ends' low rest =>
          cases rest with
          | nil => exact hrun key label' ends' low rfl
          | cons => simp [size] at hsize

/-! ## The rendering of a node -/

namespace Node

/-- The pattern of a node and all below it: the run of the node, and where it stops a group of the
patterns of the children there, optional where a member ends. -/
def rendering (n : Node) : Text :=
  Pattern.escape n.run.1 ++
    if n.run.2.below.isEmpty then []
    else
      opening ++
        (['|'].intercalate (n.run.2.below.toList.attach.map fun e => e.1.2.rendering) ++
          closing n.run.2.ends)
termination_by n.below.count
decreasing_by
  exact lt_of_lt_of_le (Branches.count_lt_of_mem e.2)
    (Branches.count_run_le n.label n.ends n.below)

theorem rendering_eq (n : Node) :
    n.rendering = Pattern.escape n.run.1 ++
      if n.run.2.below.isEmpty then []
      else opening ++ (['|'].intercalate (n.run.2.below.toList.map fun e => e.2.rendering) ++
        closing n.run.2.ends) := by
  have hchildren : (n.run.2.below.toList.attach.map fun e => e.1.2.rendering) =
      n.run.2.below.toList.map fun e => e.2.rendering :=
    List.attach_map_val (f := fun e : Char × Node => e.2.rendering)
  rw [rendering, hchildren]

end Node

/-- What a step on the stack is rendered as. -/
def RenderStep.rendering : RenderStep → Text
  | .node n => n.rendering
  | .text t => t

/-- Alternatives stand for what their nodes stand for, with a bar between each two of them. -/
theorem RenderStep.outcome_alternatives_eq (children : List (Char × Node)) :
    (alternatives children).flatMap outcome =
      ['|'].intercalate (children.map fun e => Pattern.written e.2.parts) := by
  have hmore : ∀ (first : Text) (rest : List (Char × Node)),
      first ++ (rest.flatMap fun e => [.text ['|'], .node e.2]).flatMap outcome =
        ['|'].intercalate (first :: rest.map fun e => Pattern.written e.2.parts) := by
    intro first rest
    induction rest generalizing first with
    | nil => simp
    | cons e rest ih =>
        rw [List.flatMap_cons, List.flatMap_append, List.map_cons, List.intercalate_cons_cons, ← ih]
        simp [outcome]
  cases children with
  | nil => rfl
  | cons e rest =>
      rw [alternatives, List.flatMap_cons]
      exact hmore _ rest

/-- The rendering of a node is the written form of its tokens: by induction on the number of nodes,
since the children where a run stops are not children of the node itself. -/
theorem Node.rendering_eq_written (n : Node) : n.rendering = Pattern.written n.parts := by
  induction hcount : n.below.count using Nat.strong_induction_on generalizing n with
  | _ count ih =>
      have hchildren : n.run.2.below.toList.map (fun e => e.2.rendering) =
          n.run.2.below.toList.map fun e => Pattern.written e.2.parts := by
        refine List.map_congr_left fun e he => ih _ ?_ e.2 rfl
        rw [← hcount]
        exact lt_of_lt_of_le (Branches.count_lt_of_mem he)
          (Branches.count_run_le n.label n.ends n.below)
      rw [rendering_eq, hchildren, ← outcome_alternatives_eq]
      exact (outcome_node n).symm

theorem RenderStep.rendering_eq_outcome : rendering = outcome := by
  funext s
  cases s with
  | node n => exact n.rendering_eq_written
  | text t => rfl

namespace Writing

def start (n : Node) : Writing := ⟨[], [.node n]⟩

/-- From a node on, what is written so far and the renderings of what is on the stack are the
rendering of the node all the time. -/
theorem loopInvariant_rendering (n : Node) :
    LoopInvariant Step (· = ⟨n.rendering, []⟩)
      (fun w => w.out ++ w.stack.flatMap RenderStep.rendering = n.rendering)
      (fun w => (w.stack.map work).sum) := by
  rw [rendering_eq_outcome]
  exact loopInvariant n.rendering

theorem holds_start (n : Node) :
    (start n).out ++ (start n).stack.flatMap RenderStep.rendering = n.rendering :=
  List.append_nil _

/-- The writer is done with a node after no more than three steps for each node below it and one
more. -/
theorem start_endsWithin (n : Node) :
    EndsWithin Step (· = ⟨n.rendering, []⟩) (3 * n.below.count + 1) (start n) :=
  (loopInvariant_rendering n).endsWithin (holds_start n) (Nat.le_refl _)

end Writing

theorem Node.render_eq_rendering (n : Node) : n.render = n.rendering := by
  rw [render_eq, rendering_eq_written]

namespace Trie

/-- **The writer of patterns.** For the root of a trie that any history has made, the loop of the
writer is over after a limited number of steps with the rendering of the root as its output and an
empty stack. At every moment before, the output so far and the renderings of what is on the stack
are this rendering together. The rendering of a node is its run, down to a node that ends it, and a
group of the renderings of the children there, optional if a member ends there, unless there are
none. All children stand in ascending order, each under its own character. -/
theorem writes_rendering (ops : List Operation) (slot : Nat) :
    let root := (after ops slot).root
    root.render = root.rendering ∧
    EndsWithin Writing.Step (· = ⟨root.rendering, []⟩) (3 * root.below.count + 1)
      (Writing.start root) ∧
    (∀ w, Relation.ReflTransGen Writing.Step (Writing.start root) w →
      w.out ++ w.stack.flatMap RenderStep.rendering = root.rendering) ∧
    (∀ n : Node, ∃ span m, n.RunsTo span m ∧
      n.rendering = Pattern.escape span ++
        if m.below.isEmpty then []
        else "(?:".toList ++ (['|'].intercalate (m.below.toList.map fun e => e.2.rendering) ++
          if m.ends then ")?".toList else ")".toList)) ∧
    ∀ q n, root.descend q = some n →
      n.below.toList.Pairwise (fun e f => e.1 < f.1) ∧
        ∀ e ∈ n.below.toList, e.2.label = some e.1 := by
  intro root
  obtain ⟨s, hs⟩ := after_represents ops slot
  refine ⟨root.render_eq_rendering, Writing.start_endsWithin root, fun w hrun => ?_, fun n => ?_,
    fun q n hn => ?_⟩
  · exact (Writing.loopInvariant_rendering root).holds_of_run (Writing.holds_start root) hrun
  · exact ⟨n.run.1, n.run.2, Branches.runsTo_run n.label n.ends n.below, n.rendering_eq⟩
  · have hsound := Node.descend_sound hs.sound.2 hn
    refine ⟨hsound.ordered.pairwise_toList, fun e he => ?_⟩
    exact (hsound.child (hsound.ordered.find?_of_mem he)).1

end Trie

end Unmangle
