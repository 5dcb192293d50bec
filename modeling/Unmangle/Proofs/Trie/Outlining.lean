import Unmangle.Proofs.Trie.Rendering
import Unmangle.Trie.Outline

set_option autoImplicit false

/-! # The outline of a trie by recursion

What the printer of outlines makes of some children is told here without its stack, by recursion on
the tree: a run goes on into an only child, unless a member ends before it, and where it stops its
line stands before the lines of the children there (`Branches.outline`). On its way the printer has
some lines and a stack, and together they stand for the same lines all the time
(`Printing.loopInvariant`).

The main statement is `Trie.outlineLines_eq`.
-/

namespace Unmangle

open Outline

/-! ## The lines by recursion -/

/-- The lines of some children. The run holds the characters since the last branch point, the last
one first; it goes on while a node has a single child and no member ends at it. -/
def Branches.outline (depth : Nat) (run : Text) : Branches → List Text
  | .nil => []
  | .cons _ label ends below rest =>
      let run := label.toList ++ run
      (if !ends && below.size == 1 then below.outline depth run
       else (List.replicate (2 * depth) ' ' ++ run.reverse ++ endMark ends) ::
         below.outline (depth + 1) [])
        ++ rest.outline depth []

/-- The lines of a node: its own, and those of the children where its run stops. -/
def Node.outline (depth : Nat) (n : Node) : List Text :=
  line depth n :: n.run.2.below.outline (depth + 1) []

namespace Branches

variable {depth : Nat} {run : Text}

/-- The lines of the first child come first. -/
theorem outline_cons (key : Char) (label : Option Char) (ends : Bool) (below rest : Branches) :
    (cons key label ends below rest).outline depth run =
      (cons key label ends below .nil).outline depth run ++ rest.outline depth [] := by
  rw [outline, outline, outline, List.append_nil]

/-- A run that has begun goes on with the run of the node. -/
theorem outline_single (key : Char) (label : Option Char) (ends : Bool) (below : Branches) :
    (cons key label ends below .nil).outline depth run =
      (List.replicate (2 * depth) ' ' ++ (run.reverse ++ (below.run label ends).1) ++
        endMark (below.run label ends).2.ends) ::
          (below.run label ends).2.below.outline (depth + 1) [] := by
  have hlabel (label : Option Char) (run : Text) :
      (label.toList ++ run).reverse = run.reverse ++ label.toList := by
    cases label <;> simp
  rw [outline, outline, List.append_nil]
  -- the run stops at once, unless what is below is a single child and no member ends before it
  induction below generalizing key label ends run with
  | nil =>
      have hstop : Branches.nil.run label ends = (label.toList, ⟨label, ends, .nil⟩) := rfl
      rw [hstop, hlabel, if_neg (by cases ends <;> decide)]
  | cons key' label' ends' low rest ih =>
      cases rest with
      | cons key'' label'' ends'' low' rest =>
          have hstop : (cons key' label' ends' low (cons key'' label'' ends'' low' rest)).run
              label ends = (label.toList, ⟨label, ends, _⟩) := rfl
          rw [hstop, hlabel, if_neg (by simp [size])]
      | nil =>
          rw [Branches.run, size, size]
          cases ends with
          | true => rw [if_pos rfl, if_neg (by decide), hlabel]
          | false =>
              rw [if_pos (by decide), if_neg Bool.false_ne_true, outline, outline, List.append_nil,
                ih key', hlabel, List.append_assoc run.reverse]

/-- The children are printed one after another. -/
theorem outline_eq_flatMap (b : Branches) :
    b.outline depth [] = b.toList.flatMap fun e => e.2.outline depth := by
  induction b with
  | nil => rfl
  | cons key label ends below rest _ ih =>
      rw [outline_cons, ih, outline_single, toList, List.flatMap_cons]
      rfl

end Branches

/-! ## The loop of the printer -/

namespace Outline

/-- What is put on a stack stands there in order, each with the depth of its line. -/
theorem push_eq (depth : Nat) (children : List (Char × Node)) (stack : List (Nat × Node)) :
    push depth children stack = children.map (depth, ·.2) ++ stack := by
  unfold push
  rw [List.foldl_reverse]
  induction children with
  | nil => rfl
  | cons e children ih => rw [List.foldr_cons, ih, List.map_cons, List.cons_append]

end Outline

/-- The printer on its way: the lines so far, and the nodes on the stack. -/
structure Printing where
  out : List Text
  stack : List (Nat × Node)

namespace Printing

/-- One step of the printer: the line of the node on top, and then the children where its run stops
are put on the stack. -/
inductive Step : Printing → Printing → Prop
  | node (out : List Text) (depth : Nat) (n : Node) (stack : List (Nat × Node)) :
      Step ⟨out, (depth, n) :: stack⟩
        ⟨out ++ [line depth n], push (depth + 1) n.run.2.below.toList stack⟩

/-- The lines that the nodes on the stack stand for. -/
def outcome (w : Printing) : List Text := w.stack.flatMap fun e => e.2.outline e.1

/-- The nodes that the printer still goes through, at most. -/
def work (w : Printing) : Nat := (w.stack.map fun e => e.2.below.count + 1).sum

variable {w w' : Printing}

/-- The nodes of some children, each with all below it. -/
theorem sum_count (depth : Nat) (b : Branches) :
    ((b.toList.map (depth, ·.2)).map fun e : Nat × Node => e.2.below.count + 1).sum = b.count := by
  induction b with
  | nil => rfl
  | cons key label ends below rest _ ih =>
      rw [Branches.toList, List.map_cons, List.map_cons, List.sum_cons, ih, Branches.count]
      show below.count + 1 + rest.count = _
      omega

theorem outcome_push (out : List Text) (depth : Nat) (b : Branches) (stack : List (Nat × Node)) :
    outcome ⟨out, push depth b.toList stack⟩ = b.outline depth [] ++ outcome ⟨out, stack⟩ := by
  unfold outcome
  rw [push_eq, List.flatMap_append, List.flatMap_map, Branches.outline_eq_flatMap]

theorem work_push (out : List Text) (depth : Nat) (b : Branches) (stack : List (Nat × Node)) :
    work ⟨out, push depth b.toList stack⟩ = b.count + work ⟨out, stack⟩ := by
  unfold work
  rw [push_eq, List.map_append, List.sum_append, sum_count]

/-- A step leaves what the lines and the stack stand for together. -/
theorem Step.outcome_eq (h : Step w w') : w'.out ++ w'.outcome = w.out ++ w.outcome := by
  cases h with
  | node out depth n stack =>
      rw [outcome_push, List.append_assoc]
      rfl

/-- A step leaves less to do. -/
theorem Step.work_lt (h : Step w w') : w'.work < w.work := by
  cases h with
  | node out depth n stack =>
      have hcount : n.run.2.below.count ≤ n.below.count :=
        Branches.count_run_le n.label n.ends n.below
      rw [work_push]
      show n.run.2.below.count + work ⟨out, stack⟩ < n.below.count + 1 + work ⟨out, stack⟩
      exact Nat.add_lt_add_right (Nat.lt_succ_of_le hcount) _

/-- **The loop of the printer.** Lines and stack together stand for the same lines all the time, and
in the end nothing is on the stack. -/
theorem loopInvariant (total : List Text) :
    LoopInvariant Step (· = ⟨total, []⟩) (fun w => w.out ++ w.outcome = total) work where
  kept w w' hholds hstep := ⟨hstep.outcome_eq.trans hholds, hstep.work_lt⟩
  ended := by
    rintro ⟨out, stack⟩ hholds hover
    -- with a node on the stack the printer could go on
    cases stack with
    | nil => rw [← hholds, outcome, List.flatMap_nil, List.append_nil]
    | cons e stack => exact absurd (.node out e.1 e.2 stack) (hover _)

/-- With one more step the rest is printed as it is after the step. -/
theorem Step.append_lines (h : Step w w') (steps : Nat) :
    w.out ++ lines (steps + 1) w.stack = w'.out ++ lines steps w'.stack := by
  cases h with
  | node out depth n stack => rw [lines, List.append_assoc, List.singleton_append]

/-- With as many steps as the loop makes, the stack is printed as what is still missing. -/
theorem append_lines {total : List Text} {steps : Nat}
    (h : EndsWithin Step (· = ⟨total, []⟩) steps w) : w.out ++ lines steps w.stack = total := by
  refine @EndsWithin.run_eq _ _ _ _ _ _ (fun steps w => w.out ++ lines steps w.stack) total h
    (fun steps w w' hstep => hstep.append_lines steps) ?_
  rintro steps _ rfl
  cases steps <;> exact List.append_nil total

end Printing

/-- **The printer.** The lines of an outline are those of the children of the root, after the mark
of the empty text if it is a member. -/
theorem Trie.outlineLines_eq (t : Trie) :
    t.outlineLines =
      (if t.root.ends then [endMark true] else []) ++ t.root.below.outline 0 [] := by
  have hwork : Printing.work ⟨[], push 0 t.root.below.toList []⟩ ≤ t.root.below.count :=
    Nat.le_of_eq (Printing.work_push [] 0 t.root.below [])
  have hprinted := Printing.append_lines
    ((Printing.loopInvariant (Printing.outcome ⟨[], push 0 t.root.below.toList []⟩)).endsWithin
      (List.nil_append _) hwork)
  rw [outlineLines, ← List.nil_append (Outline.lines _ _), hprinted, Printing.outcome_push]
  exact congrArg _ (List.append_nil _)

end Unmangle
