import Mathlib.Algebra.GroupWithZero.Nat
import Unmangle.Proofs.Loops
import Unmangle.Proofs.Pattern.Tokens
import Unmangle.Trie.Render

set_option autoImplicit false

/-! # What the writer of patterns writes

The tokens of a subtree are defined by recursion on the tree: a node is its character followed by
its children joined together, where an only child just continues the text unless a member ends at
the node. The writer, which keeps nodes and pieces of text on a stack and takes whole runs of nodes
at once, writes these tokens: each of its steps moves the text of what is on top of the stack to
the output and leaves output and stack together the same (`Writing.loopInvariant`), so in the end
the output is what was on the stack at first (`RenderStep.write_eq`).

The main statement is `Trie.pattern_eq_written`: the pattern of a trie is one group.
-/

namespace Unmangle

open Pattern (Token)

/-- The tokens of the alternatives below a node. A single one needs no group of its own, unless a
member ends at the node. -/
def joinedTokens (ends : Bool) : List (List Token) → List Token
  | [] => []
  | [part] => if ends then Pattern.groupTokens ends [part] else part
  | parts => Pattern.groupTokens ends parts

/-- The tokens of each child with all below it. -/
def Branches.parts : Branches → List (List Token)
  | .nil => []
  | .cons _ label ends below rest =>
      (label.toList.map .literal ++ joinedTokens ends below.parts) :: rest.parts

def Node.parts (n : Node) : List Token :=
  n.label.toList.map .literal ++ joinedTokens n.ends n.below.parts

namespace Branches

theorem parts_eq_map (b : Branches) : b.parts = b.toList.map fun e => e.2.parts := by
  induction b with
  | nil => rfl
  | cons key label ends below rest _ ih => rw [parts, ih, toList, List.map_cons, Node.parts]

/-! ## Runs -/

/-- Following a run does not change what is written: the run is a literal, and where it stops
either nothing or a group follows. -/
theorem run_parts (label : Option Char) (ends : Bool) (b : Branches) :
    Node.parts ⟨label, ends, b⟩ = (b.run label ends).1.map .literal ++
      if (b.run label ends).2.below.isEmpty then []
      else Pattern.groupTokens (b.run label ends).2.ends (b.run label ends).2.below.parts := by
  fun_induction run label ends b with
  | case1 => rfl
  | case2 label ends key label' ends' below hends tail ih =>
      rw [List.map_append, List.append_assoc, ← ih]
      simp [Node.parts, parts, joinedTokens, hends]
  | case3 label ends below hrun =>
      cases below with
      | nil => rfl
      | cons key label' ends' low rest =>
          cases rest with
          | nil => exact (hrun key label' ends' low rfl).elim
          | cons => rfl

/-- A run stops in the subtree where it starts. -/
theorem count_run_le (label : Option Char) (ends : Bool) (b : Branches) :
    (b.run label ends).2.below.count ≤ b.count := by
  fun_induction run label ends b with
  | case1 => exact Nat.le_refl _
  | case2 label ends key label' ends' below hends tail ih =>
      exact Nat.le_trans ih (Nat.le_succ _)
  | case3 => exact Nat.le_refl _

end Branches

namespace RenderStep

open Pattern

/-- The text that a step on the stack stands for. -/
def outcome : RenderStep → Text
  | .node n => written n.parts
  | .text t => t

/-- A bound on the steps of the writer for one step on the stack and all that it puts there. -/
def work : RenderStep → Nat
  | .node n => 3 * n.below.count + 1
  | .text _ => 1

/-- The steps that write alternatives stand for the tokens of the alternatives. -/
theorem outcome_alternatives (b : Branches) :
    (alternatives b.toList).flatMap outcome = written (alternation b.parts) := by
  rw [Branches.parts_eq_map]
  cases b.toList with
  | nil => rfl
  | cons e rest =>
      rw [alternatives, List.flatMap_cons, List.map_cons, alternation, written_append]
      refine congrArg (written e.2.parts ++ ·) ?_
      induction rest with
      | nil => rfl
      | cons e rest ih =>
          have hbar : ∀ ts, written (.bar :: ts) = '|' :: written ts := fun _ => rfl
          have hpair : [RenderStep.text ['|'], .node e.2].flatMap outcome =
              '|' :: written e.2.parts := by
            show '|' :: (written e.2.parts ++ []) = _
            rw [List.append_nil]
          rw [List.flatMap_cons, List.flatMap_append, hpair, ih]
          show _ = written (.bar :: (e.2.parts ++ _))
          rw [hbar, written_append]
          rfl

/-- Alternatives take fewer than three steps for each node in them. -/
theorem work_alternatives (b : Branches) (h : b.isEmpty = false) :
    ((alternatives b.toList).map work).sum + 1 ≤ 3 * b.count := by
  have hmore : ∀ b : Branches, ((b.toList.flatMap fun e => [RenderStep.text ['|'],
      .node e.2]).map work).sum ≤ 3 * b.count := by
    intro b
    induction b with
    | nil => exact Nat.le_refl 0
    | cons key label ends below rest _ ih =>
        rw [Branches.toList, List.flatMap_cons, List.map_append, List.sum_append, Branches.count]
        simp only [List.map_cons, List.map_nil, List.sum_cons, List.sum_nil, work]
        omega
  cases b with
  | nil => cases h
  | cons key label ends below rest =>
      have hrest := hmore rest
      rw [Branches.toList, alternatives, List.map_cons, List.sum_cons, work, Branches.count]
      show 3 * below.count + 1 + _ + 1 ≤ _
      omega

theorem written_closing (optional : Bool) :
    written (closingTokens optional) = closing optional := by
  cases optional <;> rfl

theorem written_group (optional : Bool) (parts : List (List Token)) :
    written (groupTokens optional parts) =
      opening ++ (written (alternation parts) ++ closing optional) := by
  rw [← written_closing, ← written_append]
  rfl

/-- A node stands for its run and for a group of what is below its stop, if there is anything. -/
theorem outcome_node (n : Node) :
    outcome (.node n) = escape n.run.1 ++
      if n.run.2.below.isEmpty then []
      else opening ++ ((alternatives n.run.2.below.toList).flatMap outcome ++
        closing n.run.2.ends) := by
  have hrun : n.parts = n.run.1.map .literal ++
      if n.run.2.below.isEmpty then []
      else groupTokens n.run.2.ends n.run.2.below.parts :=
    Branches.run_parts n.label n.ends n.below
  rw [outcome, hrun, written_append, written_literals]
  refine congrArg (escape n.run.1 ++ ·) ?_
  cases n.run.2.below.isEmpty with
  | true => rfl
  | false =>
      rw [if_neg Bool.false_ne_true, if_neg Bool.false_ne_true, outcome_alternatives]
      exact written_group _ _

/-- Every step on the stack takes at least one step of the writer. -/
theorem work_pos (s : RenderStep) : 0 < s.work := by
  cases s with
  | node n =>
      show 0 < 3 * n.below.count + 1
      omega
  | text t => exact Nat.one_pos

/-- What a node puts on the stack takes fewer steps than the node. -/
theorem work_node (n : Node) (h : n.run.2.below.isEmpty = false) :
    ((alternatives n.run.2.below.toList).map work).sum + 2 ≤ work (.node n) := by
  have hcount : n.run.2.below.count ≤ n.below.count :=
    Branches.count_run_le n.label n.ends n.below
  have hwork := work_alternatives n.run.2.below h
  show _ ≤ 3 * n.below.count + 1
  omega

theorem write_node (steps : Nat) (n : Node) (stack : List RenderStep) :
    write (steps + 1) (.node n :: stack) = escape n.run.1 ++
      if n.run.2.below.isEmpty then write steps stack
      else opening ++
        write steps (alternatives n.run.2.below.toList ++ .text (closing n.run.2.ends) :: stack) :=
  rfl

end RenderStep

/-! ## The loop of the writer -/

/-- The writer on its way: what is written so far, and the steps on the stack. -/
structure Writing where
  out : Text
  stack : List RenderStep

namespace Writing

open RenderStep

/-- One step of the writer. A text goes to the output, and so does the run of a node. If anything is
below the stop of the run, a group is opened, and its alternatives and its end are put on the
stack. -/
inductive Step : Writing → Writing → Prop
  | text (out t : Text) (stack : List RenderStep) :
      Step ⟨out, .text t :: stack⟩ ⟨out ++ t, stack⟩
  | leaf (out : Text) {n : Node} (stack : List RenderStep)
      (hempty : n.run.2.below.isEmpty = true) :
      Step ⟨out, .node n :: stack⟩ ⟨out ++ Pattern.escape n.run.1, stack⟩
  | group (out : Text) {n : Node} (stack : List RenderStep)
      (hmore : n.run.2.below.isEmpty = false) :
      Step ⟨out, .node n :: stack⟩ ⟨out ++ (Pattern.escape n.run.1 ++ opening),
        alternatives n.run.2.below.toList ++ .text (closing n.run.2.ends) :: stack⟩

/-- The writer goes on while something is on the stack. -/
theorem exists_step (out : Text) (s : RenderStep) (stack : List RenderStep) :
    ∃ w, Step ⟨out, s :: stack⟩ w := by
  cases s with
  | text t => exact ⟨_, .text out t stack⟩
  | node n =>
      cases hempty : n.run.2.below.isEmpty with
      | true => exact ⟨_, .leaf out stack hempty⟩
      | false => exact ⟨_, .group out stack hempty⟩

/-- A step leaves what output and stack stand for together. -/
theorem Step.outcome_eq {w w' : Writing} (h : Step w w') :
    w'.out ++ w'.stack.flatMap outcome = w.out ++ w.stack.flatMap outcome := by
  cases h with
  | text out t stack => exact List.append_assoc _ _ _
  | leaf out stack hempty =>
      rw [List.flatMap_cons, outcome_node, if_pos hempty, List.append_nil, List.append_assoc]
  | group out stack hmore =>
      rw [List.flatMap_cons, outcome_node, hmore, if_neg Bool.false_ne_true, List.flatMap_append,
        List.flatMap_cons]
      simp only [outcome, List.append_assoc]

/-- A step leaves less to do. -/
theorem Step.work_lt {w w' : Writing} (h : Step w w') :
    (w'.stack.map work).sum < (w.stack.map work).sum := by
  cases h with
  | text out t stack =>
      rw [List.map_cons, List.sum_cons]
      exact Nat.lt_add_of_pos_left (work_pos (.text t))
  | @leaf out n stack hempty =>
      rw [List.map_cons, List.sum_cons]
      exact Nat.lt_add_of_pos_left (work_pos (.node n))
  | @group out n stack hmore =>
      -- the alternatives and the end of the group take less than the node did
      have hsmaller := work_node n hmore
      have hend : work (.text (closing n.run.2.ends)) = 1 := rfl
      rw [List.map_append, List.sum_append, List.map_cons, List.sum_cons, List.map_cons,
        List.sum_cons]
      omega

/-- **The loop of the writer.** Output and stack together stand for the same text all the time, and
in the end nothing is on the stack. -/
theorem loopInvariant (total : Text) :
    LoopInvariant Step (· = ⟨total, []⟩) (fun w => w.out ++ w.stack.flatMap outcome = total)
      (fun w => (w.stack.map work).sum) where
  kept w w' hholds hstep := ⟨hstep.outcome_eq.trans hholds, hstep.work_lt⟩
  ended := by
    rintro ⟨out, stack⟩ hholds hover
    cases stack with
    | nil => rw [← hholds, List.flatMap_nil, List.append_nil]
    | cons s stack =>
        obtain ⟨w, hstep⟩ := exists_step out s stack
        exact absurd hstep (hover w)

/-- With one more step the rest is written as it is after the step. -/
theorem Step.append_write {w w' : Writing} (h : Step w w') (steps : Nat) :
    w.out ++ write (steps + 1) w.stack = w'.out ++ write steps w'.stack := by
  cases h with
  | text out t stack => exact (List.append_assoc _ _ _).symm
  | leaf out stack hempty =>
      rw [write_node, if_pos hempty, List.append_assoc]
  | group out stack hmore =>
      rw [write_node, hmore, if_neg Bool.false_ne_true]
      simp only [List.append_assoc]

/-- With as many steps as the loop makes, the stack is written as what is still missing. -/
theorem append_write {total : Text} {steps : Nat} {w : Writing}
    (h : EndsWithin Step (· = ⟨total, []⟩) steps w) : w.out ++ write steps w.stack = total := by
  refine @EndsWithin.run_eq _ _ _ _ _ _ (fun steps w => w.out ++ write steps w.stack) total h
    (fun steps w w' hstep => hstep.append_write steps) ?_
  rintro steps _ rfl
  cases steps <;> exact List.append_nil total

end Writing

/-- With enough steps, what is written is what the stack stands for, from the top to the bottom. -/
theorem RenderStep.write_eq (steps : Nat) (stack : List RenderStep)
    (h : (stack.map work).sum ≤ steps) : write steps stack = stack.flatMap outcome := by
  have hends := (Writing.loopInvariant (stack.flatMap outcome)).endsWithin
    (s := ⟨[], stack⟩) (List.nil_append _) h
  exact Writing.append_write hends

/-- The text of a node is the written form of its tokens. -/
theorem Node.render_eq (n : Node) : n.render = Pattern.written n.parts := by
  have hwork : ([RenderStep.node n].map RenderStep.work).sum ≤ 3 * n.below.count + 3 := by
    show 3 * n.below.count + 1 + 0 ≤ _
    omega
  rw [render, RenderStep.write_eq _ _ hwork]
  simp [RenderStep.outcome]

namespace Trie

/-- The tokens between the ends of the group that the pattern is. For a trie without members this is
the class without characters. -/
def bodyTokens (t : Trie) : List Token := if t.isEmpty then [.never] else t.root.parts

/-- **The pattern is one group.** -/
theorem pattern_eq_written (t : Trie) :
    t.pattern = Pattern.written (.opening :: (t.bodyTokens ++ [.closing])) := by
  have hopen : ∀ ts, Pattern.written (.opening :: ts) = RenderStep.opening ++ Pattern.written ts :=
    fun _ => rfl
  rw [pattern, bodyTokens, hopen, Pattern.written_append]
  cases t.isEmpty with
  | true => rfl
  | false =>
      rw [if_neg Bool.false_ne_true, if_neg Bool.false_ne_true, Node.render_eq, List.append_assoc]
      rfl

end Trie

end Unmangle
