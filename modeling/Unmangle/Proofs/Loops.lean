import Mathlib.Logic.Relation

set_option autoImplicit false

/-! # Loops

A loop is told by the steps that it can make from each state; it is over where it can make none. A
loop over things without an order can make more than one step from a state, and it has to do its
work whichever it makes (`EndsWithin`).

For that it is enough to know what every step keeps, and an amount of work that every step makes
less (`LoopInvariant`). A function that runs a loop with a number of steps to go gives what is given
where the loop is over (`EndsWithin.run_eq`).
-/

namespace Unmangle

variable {σ : Type} {step : σ → σ → Prop} {good holds : σ → Prop} {work : σ → Nat} {n : Nat}
  {s s' : σ}

/-- Whichever steps a loop makes from a state, it is over after no more than a number of them, and
then in a state with a property. -/
inductive EndsWithin (step : σ → σ → Prop) (good : σ → Prop) : Nat → σ → Prop
  | ended {n : Nat} {s : σ} (hover : ∀ s', ¬ step s s') (hgood : good s) :
      EndsWithin step good n s
  | next {n : Nat} {s : σ} (hmore : ∃ s', step s s')
      (hnext : ∀ s', step s s' → EndsWithin step good n s') : EndsWithin step good (n + 1) s

/-- What is the same before and after each step, with one step to go less after it, is what it is in
the end. -/
theorem EndsWithin.run_eq {α : Type} {run : Nat → σ → α} {a : α} (h : EndsWithin step good n s)
    (hstep : ∀ n s s', step s s' → run (n + 1) s = run n s')
    (hgood : ∀ n s, good s → run n s = a) : run n s = a := by
  induction h with
  | ended _ hend => exact hgood _ _ hend
  | next hmore _ ih =>
      obtain ⟨s', hs'⟩ := hmore
      rw [hstep _ _ _ hs', ih s' hs']

/-- A property that every step keeps while there is less and less work, and that a state where the
loop is over turns into another property. -/
structure LoopInvariant (step : σ → σ → Prop) (good holds : σ → Prop) (work : σ → Nat) : Prop where
  kept : ∀ s s', holds s → step s s' → holds s' ∧ work s' < work s
  ended : ∀ s, holds s → (∀ s', ¬ step s s') → good s

namespace LoopInvariant

/-- The property holds after any steps. -/
theorem holds_of_run (h : LoopInvariant step good holds work) (hs : holds s)
    (hrun : Relation.ReflTransGen step s s') : holds s' := by
  induction hrun with
  | refl => exact hs
  | tail _ hstep ih => exact (h.kept _ _ ih hstep).1

/-- The loop is over after as many steps as there is work. -/
theorem endsWithin (h : LoopInvariant step good holds work) (hs : holds s) (hwork : work s ≤ n) :
    EndsWithin step good n s := by
  induction n generalizing s with
  | zero =>
      refine .ended (fun s' hstep => ?_) (h.ended s hs fun s' hstep => ?_) <;>
        exact absurd (h.kept s s' hs hstep).2 (by omega)
  | succ n ih =>
      by_cases hmore : ∃ s', step s s'
      · refine .next hmore fun s' hstep => ?_
        obtain ⟨hs', hless⟩ := h.kept s s' hs hstep
        exact ih hs' (by omega)
      · have hover : ∀ s', ¬ step s s' := not_exists.1 hmore
        exact .ended hover (h.ended s hs hover)

end LoopInvariant

end Unmangle
