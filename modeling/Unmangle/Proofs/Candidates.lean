import Mathlib.Data.List.Nodup
import Mathlib.Data.List.Perm.Subperm
import Mathlib.Logic.Function.Iterate

set_option autoImplicit false

/-! # Searches for a free candidate

The key of a row and the path of a copy are found in the same way: one candidate after another is
tried until one is free. Such a search makes a limited number of attempts (`Tries`). Where so many
candidates cannot all be taken, the limit does not show, and the search gives the first free one
(`Tries.finds`).

Different candidates that are taken are different members of a list, so there are no more of them
than members (`le_length_of_injective`).
-/

namespace Unmangle

/-- A search tries a candidate and goes on to the next one while it is taken. -/
structure Tries {α : Type} (taken : α → Bool) (next : α → α) (search : Nat → α → α) : Prop where
  last : ∀ a, search 0 a = a
  more : ∀ attempts a,
    search (attempts + 1) a = if taken a = true then search attempts (next a) else a

namespace Tries

variable {α : Type} {taken : α → Bool} {next : α → α} {search : Nat → α → α}

/-- The search stops at the first free candidate, unless the attempts are over before. -/
theorem stops (h : Tries taken next search) (attempts : Nat) (a : α) :
    ∃ n ≤ attempts, search attempts a = next^[n] a ∧ (n < attempts → taken (next^[n] a) = false) ∧
      ∀ k < n, taken (next^[k] a) = true := by
  induction attempts generalizing a with
  | zero =>
      refine ⟨0, Nat.le_refl 0, h.last a, fun hlt => ?_, fun k hk => ?_⟩
      · exact absurd hlt (Nat.lt_irrefl 0)
      · exact absurd hk (Nat.not_lt_zero k)
  | succ attempts ih =>
      rw [h.more]
      cases htaken : taken a with
      | false =>
          rw [if_neg Bool.false_ne_true]
          exact ⟨0, Nat.zero_le _, rfl, fun _ => htaken, fun k hk => absurd hk (Nat.not_lt_zero k)⟩
      | true =>
          obtain ⟨n, hn, heq, hfree, hbefore⟩ := ih (next a)
          rw [if_pos rfl]
          refine ⟨n + 1, Nat.succ_le_succ hn, heq, fun hlt => hfree (by omega), fun k hk => ?_⟩
          cases k with
          | zero => exact htaken
          | succ k => exact hbefore k (by omega)

/-- The search finds the first free candidate if more attempts are made than candidates can be
taken one after another. -/
theorem finds (h : Tries taken next search) {attempts : Nat} {a : α}
    (henough : ∀ n, (∀ k ≤ n, taken (next^[k] a) = true) → n < attempts) :
    ∃ n, search attempts a = next^[n] a ∧ taken (next^[n] a) = false ∧
      ∀ k < n, taken (next^[k] a) = true := by
  obtain ⟨n, hn, heq, hfree, hbefore⟩ := h.stops attempts a
  refine ⟨n, heq, Bool.eq_false_iff.2 fun htaken => ?_, hbefore⟩
  have hlt : n < attempts := by
    refine henough n fun k hk => ?_
    rcases Nat.lt_or_eq_of_le hk with hlt | rfl
    · exact hbefore k hlt
    · exact htaken
  rw [hfree hlt] at htaken
  cases htaken

/-- More attempts than are needed give the same candidate. -/
theorem eq_of_le (h : Tries taken next search) {n attempts : Nat} {a : α}
    (hfree : taken (next^[n] a) = false) (hbefore : ∀ k < n, taken (next^[k] a) = true)
    (hle : n ≤ attempts) : search attempts a = next^[n] a := by
  induction n generalizing a attempts with
  | zero =>
      have hfree : taken a = false := hfree
      cases attempts with
      | zero => exact h.last a
      | succ attempts =>
          rw [h.more, hfree]
          rfl
  | succ n ih =>
      have htaken : taken a = true := hbefore 0 (Nat.succ_pos n)
      cases attempts with
      | zero => exact absurd hle (Nat.not_succ_le_zero n)
      | succ attempts =>
          rw [h.more, if_pos htaken]
          exact ih hfree (fun k hk => hbefore (k + 1) (Nat.succ_lt_succ hk)) (by omega)

end Tries

/-- No more different things are in a list than it has members. -/
theorem le_length_of_injective {β : Type} {f : Nat → β} (hf : Function.Injective f) {l : List β}
    {n : Nat} (h : ∀ k < n, f k ∈ l) : n ≤ l.length := by
  have hnodup : ((List.range n).map f).Nodup := List.Nodup.map hf List.nodup_range
  have hsubset : (List.range n).map f ⊆ l := by
    intro b hb
    obtain ⟨k, hk, rfl⟩ := List.mem_map.1 hb
    exact h k (List.mem_range.1 hk)
  have hlength := (List.subperm_of_subset hnodup hsubset).length_le
  rwa [List.length_map, List.length_range] at hlength

end Unmangle
