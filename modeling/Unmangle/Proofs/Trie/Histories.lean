import Mathlib.Data.Finset.Card
import Unmangle.Proofs.Trie.Copying
import Unmangle.Proofs.Trie.Members

set_option autoImplicit false

/-! # Tries as finite sets of texts

A trie represents a finite set when it is sound, contains the members of the set and counts them.
Every operation keeps this relation to the operation of the same name on sets, so after any history
of operations on any number of tries each trie represents the set that the same history makes
(`Trie.history_represents`), and the answers on the way are those that the sets give.

The main statement is `Trie.history_refines_sets`.
-/

namespace Unmangle

namespace Trie

/-- The trie stands for a finite set: it is sound, has the same members and counts them. -/
structure Represents (t : Trie) (s : Finset Text) : Prop where
  sound : t.Sound
  contains_iff (w : Text) : t.contains w = true ↔ w ∈ s
  size_eq : t.size = s.card

namespace Represents

variable {t : Trie} {s : Finset Text}

theorem empty : Represents .empty ∅ where
  sound := sound_empty
  contains_iff w := by simp
  size_eq := rfl

theorem contains_eq_decide (h : t.Represents s) (w : Text) :
    t.contains w = decide (w ∈ s) := by
  rw [Bool.eq_iff_iff, h.contains_iff, decide_eq_true_iff]

theorem isEmpty_iff (h : t.Represents s) : t.isEmpty = true ↔ s = ∅ := by
  rw [isEmpty, beq_iff_eq, h.size_eq, Finset.card_eq_zero]

/-! ## One operation -/

theorem insert_fst (h : t.Represents s) (w : Text) : (t.insert w).1 = decide (w ∉ s) := by
  rw [Trie.insert_fst, h.contains_eq_decide, decide_not]

theorem insert (h : t.Represents s) (w : Text) : (t.insert w).2.Represents (Insert.insert w s) where
  sound := h.sound.insert w
  contains_iff v := by rw [contains_insert, h.contains_iff, Finset.mem_insert]
  size_eq := by
    rw [size_insert, h.size_eq]
    by_cases hw : w ∈ s
    · rw [if_pos ((h.contains_iff w).2 hw), Finset.insert_eq_of_mem hw]
    · rw [if_neg (mt (h.contains_iff w).1 hw), Finset.card_insert_of_notMem hw]

/-- An insertion that answers false leaves the trie as it was. -/
theorem insert_of_fst_eq_false (h : t.Represents s) {w : Text} (hw : (t.insert w).1 = false) :
    (t.insert w).2 = t := by
  rw [Trie.insert_fst, Bool.not_eq_false'] at hw
  exact h.sound.insert_of_contains hw

theorem erase_fst (h : t.Represents s) (w : Text) : (t.erase w).1 = decide (w ∈ s) := by
  rw [h.sound.erase_fst, h.contains_eq_decide]

theorem erase (h : t.Represents s) (w : Text) : (t.erase w).2.Represents (s.erase w) where
  sound := h.sound.erase w
  contains_iff v := by rw [h.sound.contains_erase, h.contains_iff, Finset.mem_erase]
  size_eq := by
    rw [h.sound.size_erase, h.size_eq]
    by_cases hw : w ∈ s
    · rw [if_pos ((h.contains_iff w).2 hw), Finset.card_erase_of_mem hw]
    · rw [if_neg (mt (h.contains_iff w).1 hw), Finset.erase_eq_of_notMem hw]

/-- A removal that answers false leaves the trie as it was. -/
theorem erase_of_fst_eq_false (h : t.Represents s) {w : Text} (hw : (t.erase w).1 = false) :
    (t.erase w).2 = t := by
  rw [h.sound.erase_fst] at hw
  rw [erase_of_not_contains hw]

theorem extend (h : t.Represents s) (ws : List Text) :
    (t.extend ws).Represents (s ∪ ws.toFinset) := by
  induction ws generalizing t s with
  | nil =>
      rw [List.toFinset_nil, Finset.union_empty]
      exact h
  | cons w ws ih =>
      have hstep := ih (h.insert w)
      rw [List.toFinset_cons, Finset.union_insert, ← Finset.insert_union]
      exact hstep

theorem ofList (ws : List Text) : (Trie.ofList ws).Represents ws.toFinset := by
  have h := empty.extend ws
  rwa [Finset.empty_union] at h

end Represents

/-! ## Reachable tries -/

/-- The tries that insertions and removals lead to. -/
inductive Reachable : Trie → Prop
  | empty : Reachable .empty
  | insert {t : Trie} (h : Reachable t) (w : Text) : Reachable (t.insert w).2
  | erase {t : Trie} (h : Reachable t) (w : Text) : Reachable (t.erase w).2

theorem Reachable.represents {t : Trie} (h : t.Reachable) :
    ∃ s : Finset Text, t.Represents s := by
  induction h with
  | empty => exact ⟨∅, .empty⟩
  | insert _ w ih =>
      obtain ⟨s, hs⟩ := ih
      exact ⟨_, hs.insert w⟩
  | erase _ w ih =>
      obtain ⟨s, hs⟩ := ih
      exact ⟨_, hs.erase w⟩

theorem Reachable.extend {t : Trie} (h : t.Reachable) (ws : List Text) :
    (t.extend ws).Reachable := by
  induction ws generalizing t with
  | nil => exact h
  | cons w ws ih => exact ih (h.insert w)

theorem Reachable.ofList (ws : List Text) : (Trie.ofList ws).Reachable :=
  Reachable.empty.extend ws

/-! ## Histories -/

/-- An operation on numbered tries. -/
inductive Operation where
  /-- Adds a text. -/
  | insert (slot : Nat) (w : Text)
  /-- Takes a text away. -/
  | erase (slot : Nat) (w : Text)
  /-- Adds some texts. -/
  | extend (slot : Nat) (ws : List Text)
  /-- Puts a new trie of some texts in the place of a trie. -/
  | collect (slot : Nat) (ws : List Text)
  /-- Puts a copy of one trie in the place of another one. -/
  | copy (source target : Nat)

namespace Operation

/-- The answer of an operation on tries, if it gives one, and the tries after it. -/
def onTries (tries : Nat → Trie) : Operation → Option Bool × (Nat → Trie)
  | .insert slot w =>
      (some ((tries slot).insert w).1, Function.update tries slot ((tries slot).insert w).2)
  | .erase slot w =>
      (some ((tries slot).erase w).1, Function.update tries slot ((tries slot).erase w).2)
  | .extend slot ws => (none, Function.update tries slot ((tries slot).extend ws))
  | .collect slot ws => (none, Function.update tries slot (.ofList ws))
  | .copy source target => (none, Function.update tries target (tries source).copy)

/-- The same operation on sets: an insertion answers whether the text was no member, a removal
whether it was one. -/
def onSets (sets : Nat → Finset Text) : Operation → Option Bool × (Nat → Finset Text)
  | .insert slot w =>
      (some (decide (w ∉ sets slot)), Function.update sets slot (Insert.insert w (sets slot)))
  | .erase slot w =>
      (some (decide (w ∈ sets slot)), Function.update sets slot ((sets slot).erase w))
  | .extend slot ws => (none, Function.update sets slot (sets slot ∪ ws.toFinset))
  | .collect slot ws => (none, Function.update sets slot ws.toFinset)
  | .copy source target => (none, Function.update sets target (sets source))

end Operation

/-- The answers of some operations, one after another, and the state after the last one. -/
def history {σ : Type} (perform : σ → Operation → Option Bool × σ) :
    σ → List Operation → List (Option Bool) × σ
  | state, [] => ([], state)
  | state, op :: rest =>
      let done := perform state op
      let later := history perform done.2 rest
      (done.1 :: later.1, later.2)

/-- Changing one trie and its set in the same way keeps all the others in step. -/
theorem represents_update {tries : Nat → Trie} {sets : Nat → Finset Text}
    (h : ∀ slot, (tries slot).Represents (sets slot)) {t : Trie} {s : Finset Text}
    (ht : t.Represents s) (target slot : Nat) :
    (Function.update tries target t slot).Represents (Function.update sets target s slot) := by
  by_cases hslot : slot = target
  · subst hslot
    rw [Function.update_self, Function.update_self]
    exact ht
  · rw [Function.update_of_ne hslot, Function.update_of_ne hslot]
    exact h slot

/-- One step: the answers agree, and each trie keeps representing its set. -/
theorem operation_represents {tries : Nat → Trie} {sets : Nat → Finset Text}
    (h : ∀ slot, (tries slot).Represents (sets slot)) (op : Operation) :
    (op.onTries tries).1 = (op.onSets sets).1 ∧
      ∀ slot, ((op.onTries tries).2 slot).Represents ((op.onSets sets).2 slot) := by
  cases op with
  | insert slot w =>
      exact ⟨congrArg some ((h slot).insert_fst w), represents_update h ((h slot).insert w) slot⟩
  | erase slot w =>
      exact ⟨congrArg some ((h slot).erase_fst w), represents_update h ((h slot).erase w) slot⟩
  | extend slot ws => exact ⟨rfl, represents_update h ((h slot).extend ws) slot⟩
  | collect slot ws => exact ⟨rfl, represents_update h (Represents.ofList ws) slot⟩
  | copy source target =>
      have hcopy : (tries source).copy.Represents (sets source) := by
        rw [copy_eq]
        exact h source
      exact ⟨rfl, represents_update h hcopy target⟩

/-- A whole history: by induction on the operations, from any tries in step with their sets. -/
theorem history_represents {tries : Nat → Trie} {sets : Nat → Finset Text}
    (h : ∀ slot, (tries slot).Represents (sets slot)) (ops : List Operation) :
    (history (fun s op => op.onTries s) tries ops).1 =
        (history (fun s op => op.onSets s) sets ops).1 ∧
      ∀ slot, ((history (fun s op => op.onTries s) tries ops).2 slot).Represents
        ((history (fun s op => op.onSets s) sets ops).2 slot) := by
  induction ops generalizing tries sets with
  | nil => exact ⟨rfl, h⟩
  | cons op ops ih =>
      obtain ⟨hanswer, hstep⟩ := operation_represents h op
      obtain ⟨hanswers, hlast⟩ := ih hstep
      exact ⟨List.cons_eq_cons.2 ⟨hanswer, hanswers⟩, hlast⟩

/-- **Tries refine sets.** After any history on tries that are empty at first, all answers are
those of the same history on sets. Each trie then contains exactly the members of its set, counts
them, and is empty when the set is; an insertion or removal that would answer false would leave it
as it is; every child in it stands under its own character and is alive. -/
theorem history_refines_sets (ops : List Operation) :
    let tries := history (fun s op => op.onTries s) (fun _ => .empty) ops
    let sets := history (fun s op => op.onSets s) (fun _ => ∅) ops
    tries.1 = sets.1 ∧
      ∀ slot,
        (∀ w, (tries.2 slot).contains w = decide (w ∈ sets.2 slot)) ∧
        (tries.2 slot).size = (sets.2 slot).card ∧
        ((tries.2 slot).isEmpty = true ↔ sets.2 slot = ∅) ∧
        (∀ w, ((tries.2 slot).insert w).1 = false →
          ((tries.2 slot).insert w).2 = tries.2 slot) ∧
        (∀ w, ((tries.2 slot).erase w).1 = false →
          ((tries.2 slot).erase w).2 = tries.2 slot) ∧
        (tries.2 slot).Sound := by
  obtain ⟨hanswers, hrep⟩ := history_represents (fun _ => Represents.empty) ops
  refine ⟨hanswers, fun slot => ?_⟩
  have h := hrep slot
  exact ⟨h.contains_eq_decide, h.size_eq, h.isEmpty_iff, fun _ => h.insert_of_fst_eq_false,
    fun _ => h.erase_of_fst_eq_false, h.sound⟩

end Trie

end Unmangle
