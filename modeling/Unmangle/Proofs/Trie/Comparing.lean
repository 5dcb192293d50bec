import Mathlib.Data.List.Nodup
import Mathlib.Data.List.Perm.Subperm
import Mathlib.Data.Char
import Unmangle.Proofs.Loops
import Unmangle.Proofs.Trie.Copying
import Unmangle.Proofs.Trie.Members

set_option autoImplicit false

/-! # Comparing two trees

The comparing loop takes a pair of nodes from its stack and puts the pairs of their children there.
It looks for each child on the left a child on the right under the same key, and otherwise only
counts children, so it is the order of the keys that makes this an equality: two lists of children
with ascending keys, as many on the left as on the right, are equal as soon as each child on the
left is found on the right (`Branches.Ordered.eq_iff_find?`).

* `Comparing.loopInvariant`: the loop decides whether the nodes of all pairs on its stack are equal.
* `Node.same_iff`: two nodes compare equal when they are equal.
-/

namespace Unmangle

namespace Branches

/-- The keys of the children ascend strictly, and so do those below each child. -/
def Ordered : Branches → Prop
  | .nil => True
  | .cons key _ _ below rest => (∀ e ∈ rest.toList, key < e.1) ∧ below.Ordered ∧ rest.Ordered

theorem Sound.ordered {b : Branches} (hb : b.Sound) : b.Ordered := by
  induction b with
  | nil => trivial
  | cons key label ends below rest ihb ihr =>
      obtain ⟨-, -, hlt, hbelow, hrest⟩ := hb
      exact ⟨hlt, ihb hbelow, ihr hrest⟩

/-! ## Children as a list -/

theorem toList_injective {b d : Branches} (h : b.toList = d.toList) : b = d := by
  rw [← foldl_push_toList b, h, foldl_push_toList d]

theorem length_toList (b : Branches) : b.toList.length = b.size := by
  induction b with
  | nil => rfl
  | cons key label ends below rest _ ih => rw [toList, List.length_cons, ih, size]

/-- A child has fewer nodes below it than its siblings and all below them are together. -/
theorem count_lt_of_mem {b : Branches} {e : Char × Node} (h : e ∈ b.toList) :
    e.2.below.count < b.count := by
  induction b with
  | nil => cases h
  | cons key label ends below rest _ ih =>
      rw [toList, List.mem_cons] at h
      rw [count]
      rcases h with rfl | h
      · show below.count < _
        omega
      · have hlater := ih h
        omega

namespace Ordered

variable {b d : Branches}

theorem pairwise_toList (hb : b.Ordered) : b.toList.Pairwise (fun e f => e.1 < f.1) := by
  induction b with
  | nil => exact List.Pairwise.nil
  | cons key label ends below rest _ ih => exact List.pairwise_cons.2 ⟨hb.1, ih hb.2.2⟩

/-- A child of the list is found under its key. -/
theorem find?_of_mem (hb : b.Ordered) {e : Char × Node} (he : e ∈ b.toList) :
    b.find? e.1 = some e.2 := by
  induction b with
  | nil => cases he
  | cons key label ends below rest _ ih =>
      rw [toList, List.mem_cons] at he
      rw [find?]
      rcases he with rfl | he
      · exact if_pos rfl
      · have hne : key ≠ e.1 := ne_of_lt (hb.1 e he)
        rw [if_neg hne]
        exact ih hb.2.2 he

/-- What stands below a child is ordered as well. -/
theorem child (hb : b.Ordered) {e : Char × Node} (he : e ∈ b.toList) : e.2.below.Ordered := by
  induction b with
  | nil => cases he
  | cons key label ends below rest _ ih =>
      rw [toList, List.mem_cons] at he
      rcases he with rfl | he
      · exact hb.2.1
      · exact ih hb.2.2 he

/-- Ordered children are determined by what they are: ascending keys leave one order for them. -/
theorem eq_of_perm (hb : b.Ordered) (hd : d.Ordered) (h : b.toList.Perm d.toList) : b = d :=
  toList_injective (h.eq_of_pairwise (fun _ _ _ _ hef hfe => absurd hef (lt_asymm hfe))
    hb.pairwise_toList hd.pairwise_toList)

/-- No two children have the same key. -/
theorem nodup_keys (hb : b.Ordered) : (b.toList.map (·.1)).Nodup :=
  List.pairwise_map.2 (hb.pairwise_toList.imp fun hlt => ne_of_lt hlt)

/-- Of two lists with as many children, the left one is the right one as soon as the right one has
every child of the left one under the same key. -/
theorem eq_iff_find? (hb : b.Ordered) (hd : d.Ordered) (hsize : b.size = d.size) :
    b = d ↔ ∀ e ∈ b.toList, d.find? e.1 = some e.2 := by
  constructor
  · rintro rfl e he
    exact hb.find?_of_mem he
  · intro hfound
    have hsubset : b.toList ⊆ d.toList := fun e he => mem_toList_of_find? (hfound e he)
    -- there are no other children on the right, since there are not more of them
    have hlength : d.toList.length ≤ b.toList.length := by
      rw [length_toList, length_toList, hsize]
    have hnodup : b.toList.Nodup := hb.nodup_keys.of_map _
    exact hb.eq_of_perm hd ((List.subperm_of_subset hnodup hsubset).perm_of_length_le hlength)

end Ordered

/-! ## Pairs of children -/

/-- All pairs are found and equal exactly when the right list has every child of the left one. -/
theorem pairUp_equal_iff (right left : Branches) :
    (∃ pairs, right.pairUp left = some pairs ∧ ∀ p ∈ pairs, p.1 = p.2) ↔
      ∀ e ∈ left.toList, right.find? e.1 = some e.2 := by
  induction left with
  | nil => simp [pairUp, toList]
  | cons key label ends below rest _ ih =>
      rw [toList, List.forall_mem_cons, ← ih, pairUp]
      constructor
      · rintro ⟨pairs, hpairs, hequal⟩
        split at hpairs
        · rename_i other more hfind hmore
          cases hpairs
          have hfirst : Node.mk label ends below = other := hequal _ List.mem_cons_self
          exact ⟨hfirst ▸ hfind, more, hmore, fun p hp => hequal p (List.mem_cons_of_mem _ hp)⟩
        · cases hpairs
      · rintro ⟨hfind, more, hmore, hequal⟩
        rw [hfind, hmore]
        exact ⟨_, rfl, List.forall_mem_cons.2 ⟨rfl, hequal⟩⟩

/-- A pair holds a child of each side. -/
theorem mem_pairUp {right left : Branches} {pairs : List (Node × Node)}
    (h : right.pairUp left = some pairs) {p : Node × Node} (hp : p ∈ pairs) :
    ∃ key, (key, p.1) ∈ left.toList ∧ (key, p.2) ∈ right.toList := by
  induction left generalizing pairs with
  | nil =>
      cases h
      cases hp
  | cons key label ends below rest _ ih =>
      rw [pairUp] at h
      split at h
      · rename_i other more hfind hmore
        cases h
        rw [toList]
        rcases List.mem_cons.1 hp with rfl | hp
        · exact ⟨key, List.mem_cons_self, mem_toList_of_find? hfind⟩
        · obtain ⟨key', hleft, hright⟩ := ih hmore hp
          exact ⟨key', List.mem_cons_of_mem _ hleft, hright⟩
      · cases h

end Branches

namespace Node

/-- The steps that the pairs on a stack take: one for each node on the left. -/
def pairWork (stack : List (Node × Node)) : Nat := (stack.map fun p => p.1.below.count + 1).sum

theorem pairWork_pairUp {right left : Branches} {pairs : List (Node × Node)}
    (h : right.pairUp left = some pairs) : pairWork pairs = left.count := by
  induction left generalizing pairs with
  | nil =>
      cases h
      rfl
  | cons key label ends below rest _ ih =>
      rw [Branches.pairUp] at h
      split at h
      · rename_i other more hfind hmore
        cases h
        have hrest := ih hmore
        simp only [pairWork, List.map_cons, List.sum_cons] at hrest ⊢
        rw [hrest, Branches.count]
        omega
      · cases h

theorem agrees_iff (a b : Node) :
    a.agrees b = true ↔ a.label = b.label ∧ a.ends = b.ends ∧ a.below.size = b.below.size := by
  simp [agrees, and_assoc]

/-- Two nodes are equal when they agree and their children can be paired up equally. -/
theorem eq_iff_agrees {a b : Node} (ha : a.below.Ordered) (hb : b.below.Ordered) :
    a = b ↔ a.agrees b = true ∧
      ∃ pairs, b.below.pairUp a.below = some pairs ∧ ∀ p ∈ pairs, p.1 = p.2 := by
  rw [agrees_iff, Branches.pairUp_equal_iff]
  constructor
  · rintro rfl
    exact ⟨⟨rfl, rfl, rfl⟩, fun e he => ha.find?_of_mem he⟩
  · rintro ⟨⟨hlabel, hends, hsize⟩, hfound⟩
    have hbelow : a.below = b.below := (ha.eq_iff_find? hb hsize).2 hfound
    cases a
    cases b
    simp only at hlabel hends hbelow
    rw [hlabel, hends, hbelow]

end Node

/-! ## The loop -/

/-- A comparison on its way: the pairs that are still to compare, or none since two nodes were
different. With no pair left the nodes are equal. -/
inductive Comparing where
  | running (stack : List (Node × Node))
  | refused

namespace Comparing

open Node

/-- One step of a comparison. It takes a pair of nodes from the stack; if they agree and each child
on the left has one on the right, it puts the pairs of their children there, in any order. -/
inductive Step : Comparing → Comparing → Prop
  | descend {a b : Node} {pairs pairs' : List (Node × Node)} (stack : List (Node × Node))
      (hagrees : a.agrees b = true) (hpairs : b.below.pairUp a.below = some pairs)
      (horder : pairs'.Perm pairs) : Step (running ((a, b) :: stack)) (running (pairs' ++ stack))
  | lack {a b : Node} (stack : List (Node × Node)) (hagrees : a.agrees b = true)
      (hpairs : b.below.pairUp a.below = none) : Step (running ((a, b) :: stack)) refused
  | differ {a b : Node} (stack : List (Node × Node)) (hagrees : a.agrees b = false) :
      Step (running ((a, b) :: stack)) refused

def answer? : Comparing → Option Bool
  | running [] => some true
  | running (_ :: _) => none
  | refused => some false

/-- What the comparing function answers from a state on, with some steps left. -/
def answer (steps : Nat) : Comparing → Bool
  | running stack => sameAll steps stack
  | refused => false

/-- The trees in question have ordered children, and they are equal exactly if the answer is true. -/
def Decides (equal : Bool) : Comparing → Prop
  | running stack => (∀ p ∈ stack, p.1.below.Ordered ∧ p.2.below.Ordered) ∧
      ((∀ p ∈ stack, p.1 = p.2) ↔ equal = true)
  | refused => equal = false

def work : Comparing → Nat
  | running stack => pairWork stack
  | refused => 0

theorem work_pos (p : Node × Node) (stack : List (Node × Node)) :
    0 < work (running (p :: stack)) := by
  simp only [work, pairWork, List.map_cons, List.sum_cons]
  omega

/-- The comparison goes on while there are pairs, and one of its steps is that of the comparing
function. -/
theorem exists_step (p : Node × Node) (stack : List (Node × Node)) :
    ∃ c, Step (running (p :: stack)) c ∧
      ∀ steps, answer (steps + 1) (running (p :: stack)) = answer steps c := by
  obtain ⟨a, b⟩ := p
  cases hagrees : a.agrees b with
  | false => exact ⟨refused, .differ stack hagrees, fun steps => by simp [answer, sameAll, hagrees]⟩
  | true =>
      cases hpairs : b.below.pairUp a.below with
      | none =>
          exact ⟨refused, .lack stack hagrees hpairs, fun steps => by
            simp [answer, sameAll, hagrees, hpairs]⟩
      | some pairs =>
          exact ⟨running (pairs ++ stack), .descend stack hagrees hpairs (List.Perm.refl pairs),
            fun steps => by simp [answer, sameAll, hagrees, hpairs]⟩

/-- Two nodes that do not agree, or whose children cannot be paired up, decide that the trees are not
equal. -/
theorem decides_refused {equal : Bool} {a b : Node} {stack : List (Node × Node)}
    (h : Decides equal (running ((a, b) :: stack)))
    (hnot : ¬ (a.agrees b = true ∧ (b.below.pairUp a.below).isSome = true)) :
    Decides equal refused := by
  refine Bool.eq_false_iff.2 fun htrue => hnot ?_
  obtain ⟨ha, hb⟩ := h.1 (a, b) List.mem_cons_self
  have hab : a = b := h.2.2 htrue (a, b) List.mem_cons_self
  obtain ⟨hagrees, pairs, hpairs, -⟩ := (eq_iff_agrees ha hb).1 hab
  exact ⟨hagrees, Option.isSome_iff_exists.2 ⟨pairs, hpairs⟩⟩

/-- **The comparing loop.** It decides the same all the time, until it is over with the answer. -/
theorem loopInvariant (equal : Bool) :
    LoopInvariant Step (fun c => c.answer? = some equal) (Decides equal) work where
  kept := by
    intro c c' hdecides hstep
    cases hstep with
    | differ stack hagrees =>
        exact ⟨decides_refused hdecides (by simp [hagrees]), work_pos _ stack⟩
    | lack stack hagrees hpairs =>
        exact ⟨decides_refused hdecides (by simp [hpairs]), work_pos _ stack⟩
    | @descend a b pairs pairs' stack hagrees hpairs horder =>
        -- the pairs of the children take the place of their parents on the stack
        obtain ⟨⟨ha, hb⟩, hstack⟩ := List.forall_mem_cons.1 hdecides.1
        have hab : a = b ↔ ∀ p ∈ pairs', p.1 = p.2 := by
          rw [eq_iff_agrees ha hb, hpairs]
          simp [hagrees, horder.mem_iff]
        refine ⟨⟨fun p hp => ?_, ?_⟩, ?_⟩
        · rcases List.mem_append.1 hp with hp | hp
          · obtain ⟨key, hleft, hright⟩ := Branches.mem_pairUp hpairs (horder.mem_iff.1 hp)
            exact ⟨ha.child hleft, hb.child hright⟩
          · exact hstack p hp
        · rw [List.forall_mem_append, ← hab, ← hdecides.2, List.forall_mem_cons]
        · have hbelow := pairWork_pairUp hpairs
          have hsame : pairWork pairs' = pairWork pairs := (horder.map _).sum_nat
          simp only [work, pairWork, List.map_append, List.sum_append, List.map_cons,
            List.sum_cons] at hbelow hsame ⊢
          omega
  ended := by
    intro c hdecides hover
    cases c with
    | refused =>
        obtain rfl : equal = false := hdecides
        rfl
    | running stack =>
        cases stack with
        | nil =>
            have htrue : equal = true := hdecides.2.1 (List.forall_mem_nil _)
            rw [htrue]
            rfl
        | cons p stack =>
            obtain ⟨c, hstep, -⟩ := exists_step p stack
            exact absurd hstep (hover c)

/-- The comparing function answers as the loop does. -/
theorem answer_eq {equal : Bool} {steps : Nat} {c : Comparing}
    (h : EndsWithin Step (fun c => c.answer? = some equal) steps c) : c.answer steps = equal := by
  induction h with
  | @ended steps c hover hgood =>
      cases c with
      | refused => exact Option.some.inj hgood
      | running stack =>
          cases stack with
          | nil =>
              rw [answer, sameAll]
              exact Option.some.inj hgood
          | cons p stack => cases hgood
  | @next steps c hmore hnext ih =>
      cases c with
      | refused =>
          obtain ⟨c', hstep⟩ := hmore
          cases hstep
      | running stack =>
          cases stack with
          | nil =>
              obtain ⟨c', hstep⟩ := hmore
              cases hstep
          | cons p stack =>
              obtain ⟨c', hstep, hanswer⟩ := exists_step p stack
              rw [hanswer, ih c' hstep]

end Comparing

namespace Node

/-- Two trees with ordered children. The loop ends, whatever the order in which it takes their
children, and it answers whether they are equal. -/
theorem comparing_endsWithin {a b : Node} (ha : a.below.Ordered) (hb : b.below.Ordered)
    (equal : Bool) (hequal : a = b ↔ equal = true) :
    EndsWithin Comparing.Step (fun c => c.answer? = some equal) (a.below.count + 1)
      (.running [(a, b)]) := by
  have hdecides : Comparing.Decides equal (.running [(a, b)]) := by
    refine ⟨?_, ?_⟩
    · rw [List.forall_mem_singleton]
      exact ⟨ha, hb⟩
    · rwa [List.forall_mem_singleton]
  have hwork : Comparing.work (.running [(a, b)]) ≤ a.below.count + 1 := by
    simp [Comparing.work, pairWork]
  exact (Comparing.loopInvariant equal).endsWithin hdecides hwork

/-- Two nodes with ordered children compare equal exactly when they are equal. -/
theorem same_iff {a b : Node} (ha : a.below.Ordered) (hb : b.below.Ordered) :
    a.same b = true ↔ a = b := by
  by_cases hab : a = b
  · have hends := comparing_endsWithin ha hb true (iff_of_true hab rfl)
    exact iff_of_true (Comparing.answer_eq hends) hab
  · have hends := comparing_endsWithin ha hb false (iff_of_false hab Bool.false_ne_true)
    rw [show a.same b = false from Comparing.answer_eq hends]
    exact iff_of_false Bool.false_ne_true hab

end Node

/-- Two sound tries compare equal exactly when they are equal. -/
theorem Trie.Sound.same_iff {t u : Trie} (ht : t.Sound) (hu : u.Sound) :
    t.same u = true ↔ t = u := by
  have hroot := Node.same_iff ht.2.ordered hu.2.ordered
  obtain ⟨root, size⟩ := t
  obtain ⟨root', size'⟩ := u
  simp only [Trie.same, Bool.and_eq_true, beq_iff_eq, Trie.mk.injEq]
  exact and_congr_left fun _ => hroot

end Unmangle
