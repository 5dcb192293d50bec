import Mathlib.Data.Char
import Mathlib.Tactic.Common
import Unmangle.Trie.Basic

set_option autoImplicit false

/-! # The shape of a trie

A subtree is sound when every child is kept under the character it was reached by, the keys
ascend, and no child is dead: a member ends at each child or it has children of its own. Look-up,
replacement and removal of a child are described here once, so that the operations on tries never
have to open the list of children again.

* `Branches.find?_set_self`, `Branches.find?_set_of_ne`: a replacement changes one key only.
* `Branches.Sound.set`, `Branches.Sound.erase`: both operations keep a subtree sound.
* `Branches.set_find?`: putting a child back where it stands changes nothing.
-/

namespace Unmangle

/-- A node is alive when a member ends at it or it has a child. -/
def Node.Alive (n : Node) : Prop := n.ends = true ∨ n.below ≠ .nil

namespace Branches

/-- Every child is kept under its own character, the keys ascend strictly, every child is alive,
and the same holds of the children below it. -/
def Sound : Branches → Prop
  | .nil => True
  | .cons key label ends below rest =>
      label = some key ∧ Node.Alive ⟨label, ends, below⟩ ∧ (∀ e ∈ rest.toList, key < e.1) ∧
        below.Sound ∧ rest.Sound

@[simp] theorem sound_nil : Branches.nil.Sound := trivial

/-- The first of some sound children is a sound list of children by itself. -/
theorem Sound.first {key : Char} {label : Option Char} {ends : Bool} {below rest : Branches}
    (hb : (cons key label ends below rest).Sound) : (cons key label ends below .nil).Sound :=
  ⟨hb.1, hb.2.1, List.forall_mem_nil _, hb.2.2.2.1, trivial⟩

/-! ## Look-up -/

theorem mem_toList_of_find? {b : Branches} {c : Char} {n : Node} (h : b.find? c = some n) :
    (c, n) ∈ b.toList := by
  induction b with
  | nil => simp [find?] at h
  | cons key label ends below rest _ ih =>
      rw [find?] at h
      rw [toList, List.mem_cons]
      split at h
      · rename_i hkey
        cases h
        exact Or.inl (by rw [hkey])
      · exact Or.inr (ih h)

theorem find?_eq_none_of_lt {b : Branches} {c : Char} (h : ∀ e ∈ b.toList, c < e.1) :
    b.find? c = none := by
  cases hf : b.find? c with
  | none => rfl
  | some n => exact absurd (h _ (mem_toList_of_find? hf)) (lt_irrefl c)

/-- What soundness says about one child. -/
theorem Sound.child {b : Branches} (hb : b.Sound) {c : Char} {n : Node}
    (h : b.find? c = some n) : n.label = some c ∧ n.Alive ∧ n.below.Sound := by
  induction b with
  | nil => simp [find?] at h
  | cons key label ends below rest _ ih =>
      obtain ⟨hlabel, halive, -, hbelow, hrest⟩ := hb
      rw [find?] at h
      split at h
      · rename_i hkey
        cases h
        exact ⟨hkey ▸ hlabel, halive, hbelow⟩
      · exact ih hrest h

/-! ## Replacing a child -/

@[simp] theorem find?_set_self (b : Branches) (c : Char) (n : Node) :
    (b.set c n).find? c = some n := by
  induction b with
  | nil => simp [set, push, find?]
  | cons key label ends below rest _ ih =>
      rw [set]
      split
      · simp [push, find?]
      · rename_i hne
        split
        · simp [push, find?]
        · rw [find?, if_neg (Ne.symm hne), ih]

theorem find?_set_of_ne {c d : Char} (h : d ≠ c) (b : Branches) (n : Node) :
    (b.set c n).find? d = b.find? d := by
  induction b with
  | nil => simp [set, push, find?, h.symm]
  | cons key label ends below rest _ ih =>
      rw [set]
      split
      · rename_i hkey
        subst hkey
        rw [push, find?, find?, if_neg h.symm, if_neg h.symm]
      · split
        · rw [push, find?, if_neg h.symm]
        · rw [find?, find?, ih]

theorem mem_toList_set {b : Branches} {c : Char} {n : Node} {e : Char × Node}
    (h : e ∈ (b.set c n).toList) : e = (c, n) ∨ e ∈ b.toList := by
  induction b with
  | nil => simpa [set, push, toList] using h
  | cons key label ends below rest _ ih =>
      rw [set] at h
      split at h
      · rw [push, toList, List.mem_cons] at h
        exact h.imp id (List.mem_cons_of_mem _)
      · split at h
        · rw [push, toList, List.mem_cons] at h
          exact h
        · rw [toList, List.mem_cons] at h
          rcases h with h | h
          · exact Or.inr (h ▸ List.mem_cons_self)
          · exact (ih h).imp id (List.mem_cons_of_mem _)

theorem set_ne_nil (b : Branches) (c : Char) (n : Node) : b.set c n ≠ .nil := by
  intro h
  have hfind := find?_set_self b c n
  rw [h, find?] at hfind
  cases hfind

theorem Sound.set {b : Branches} (hb : b.Sound) {c : Char} {n : Node} (hlabel : n.label = some c)
    (halive : n.Alive) (hbelow : n.below.Sound) : (b.set c n).Sound := by
  induction b with
  | nil => exact ⟨hlabel, halive, by simp [toList], hbelow, trivial⟩
  | cons key label ends below rest _ ih =>
      obtain ⟨hl, ha, hlt, hbl, hrest⟩ := hb
      rw [Branches.set]
      split
      · rename_i hkey
        exact ⟨hlabel, halive, hkey ▸ hlt, hbelow, hrest⟩
      · rename_i hne
        split
        · rename_i hlow
          refine ⟨hlabel, halive, ?_, hbelow, hl, ha, hlt, hbl, hrest⟩
          intro e he
          rw [toList, List.mem_cons] at he
          rcases he with rfl | he
          · exact hlow
          · exact lt_trans hlow (hlt e he)
        · rename_i hhigh
          refine ⟨hl, ha, ?_, hbl, ih hrest⟩
          intro e he
          rcases mem_toList_set he with rfl | he
          · exact lt_of_le_of_ne (not_lt.1 hhigh) (Ne.symm hne)
          · exact hlt e he

/-- Putting a child back where it stands changes nothing. -/
theorem Sound.set_find? {b : Branches} (hb : b.Sound) {c : Char} {n : Node}
    (h : b.find? c = some n) : b.set c n = b := by
  induction b with
  | nil => simp [find?] at h
  | cons key label ends below rest _ ih =>
      obtain ⟨-, -, hlt, -, hrest⟩ := hb
      rw [find?] at h
      split at h
      · rename_i hkey
        cases h
        rw [Branches.set, if_pos hkey.symm, push, hkey]
      · rename_i hne
        have hkey : key < c := hlt _ (mem_toList_of_find? h)
        rw [Branches.set, if_neg (Ne.symm hne), if_neg (lt_asymm hkey), ih hrest h]

/-! ## Removing a child -/

theorem Sound.find?_erase_self {b : Branches} (hb : b.Sound) (c : Char) :
    (b.erase c).find? c = none := by
  induction b with
  | nil => rfl
  | cons key label ends below rest _ ih =>
      obtain ⟨-, -, hlt, -, hrest⟩ := hb
      rw [erase]
      split
      · rename_i hkey
        exact find?_eq_none_of_lt (hkey ▸ hlt)
      · rename_i hne
        rw [find?, if_neg (Ne.symm hne), ih hrest]

theorem find?_erase_of_ne {c d : Char} (h : d ≠ c) (b : Branches) :
    (b.erase c).find? d = b.find? d := by
  induction b with
  | nil => rfl
  | cons key label ends below rest _ ih =>
      rw [erase]
      split
      · rename_i hkey
        rw [find?, if_neg (hkey ▸ h.symm)]
      · rw [find?, find?, ih]

theorem mem_toList_of_mem_erase {b : Branches} {c : Char} {e : Char × Node}
    (h : e ∈ (b.erase c).toList) : e ∈ b.toList := by
  induction b with
  | nil => exact h
  | cons key label ends below rest _ ih =>
      rw [erase] at h
      split at h
      · exact List.mem_cons_of_mem _ h
      · rw [toList, List.mem_cons] at h ⊢
        exact h.imp id ih

theorem Sound.erase {b : Branches} (hb : b.Sound) (c : Char) : (b.erase c).Sound := by
  induction b with
  | nil => trivial
  | cons key label ends below rest _ ih =>
      obtain ⟨hl, ha, hlt, hbl, hrest⟩ := hb
      rw [Branches.erase]
      split
      · exact hrest
      · exact ⟨hl, ha, fun e he => hlt e (mem_toList_of_mem_erase he), hbl, ih hrest⟩

/-- A removal from more than one child leaves one. -/
theorem erase_ne_nil {b : Branches} (h : 1 < b.size) (c : Char) : b.erase c ≠ .nil := by
  cases b with
  | nil => simp [size] at h
  | cons key label ends below rest =>
      rw [erase]
      split
      · rintro rfl
        simp [size] at h
      · exact Branches.noConfusion

/-- An only child is the one that a look-up finds. -/
theorem find?_of_size_le_one {b : Branches} (h : b.size ≤ 1) {c d : Char} {n m : Node}
    (hc : b.find? c = some n) (hd : b.find? d = some m) : d = c ∧ m = n := by
  cases b with
  | nil => simp [find?] at hc
  | cons key label ends below rest =>
      cases rest with
      | cons => simp [size] at h
      | nil =>
          simp only [find?, Option.ite_none_right_eq_some, Option.some.injEq] at hc hd
          exact ⟨hd.1.symm.trans hc.1, hd.2.symm.trans hc.2⟩

/-- Two look-ups that find something are of two children. -/
theorem two_le_size_of_find? {b : Branches} {c d : Char} {n m : Node} (hcd : c ≠ d)
    (hc : b.find? c = some n) (hd : b.find? d = some m) : 2 ≤ b.size := by
  by_contra hsize
  have hone : b.size ≤ 1 := by omega
  exact hcd (find?_of_size_le_one hone hd hc).1

end Branches

end Unmangle
