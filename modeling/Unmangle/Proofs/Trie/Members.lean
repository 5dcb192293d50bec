import Unmangle.Proofs.Trie.Shape

set_option autoImplicit false

/-! # The members of a trie

What insertion and removal do to the members of a sound trie. An insertion adds one member. A
removal walks down once and notes the last node that has to stay; everything that hangs below it on
the path leads to the removed member only (`Node.walk_root`), so cutting there takes away this
member and nothing else.

* `Trie.contains_insert`, `Trie.contains_erase`: the members after either operation.
* `Trie.insert_fst`, `Trie.erase_fst`: either operation tells whether it changed the members.
* `Trie.Sound.insert`, `Trie.Sound.erase`: a sound trie stays sound.
-/

namespace Unmangle

namespace Node

/-- Whether a member of the subtree is spelled by a path. -/
def holds (n : Node) (w : Text) : Bool := (n.descend w).any (·.ends)

@[simp] theorem holds_nil (n : Node) : n.holds [] = n.ends := rfl

theorem holds_cons (n : Node) (c : Char) (w : Text) :
    n.holds (c :: w) = (n.below.find? c).any (·.holds w) := by
  rw [holds, descend]
  cases n.below.find? c <;> rfl

theorem holds_cons_of_find? {n child : Node} {c : Char} (h : n.below.find? c = some child)
    (w : Text) : n.holds (c :: w) = child.holds w := by
  rw [holds_cons, h, Option.any_some]

@[simp] theorem holds_fresh (c : Char) (w : Text) : (fresh c).holds w = false := by
  cases w <;> rfl

/-! ## Insertion -/

/-- The child that an insertion goes into, an empty one if there is none, holds what the node holds
under its character. -/
theorem holds_getD_fresh (n : Node) (c : Char) (w : Text) :
    ((n.below.find? c).getD (fresh c)).holds w = n.holds (c :: w) := by
  rw [holds_cons]
  cases n.below.find? c with
  | none => exact holds_fresh c w
  | some child => rfl

theorem insert_fst (w : Text) (n : Node) : (n.insert w).1 = !n.holds w := by
  induction w generalizing n with
  | nil => rfl
  | cons c w ih => rw [insert, ih, holds_getD_fresh]

theorem holds_insert (w : Text) (n : Node) (v : Text) :
    (n.insert w).2.holds v = true ↔ v = w ∨ n.holds v = true := by
  induction w generalizing n v with
  | nil =>
      cases v with
      | nil => simp [insert]
      | cons d v => simp [insert, holds_cons]
  | cons c w ih =>
      cases v with
      | nil => simp [insert]
      | cons d v =>
          rw [insert, holds_cons]
          by_cases hd : d = c
          · subst hd
            rw [Branches.find?_set_self, Option.any_some, ih, holds_getD_fresh]
            simp
          · rw [Branches.find?_set_of_ne hd, ← holds_cons]
            simp [hd]

theorem insert_label (w : Text) (n : Node) : (n.insert w).2.label = n.label := by
  cases w <;> rfl

theorem insert_alive (w : Text) (n : Node) : (n.insert w).2.Alive := by
  cases w with
  | nil => exact Or.inl rfl
  | cons c w => exact Or.inr (Branches.set_ne_nil _ _ _)

theorem insert_sound (w : Text) {n : Node} (hn : n.below.Sound) :
    (n.insert w).2.below.Sound := by
  induction w generalizing n with
  | nil => exact hn
  | cons c w ih =>
      have hchild : ((n.below.find? c).getD (fresh c)).label = some c ∧
          ((n.below.find? c).getD (fresh c)).below.Sound := by
        cases hf : n.below.find? c with
        | none => exact ⟨rfl, trivial⟩
        | some child => exact ⟨(hn.child hf).1, (hn.child hf).2.2⟩
      exact hn.set (by rw [insert_label, hchild.1]) (insert_alive w _) (ih hchild.2)

/-- Adding a text that is a member already changes nothing. -/
theorem insert_of_holds {w : Text} {n : Node} (hn : n.below.Sound) (h : n.holds w = true) :
    (n.insert w).2 = n := by
  induction w generalizing n with
  | nil =>
      rw [holds_nil] at h
      rw [insert, ← h]
  | cons c w ih =>
      cases hf : n.below.find? c with
      | none => simp [holds_cons, hf] at h
      | some child =>
          rw [holds_cons_of_find? hf] at h
          rw [insert, hf, Option.getD_some, ih (hn.child hf).2.2 h, hn.set_find? hf]

/-! ## A change at the end of a path -/

theorem update?_isSome {change : Node → Option Node} {path : Text} {n last last' : Node}
    (hlast : n.descend path = some last) (hchange : change last = some last') :
    ∃ n', n.update? change path = some n' := by
  induction path generalizing n with
  | nil =>
      cases hlast
      exact ⟨last', hchange⟩
  | cons c path ih =>
      rw [descend, Option.bind_eq_some_iff] at hlast
      obtain ⟨child, hf, hlast⟩ := hlast
      obtain ⟨child', hchild⟩ := ih hlast
      exact ⟨_, by rw [update?, hf, Option.bind_some, hchild, Option.map_some]⟩

/-- A change at the end of a path leaves the members off the path alone. -/
theorem holds_update? {change : Node → Option Node} {path : Text} {n n' last last' : Node}
    (h : n.update? change path = some n') (hlast : n.descend path = some last)
    (hchange : change last = some last') (v : Text) :
    (∀ u, v = path ++ u → n'.holds v = last'.holds u) ∧
      (¬ path <+: v → n'.holds v = n.holds v) := by
  induction path generalizing n n' v with
  | nil =>
      cases hlast
      rw [update?, hchange] at h
      cases h
      exact ⟨fun u hu => by rw [hu, List.nil_append], fun hv => absurd List.nil_prefix hv⟩
  | cons c path ih =>
      rw [descend, Option.bind_eq_some_iff] at hlast
      obtain ⟨child, hf, hlast⟩ := hlast
      rw [update?, hf, Option.bind_some, Option.map_eq_some_iff] at h
      obtain ⟨child', hchild, rfl⟩ := h
      refine ⟨?_, ?_⟩
      · rintro u rfl
        rw [List.cons_append, holds_cons, Branches.find?_set_self, Option.any_some]
        exact (ih hchild hlast (path ++ u)).1 u rfl
      · intro hv
        cases v with
        | nil => rfl
        | cons d v =>
            rw [holds_cons]
            by_cases hd : d = c
            · subst hd
              rw [Branches.find?_set_self, Option.any_some, holds_cons_of_find? hf]
              exact (ih hchild hlast v).2 fun hp => hv (List.cons_prefix_cons.2 ⟨rfl, hp⟩)
            · rw [Branches.find?_set_of_ne hd, ← holds_cons]

/-- A change that keeps the label, and leaves a sound node that is alive unless it is the root,
keeps the whole subtree sound. -/
theorem update?_sound {change : Node → Option Node} {path : Text} {n n' last last' : Node}
    (h : n.update? change path = some n') (hlast : n.descend path = some last)
    (hchange : change last = some last') (hn : n.below.Sound) (hlabel : last'.label = last.label)
    (halive : path ≠ [] → last'.Alive) (hsound : last.below.Sound → last'.below.Sound) :
    n'.label = n.label ∧ n'.below.Sound ∧ (path ≠ [] → n'.Alive) := by
  induction path generalizing n n' with
  | nil =>
      cases hlast
      rw [update?, hchange] at h
      cases h
      exact ⟨hlabel, hsound hn, halive⟩
  | cons c path ih =>
      rw [descend, Option.bind_eq_some_iff] at hlast
      obtain ⟨child, hf, hlast⟩ := hlast
      rw [update?, hf, Option.bind_some, Option.map_eq_some_iff] at h
      obtain ⟨child', hchild, rfl⟩ := h
      obtain ⟨hl, -, hs⟩ := hn.child hf
      obtain ⟨hl', hs', ha'⟩ := ih hchild hlast hs fun _ => halive (List.cons_ne_nil _ _)
      have hchildAlive : child'.Alive := by
        cases path with
        | nil =>
            rw [update?, Option.some.inj hlast, hchange] at hchild
            exact Option.some.inj hchild ▸ halive (List.cons_ne_nil _ _)
        | cons d path => exact ha' (List.cons_ne_nil _ _)
      have hsound := hn.set (hl'.trans hl) hchildAlive hs'
      exact ⟨rfl, hsound, fun _ => Or.inr (Branches.set_ne_nil _ _ _)⟩

/-! ## The walk of a removal -/

/-- The subtree has one member. -/
def HoldsOnly (n : Node) (w : Text) : Prop := ∀ v, n.holds v = true ↔ v = w

theorem walk_snd (w : Text) (depth anchor : Nat) (n : Node) :
    (n.walk depth anchor w).map (·.2) = n.descend w := by
  induction w generalizing depth anchor n with
  | nil => rfl
  | cons c w ih =>
      rw [walk, descend]
      cases n.below.find? c with
      | none => rfl
      | some child => exact ih _ _ child

/-- A walk that ends in a node without children either met no node that holds on, and then the
subtree has one member; or it tells where the last such node stands, and the branch that the path
takes from there has one member. -/
theorem walk_anchor {w : Text} {depth anchor k : Nat} {n last : Node}
    (h : n.walk depth anchor w = some (k, last)) (hends : last.ends = true)
    (hleaf : last.below = .nil) :
    (k = anchor ∧ n.HoldsOnly w) ∨
      ∃ p c q parent child, w = p ++ c :: q ∧ k = depth + p.length ∧
        n.descend p = some parent ∧ parent.holdsOn = true ∧
        parent.below.find? c = some child ∧ child.HoldsOnly q := by
  induction w generalizing depth anchor n with
  | nil =>
      cases h
      refine Or.inl ⟨rfl, fun v => ?_⟩
      cases v with
      | nil => simp [hends]
      | cons d v => simp [holds_cons, hleaf, Branches.find?]
  | cons c w ih =>
      rw [walk, Option.bind_eq_some_iff] at h
      obtain ⟨child, hf, h⟩ := h
      rcases ih h with ⟨hk, honly⟩ | ⟨p, d, q, parent, other, hw, hk, hp, hon, ho, honly⟩
      -- no node further down holds on, so this one decides
      · by_cases hon : n.holdsOn = true
        · rw [if_pos hon] at hk
          exact Or.inr ⟨[], c, w, n, child, rfl, hk, rfl, hon, hf, honly⟩
        · rw [if_neg hon] at hk
          simp only [holdsOn, Bool.or_eq_true, decide_eq_true_eq, not_or, Bool.not_eq_true,
            not_lt] at hon
          refine Or.inl ⟨hk, fun v => ?_⟩
          cases v with
          | nil => simp [hon.1]
          | cons d v =>
              rw [holds_cons]
              cases hd : n.below.find? d with
              | none =>
                  have hne : d ≠ c := by
                    rintro rfl
                    rw [hf] at hd
                    cases hd
                  simp [hne]
              | some other =>
                  -- the only child is the one on the path
                  obtain ⟨rfl, rfl⟩ := Branches.find?_of_size_le_one hon.2 hf hd
                  rw [Option.any_some, honly v]
                  simp
      · refine Or.inr ⟨c :: p, d, q, parent, other, by rw [hw, List.cons_append], ?_, ?_, hon, ho,
          honly⟩
        · rw [hk, List.length_cons]
          omega
        · rw [descend, hf, Option.bind_some, hp]

/-- From the root: the branch that leaves the path at the depth that the walk gives has one member,
and the node there is the root or holds on. -/
theorem walk_root {w : Text} {k : Nat} {n last : Node} (h : n.walk 0 0 w = some (k, last))
    (hends : last.ends = true) (hleaf : last.below = .nil) (hw : w ≠ []) :
    ∃ p c q parent child, w = p ++ c :: q ∧ k = p.length ∧ n.descend p = some parent ∧
      (p = [] ∨ parent.holdsOn = true) ∧ parent.below.find? c = some child ∧
        child.HoldsOnly q := by
  rcases walk_anchor h hends hleaf with ⟨hk, honly⟩ | ⟨p, c, q, parent, child, hp, hk, hrest⟩
  · cases w with
    | nil => exact absurd rfl hw
    | cons c q =>
        rw [walk, Option.bind_eq_some_iff] at h
        obtain ⟨child, hf, -⟩ := h
        refine ⟨[], c, q, n, child, rfl, hk, rfl, Or.inl rfl, hf, fun v => ?_⟩
        rw [← holds_cons_of_find? hf, honly]
        simp
  · exact ⟨p, c, q, parent, child, hp, by omega, hrest.1, Or.inr hrest.2.1, hrest.2.2⟩

/-! ## Removal -/

theorem holds_append {p : Text} {n m : Node} (h : n.descend p = some m) (u : Text) :
    n.holds (p ++ u) = m.holds u := by
  induction p generalizing n with
  | nil =>
      cases h
      rfl
  | cons c p ih =>
      rw [descend, Option.bind_eq_some_iff] at h
      obtain ⟨child, hf, h⟩ := h
      rw [List.cons_append, holds_cons_of_find? hf, ih h]

theorem descend_sound {p : Text} {n m : Node} (hn : n.below.Sound) (h : n.descend p = some m) :
    m.below.Sound := by
  induction p generalizing n with
  | nil =>
      cases h
      exact hn
  | cons c p ih =>
      rw [descend, Option.bind_eq_some_iff] at h
      obtain ⟨child, hf, h⟩ := h
      exact ih (hn.child hf).2.2 h

/-- Cutting a branch that has one member takes away this member. -/
theorem holds_withoutChild {c : Char} {q : Text} {n child : Node} (hn : n.below.Sound)
    (hf : n.below.find? c = some child) (honly : child.HoldsOnly q) (u : Text) :
    Node.holds { n with below := n.below.erase c } u = true ↔ u ≠ c :: q ∧ n.holds u = true := by
  cases u with
  | nil => simp
  | cons d u =>
      by_cases hd : d = c
      · subst hd
        have hgone := hn.find?_erase_self d
        rw [holds_cons, hgone, holds_cons_of_find? hf, honly u]
        simp
      · rw [holds_cons, Branches.find?_erase_of_ne hd, ← holds_cons]
        simp [hd]

/-- Taking the mark off a node takes the empty text away. -/
theorem holds_unmarked (n : Node) (u : Text) :
    Node.holds { n with ends := false } u = true ↔ u ≠ [] ∧ n.holds u = true := by
  cases u with
  | nil => simp
  | cons d u => simp [holds_cons]

/-- A change at the end of a path that takes one member away from the node there takes one member
away from the whole subtree. -/
theorem holds_update?_of_removes {change : Node → Option Node} {p q : Text}
    {n n' last last' : Node} (h : n.update? change p = some n') (hlast : n.descend p = some last)
    (hchange : change last = some last')
    (hremoves : ∀ u, last'.holds u = true ↔ u ≠ q ∧ last.holds u = true) (v : Text) :
    n'.holds v = true ↔ v ≠ p ++ q ∧ n.holds v = true := by
  by_cases hp : p <+: v
  · obtain ⟨u, rfl⟩ := hp
    rw [(holds_update? h hlast hchange _).1 u rfl, hremoves, holds_append hlast]
    simp
  · rw [(holds_update? h hlast hchange v).2 hp]
    have hne : v ≠ p ++ q := by
      rintro rfl
      exact hp (List.prefix_append p q)
    simp [hne]

/-- **The cut of a removal.** Where a walk ends in a node without children, cutting the branch at
the depth that the walk gives is possible, takes one member away and keeps the subtree sound. -/
theorem cut?_spec {w : Text} {k : Nat} {n last : Node} (hn : n.below.Sound)
    (h : n.walk 0 0 w = some (k, last)) (hends : last.ends = true) (hleaf : last.below = .nil)
    (hw : w ≠ []) :
    ∃ n', n.cut? k w = some n' ∧ n'.label = n.label ∧ n'.below.Sound ∧
      ∀ v, n'.holds v = true ↔ v ≠ w ∧ n.holds v = true := by
  obtain ⟨p, c, q, parent, child, rfl, rfl, hp, hon, hf, honly⟩ := walk_root h hends hleaf hw
  have hparent : parent.below.Sound := descend_sound hn hp
  have hchange : withoutChild? c parent = some { parent with below := parent.below.erase c } := by
    rw [withoutChild?, hf, Option.isSome_some, if_pos rfl]
  have halive : p ≠ [] → Node.Alive { parent with below := parent.below.erase c } := by
    intro hne
    have hon := hon.resolve_left hne
    rw [holdsOn, Bool.or_eq_true, decide_eq_true_eq] at hon
    exact hon.imp id fun hsize => Branches.erase_ne_nil hsize c
  obtain ⟨n', hn'⟩ := update?_isSome hp hchange
  obtain ⟨hlabel, hsound, -⟩ :=
    update?_sound hn' hp hchange hn rfl halive fun hs => hs.erase c
  refine ⟨n', ?_, hlabel, hsound, holds_update?_of_removes hn' hp hchange
    (holds_withoutChild hparent hf honly)⟩
  rw [cut?, List.drop_left, List.take_left]
  exact hn'

/-- **The unmarking of a removal.** Where a member ends at a node that has children, or at the
root, taking its mark away takes one member away and keeps the subtree sound. -/
theorem unmark?_spec {w : Text} {n last : Node} (hn : n.below.Sound)
    (hlast : n.descend w = some last) (hkeep : last.below ≠ .nil ∨ w = []) :
    ∃ n', n.unmark? w = some n' ∧ n'.label = n.label ∧ n'.below.Sound ∧
      ∀ v, n'.holds v = true ↔ v ≠ w ∧ n.holds v = true := by
  have hchange : withoutMark? last = some { last with ends := false } := rfl
  obtain ⟨n', hn'⟩ := update?_isSome hlast hchange
  obtain ⟨hlabel, hsound, -⟩ := update?_sound hn' hlast hchange hn rfl
    (fun hne => Or.inr (hkeep.resolve_right hne)) id
  refine ⟨n', hn', hlabel, hsound, fun v => ?_⟩
  rw [holds_update?_of_removes hn' hlast hchange (holds_unmarked last) v, List.append_nil]

end Node

/-! ## Tries -/

namespace Trie

/-- The root carries no character, and everything below it is sound. -/
def Sound (t : Trie) : Prop := t.root.label = none ∧ t.root.below.Sound

theorem sound_empty : empty.Sound := ⟨rfl, trivial⟩

theorem contains_eq (t : Trie) (w : Text) : t.contains w = t.root.holds w := rfl

@[simp] theorem contains_empty (w : Text) : empty.contains w = false := by
  cases w <;> rfl

/-! ### Insertion -/

theorem insert_fst (t : Trie) (w : Text) : (t.insert w).1 = !t.contains w :=
  Node.insert_fst w t.root

theorem contains_insert (t : Trie) (w v : Text) :
    (t.insert w).2.contains v = true ↔ v = w ∨ t.contains v = true :=
  Node.holds_insert w t.root v

theorem size_insert (t : Trie) (w : Text) :
    (t.insert w).2.size = if t.contains w then t.size else t.size + 1 := by
  show (if (t.root.insert w).1 then t.size + 1 else t.size) = _
  rw [Node.insert_fst, contains_eq]
  cases t.root.holds w <;> rfl

theorem Sound.insert {t : Trie} (ht : t.Sound) (w : Text) : (t.insert w).2.Sound :=
  ⟨(Node.insert_label w t.root).trans ht.1, Node.insert_sound w ht.2⟩

theorem Sound.insert_of_contains {t : Trie} (ht : t.Sound) {w : Text}
    (h : t.contains w = true) : (t.insert w).2 = t := by
  have hroot : (t.root.insert w).2 = t.root := Node.insert_of_holds ht.2 h
  have hsize : (t.insert w).2.size = t.size := by rw [size_insert, if_pos h]
  show Trie.mk (t.root.insert w).2 (t.insert w).2.size = t
  rw [hroot, hsize]

/-! ### Removal -/

theorem erase_of_not_contains {t : Trie} {w : Text} (h : t.contains w = false) :
    t.erase w = (false, t) := by
  have hwalk := Node.walk_snd w 0 0 t.root
  rw [contains_eq, Node.holds] at h
  rw [erase]
  cases hw : t.root.walk 0 0 w with
  | none => rfl
  | some found =>
      rw [hw, Option.map_some] at hwalk
      rw [← hwalk, Option.any_some] at h
      show (if found.2.ends then _ else _) = _
      rw [h]
      rfl

/-- A removal of a member takes it away and keeps the trie sound. -/
theorem Sound.erase_of_contains {t : Trie} (ht : t.Sound) {w : Text} (h : t.contains w = true) :
    ∃ root, t.erase w = (true, ⟨root, t.size - 1⟩) ∧ root.label = none ∧ root.below.Sound ∧
      ∀ v, root.holds v = true ↔ v ≠ w ∧ t.contains v = true := by
  rw [contains_eq, Node.holds, Option.any_eq_true] at h
  obtain ⟨last, hlast, hends⟩ := h
  have hwalk := Node.walk_snd w 0 0 t.root
  rw [hlast, Option.map_eq_some_iff] at hwalk
  obtain ⟨⟨k, last'⟩, hwalk, rfl⟩ := hwalk
  rw [erase, hwalk]
  simp only at hends hlast ⊢
  rw [if_pos hends]
  by_cases hcut : last'.below = .nil ∧ w ≠ []
  -- a leaf other than the root goes with the branch that leads to it alone
  · obtain ⟨root, hroot, hlabel, hsound, hholds⟩ :=
      Node.cut?_spec ht.2 hwalk hends hcut.1 hcut.2
    refine ⟨root, ?_, hlabel.trans ht.1, hsound, hholds⟩
    have htest : (last'.below.isEmpty && !w.isEmpty) = true := by
      rw [hcut.1]
      simp [Branches.isEmpty, hcut.2]
    rw [if_pos htest, hroot]
  -- any other node stays, without its mark
  · have hkeep : last'.below ≠ .nil ∨ w = [] := by
      rcases Classical.em (w = []) with hw | hw
      · exact Or.inr hw
      · exact Or.inl fun hnil => hcut ⟨hnil, hw⟩
    obtain ⟨root, hroot, hlabel, hsound, hholds⟩ := Node.unmark?_spec ht.2 hlast hkeep
    refine ⟨root, ?_, hlabel.trans ht.1, hsound, hholds⟩
    have htest : ¬ (last'.below.isEmpty && !w.isEmpty) = true := by
      rcases hkeep with hkeep | rfl
      · cases hb : last'.below with
        | nil => exact absurd hb hkeep
        | cons => simp [Branches.isEmpty]
      · simp
    rw [if_neg htest, hroot]

theorem Sound.erase_fst {t : Trie} (ht : t.Sound) (w : Text) :
    (t.erase w).1 = t.contains w := by
  cases h : t.contains w with
  | false => rw [erase_of_not_contains h]
  | true =>
      obtain ⟨root, hroot, -⟩ := ht.erase_of_contains h
      rw [hroot]

theorem Sound.contains_erase {t : Trie} (ht : t.Sound) (w v : Text) :
    (t.erase w).2.contains v = true ↔ v ≠ w ∧ t.contains v = true := by
  cases h : t.contains w with
  | false =>
      rw [erase_of_not_contains h]
      refine ⟨fun hv => ⟨?_, hv⟩, fun hv => hv.2⟩
      rintro rfl
      rw [h] at hv
      cases hv
  | true =>
      obtain ⟨root, hroot, -, -, hholds⟩ := ht.erase_of_contains h
      rw [hroot]
      exact hholds v

theorem Sound.size_erase {t : Trie} (ht : t.Sound) (w : Text) :
    (t.erase w).2.size = if t.contains w then t.size - 1 else t.size := by
  cases h : t.contains w with
  | false =>
      rw [erase_of_not_contains h]
      rfl
  | true =>
      obtain ⟨root, hroot, -⟩ := ht.erase_of_contains h
      rw [hroot]
      rfl

theorem Sound.erase {t : Trie} (ht : t.Sound) (w : Text) : (t.erase w).2.Sound := by
  cases h : t.contains w with
  | false =>
      rw [erase_of_not_contains h]
      exact ht
  | true =>
      obtain ⟨root, hroot, hlabel, hsound, -⟩ := ht.erase_of_contains h
      rw [hroot]
      exact ⟨hlabel, hsound⟩

end Trie

end Unmangle
