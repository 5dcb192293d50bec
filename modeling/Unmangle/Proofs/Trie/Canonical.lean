import Unmangle.Proofs.Trie.Comparing
import Unmangle.Proofs.Trie.Language
import Unmangle.Trie.Outline

set_option autoImplicit false

/-! # One trie for each set

A sound tree is determined by its members: no child is dead, so the words of a list of children
tell its keys, and the keys ascend, so there is one order for them
(`Branches.Sound.eq_of_spells`). Two tries that represent the same finite set are therefore equal,
whatever happened to them before (`Trie.Represents.unique`), and everything that is written from a
trie depends on the set alone. The pattern determines the set in turn, since it matches the members
and nothing else (`Trie.Represents.pattern_eq_iff`).

The main statement is `Trie.canonical`.
-/

namespace Unmangle

theorem Branches.not_spells_empty (b : Branches) : ¬ b.Spells [] := by
  rintro ⟨c, v, child, heq, -⟩
  cases heq

/-- Two nodes that hold the same words agree on whether a member ends at them, and their children
spell the same words. -/
theorem Node.holds_congr {a b : Node} (h : ∀ w, a.holds w = true ↔ b.holds w = true) :
    a.ends = b.ends ∧ ∀ w, a.below.Spells w ↔ b.below.Spells w := by
  refine ⟨Bool.eq_iff_iff.2 (h []), fun w => ?_⟩
  cases w with
  | nil => exact iff_of_false a.below.not_spells_empty b.below.not_spells_empty
  | cons c v =>
      have hw := h (c :: v)
      simpa [holds_iff] using hw

namespace Branches

/-- A list of live children spells some word: by induction on the tree, along a branch that goes on
until a member ends. -/
theorem Sound.exists_spells {b : Branches} (hb : b.Sound) (hne : b ≠ .nil) : ∃ w, b.Spells w := by
  induction b with
  | nil => exact absurd rfl hne
  | cons key label ends below rest ihb _ =>
      obtain ⟨-, halive, hlt, hbelow, -⟩ := hb
      have hfirst : ∃ v, Node.holds ⟨label, ends, below⟩ v = true := by
        rcases halive with hends | hmore
        · exact ⟨[], hends⟩
        · obtain ⟨v, hv⟩ := ihb hbelow hmore
          exact ⟨v, (Node.holds_iff _ v).2 (Or.inr hv)⟩
      obtain ⟨v, hv⟩ := hfirst
      exact ⟨key :: v, (spells_cons hlt _).2 (Or.inl ⟨v, rfl, hv⟩)⟩

/-- The words of a list of children start with the keys. -/
theorem Spells.exists_key {b : Branches} {c : Char} {v : Text} (h : b.Spells (c :: v)) :
    ∃ e ∈ b.toList, e.1 = c := by
  obtain ⟨d, u, child, heq, hfind, -⟩ := h
  cases heq
  exact ⟨(c, child), mem_toList_of_find? hfind, rfl⟩

/-- The first child alone spells the words that start with its key. -/
theorem spells_key {key : Char} {label : Option Char} {ends : Bool} {below rest : Branches}
    (h : ∀ e ∈ rest.toList, key < e.1) (v : Text) :
    (Branches.cons key label ends below rest).Spells (key :: v) ↔
      Node.holds ⟨label, ends, below⟩ v = true := by
  rw [spells_cons h]
  constructor
  · rintro (⟨u, heq, hu⟩ | hrest)
    · cases heq
      exact hu
    · obtain ⟨e, he, hkey⟩ := hrest.exists_key
      exact absurd (h e he) (hkey ▸ lt_irrefl _)
  · intro hv
    exact Or.inl ⟨v, rfl, hv⟩

/-- The other children spell the words that do not start with the first key. -/
theorem spells_rest {key : Char} {label : Option Char} {ends : Bool} {below rest : Branches}
    (h : ∀ e ∈ rest.toList, key < e.1) (w : Text) :
    rest.Spells w ↔
      (Branches.cons key label ends below rest).Spells w ∧ w.head? ≠ some key := by
  rw [spells_cons h]
  constructor
  · intro hrest
    refine ⟨Or.inr hrest, ?_⟩
    obtain ⟨c, v, child, rfl, hfind, -⟩ := hrest
    have hlt : key < c := h _ (mem_toList_of_find? hfind)
    simp only [List.head?_cons, ne_eq, Option.some.injEq]
    exact ne_of_gt hlt
  · rintro ⟨⟨v, rfl, -⟩ | hrest, hhead⟩
    · exact absurd rfl hhead
    · exact hrest

/-- The first key is the least character with which a word starts. -/
theorem Sound.key_le {key key' : Char} {label label' : Option Char} {ends ends' : Bool}
    {below below' rest rest' : Branches} (hb : (cons key label ends below rest).Sound)
    (hd : (cons key' label' ends' below' rest').Sound)
    (h : ∀ w, (cons key label ends below rest).Spells w →
      (cons key' label' ends' below' rest').Spells w) : key' ≤ key := by
  -- the first child alone is a sound list of children too, so some word starts with its key
  obtain ⟨w, hw⟩ := hb.first.exists_spells Branches.noConfusion
  obtain ⟨v, rfl, hv⟩ := ((spells_cons hb.first.2.2.1 w).1 hw).resolve_right (spells_nil w)
  obtain ⟨e, he, hkey⟩ := (h _ ((spells_key hb.2.2.1 v).2 hv)).exists_key
  rw [toList] at he
  rcases List.mem_cons.1 he with rfl | he
  · exact le_of_eq hkey
  · rw [← hkey]
    exact le_of_lt (hd.2.2.1 e he)

/-- **Children from words.** Two sound lists of children that spell the same words are equal. -/
theorem Sound.eq_of_spells {b d : Branches} (hb : b.Sound) (hd : d.Sound)
    (h : ∀ w, b.Spells w ↔ d.Spells w) : b = d := by
  induction b generalizing d with
  | nil =>
      by_contra hne
      obtain ⟨w, hw⟩ := hd.exists_spells (Ne.symm hne)
      exact spells_nil w ((h w).2 hw)
  | cons key label ends below rest ihb ihr =>
      cases d with
      | nil =>
          obtain ⟨w, hw⟩ := hb.exists_spells Branches.noConfusion
          exact absurd ((h w).1 hw) (spells_nil w)
      | cons key' label' ends' below' rest' =>
          -- both first keys are the least characters with which words start
          have hkey : key = key' := le_antisymm
            (hd.key_le hb fun w hw => (h w).2 hw) (hb.key_le hd fun w hw => (h w).1 hw)
          subst hkey
          obtain ⟨rfl, -, hlt, hbelow, hrest⟩ := hb
          obtain ⟨rfl, -, hlt', hbelow', hrest'⟩ := hd
          -- the words that start with this key are those of the first child
          have hfirst : ∀ v, Node.holds ⟨some key, ends, below⟩ v = true ↔
              Node.holds ⟨some key, ends', below'⟩ v = true := by
            intro v
            rw [← spells_key hlt, ← spells_key hlt', h]
          obtain ⟨hends, hspells⟩ := Node.holds_congr hfirst
          simp only at hends hspells
          -- and the other words are those of the other children
          have hmore : ∀ w, rest.Spells w ↔ rest'.Spells w := by
            intro w
            rw [spells_rest hlt, spells_rest hlt', h]
          rw [hends, ihb hbelow hbelow' hspells, ihr hrest hrest' hmore]

end Branches

namespace Trie

/-- A trie is determined by the set that it represents. -/
theorem Represents.unique {t u : Trie} {s : Finset Text} (ht : t.Represents s)
    (hu : u.Represents s) : t = u := by
  have hholds : ∀ w, t.root.holds w = true ↔ u.root.holds w = true := by
    intro w
    rw [← contains_eq, ← contains_eq, ht.contains_iff, hu.contains_iff]
  obtain ⟨hends, hspells⟩ := Node.holds_congr hholds
  have hbelow : t.root.below = u.root.below :=
    ht.sound.2.eq_of_spells hu.sound.2 hspells
  have hlabel : t.root.label = u.root.label := ht.sound.1.trans hu.sound.1.symm
  have hsize : t.size = u.size := ht.size_eq.trans hu.size_eq.symm
  obtain ⟨⟨label, ends, below⟩, size⟩ := t
  obtain ⟨⟨label', ends', below'⟩, size'⟩ := u
  simp only at hlabel hends hbelow hsize
  rw [hlabel, hends, hbelow, hsize]

/-- Two tries have the same members exactly when their patterns are the same text: the pattern can
be read, and what is read matches the members. -/
theorem Represents.pattern_eq_iff {t u : Trie} {s s' : Finset Text} (ht : t.Represents s)
    (hu : u.Represents s') : t.pattern = u.pattern ↔ s = s' := by
  constructor
  · intro hpattern
    -- the same text is read as the same pattern, which matches the members of both tries
    have hparse : some (Pattern.group t.body) = some (.group u.body) := by
      rw [← t.pattern_parse?, ← u.pattern_parse?, hpattern]
    have hbody : t.body = u.body := Pattern.group.inj (Option.some.inj hparse)
    refine Finset.ext fun w => ?_
    rw [← ht.contains_iff, ← hu.contains_iff, ← ht.matches_body [] w [], hbody,
      hu.matches_body [] w []]
  · rintro rfl
    rw [ht.unique hu]

/-- Taking out again what was just added gives the trie back; where nothing was added, the trie
that is left lacks a member. -/
theorem Represents.erase_insert {t : Trie} {s : Finset Text} (h : t.Represents s) (w : Text) :
    ((t.insert w).2.erase w).2 = t ↔ (t.insert w).1 = true := by
  have hback := (h.insert w).erase w
  rw [h.insert_fst, decide_eq_true_iff]
  constructor
  · intro heq hw
    have hgone := hback.contains_iff w
    rw [heq, h.contains_iff] at hgone
    exact absurd (hgone.1 hw) (Finset.notMem_erase w _)
  · intro hw
    rw [Finset.erase_insert hw] at hback
    exact hback.unique h

/-- The trie in a slot after a history of operations on tries that are empty at first. -/
def after (ops : List Operation) (slot : Nat) : Trie :=
  (history (fun tries op => op.onTries tries) (fun _ => .empty) ops).2 slot

theorem after_represents (ops : List Operation) (slot : Nat) :
    ∃ s : Finset Text, (after ops slot).Represents s :=
  ⟨_, (history_represents (fun _ => Represents.empty) ops).2 slot⟩

/-- **One trie for each set.** Two tries, each made by any history of insertions, removals,
extensions and copies, compare equal exactly when they have the same members, and exactly when
their patterns are the same text. With the same members they also have the same outline. Taking
out again a text that was new gives a trie that compares equal to the one before. -/
theorem canonical (ops ops' : List Operation) (slot slot' : Nat) :
    let t := after ops slot
    let u := after ops' slot'
    (t.same u = true ↔ ∀ w, t.contains w = u.contains w) ∧
    (t.same u = true ↔ t.pattern = u.pattern) ∧
    ((∀ w, t.contains w = u.contains w) → t.outline = u.outline) ∧
    ∀ w, ((t.insert w).2.erase w).2.same t = true ↔ (t.insert w).1 = true := by
  intro t u
  obtain ⟨s, ht⟩ := after_represents ops slot
  obtain ⟨s', hu⟩ := after_represents ops' slot'
  have hmembers : (∀ w, t.contains w = u.contains w) ↔ s = s' := by
    rw [Finset.ext_iff]
    refine forall_congr' fun w => ?_
    rw [Bool.eq_iff_iff, ht.contains_iff, hu.contains_iff]
  have hequal : t = u ↔ s = s' := by
    constructor
    · intro htu
      rw [← hmembers, htu]
      exact fun _ => rfl
    · rintro rfl
      exact ht.unique hu
  have hsame : t.same u = true ↔ s = s' := (ht.sound.same_iff hu.sound).trans hequal
  refine ⟨hsame.trans hmembers.symm, hsame.trans (ht.pattern_eq_iff hu).symm, ?_, fun w => ?_⟩
  · intro h
    rw [hequal.2 (hmembers.1 h)]
  · rw [((ht.insert w).erase w).sound.same_iff ht.sound, ht.erase_insert]

/-- Two histories with the same members at the end: in another order, with a detour, and through a
copy of a trie that was collected. A third one, without the detour's way back, has one more. -/
theorem canonical_detour :
    let t := after [.insert 0 "words".toList, .insert 0 "word".toList] 0
    let u := after [.collect 1 ["word".toList, "wo".toList], .copy 1 2, .insert 2 "words".toList,
      .erase 2 "wo".toList] 2
    let v := after [.collect 1 ["word".toList, "wo".toList], .copy 1 2, .insert 2 "words".toList] 2
    t.same u = true ∧ t.pattern = u.pattern ∧ t.outline = u.outline ∧
      t.same v = false ∧ t.pattern ≠ v.pattern ∧ ∃ w, t.contains w ≠ v.contains w := by
  intro t u v
  obtain ⟨hmembers, hpattern, houtline, -⟩ := canonical
    [.insert 0 "words".toList, .insert 0 "word".toList]
    [.collect 1 ["word".toList, "wo".toList], .copy 1 2, .insert 2 "words".toList,
      .erase 2 "wo".toList] 0 2
  obtain ⟨hmembers', hpattern', -⟩ := canonical
    [.insert 0 "words".toList, .insert 0 "word".toList]
    [.collect 1 ["word".toList, "wo".toList], .copy 1 2, .insert 2 "words".toList] 0 2
  have hsame : t.same u = true := by decide
  have hdiffer : ¬ t.same v = true := by decide
  exact ⟨hsame, hpattern.1 hsame, houtline (hmembers.1 hsame), Bool.eq_false_iff.2 hdiffer,
    mt hpattern'.2 hdiffer, not_forall.1 (mt hmembers'.2 hdiffer)⟩

end Trie

end Unmangle
