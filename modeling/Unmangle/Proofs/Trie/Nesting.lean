import Unmangle.Proofs.Decode.Longest
import Unmangle.Proofs.Pattern.Depth
import Unmangle.Proofs.Trie.Nodes

set_option autoImplicit false

/-! # How deeply the pattern of a trie nests

The depth of a trie's pattern is computed on the tree (`Trie.nesting`): a branch point costs its
group, the choice in it and the sequence that it stands in, a member that ends there the repetition,
and a run of nodes with one child only the sequence (`Trie.Sound.depth_wordPattern`).

* `Trie.Represents.nesting_le`: members of at most `n + 1` characters nest `4 * n + 3` deep at most.
* `Trie.Represents.nesting_mono`: fewer members, but still some, do not nest deeper.
* `Trie.Represents.le_nesting`: the words of a ladder reach the first bound.
-/

namespace Unmangle

open Pattern (deepest chainDepth LinkOf sequence choices groupOf)

/-! ## Depths on the tree -/

/-- The depth of a group of alternatives: the group itself, its repetition where a member ends, and
the choice if there is more than one. -/
def groupNesting (ends : Bool) (children below : Nat) : Nat :=
  below + (if ends then 1 else 0) + chainDepth children + 1

/-- The depth of a node and all below it, from the number of characters that it starts with, the
mark that a member ends there, the number of its children and the depth of the deepest of them. An
only child goes on with the sequence of the character before it, a group makes one with it. -/
def nodeNesting (characters : Nat) (ends : Bool) (children below : Nat) : Nat :=
  if children = 0 then 0
  else if children = 1 ∧ ends = false then max characters below
  else groupNesting ends children below + characters

/-- The depth of the deepest child. -/
def Branches.nesting : Branches → Nat
  | .nil => 0
  | .cons _ label ends below rest =>
      max (nodeNesting label.toList.length ends below.size below.nesting) rest.nesting

def Node.nesting (n : Node) : Nat :=
  nodeNesting n.label.toList.length n.ends n.below.size n.below.nesting

/-- The depth of what the group of a trie's pattern holds. -/
def Trie.nesting (t : Trie) : Nat := if t.isEmpty then 1 else t.root.nesting

theorem Branches.nesting_le_of_find? {b : Branches} {c : Char} {n : Node} (h : b.find? c = some n) :
    n.nesting ≤ b.nesting := by
  induction b with
  | nil => cases h
  | cons key label ends below rest _ ih =>
      rw [find?] at h
      split at h
      · cases h
        exact Nat.le_max_left _ _
      · exact Nat.le_trans (ih h) (Nat.le_max_right _ _)

/-! ## They are the depths of the expressions -/

theorem linkOf_groupOf (kind : Pattern.Chain) (ends : Bool) (alts : List (List Pattern)) :
    LinkOf kind (groupOf ends alts) := by
  cases ends <;> rfl

/-- What is attached to a node are links of any chain if the alternatives are. -/
theorem linkOf_attached {kind : Pattern.Chain} {ends : Bool} {alts : List (List Pattern)}
    (h : ∀ alt ∈ alts, ∀ p ∈ alt, LinkOf kind p) : ∀ p ∈ attached ends alts, LinkOf kind p := by
  unfold attached
  split
  · simp
  · rename_i alt
    split
    · intro p hp
      rw [List.mem_singleton.1 hp]
      exact linkOf_groupOf kind ends _
    · exact h alt List.mem_cons_self
  · intro p hp
    rw [List.mem_singleton.1 hp]
    exact linkOf_groupOf kind ends _

theorem linkOf_literals (kind : Pattern.Chain) (t : Text) :
    ∀ p ∈ t.map Pattern.literal, LinkOf kind p := by
  intro p hp
  obtain ⟨c, -, rfl⟩ := List.mem_map.1 hp
  rfl

theorem linkOf_alts (kind : Pattern.Chain) (b : Branches) :
    ∀ alt ∈ b.alts, ∀ p ∈ alt, LinkOf kind p := by
  induction b with
  | nil => simp [Branches.alts]
  | cons key label ends below rest ihb ihr =>
      intro alt halt p hp
      rcases List.mem_cons.1 halt with rfl | halt
      · rcases List.mem_append.1 hp with hp | hp
        · exact linkOf_literals kind _ p hp
        · exact linkOf_attached ihb p hp
      · exact ihr alt halt p hp

theorem length_alts (b : Branches) : b.alts.length = b.size := by
  induction b with
  | nil => rfl
  | cons key label ends below rest _ ih => simp [Branches.alts, Branches.size, ih]

theorem depth_groupOf (ends : Bool) (b : Branches) :
    (groupOf ends b.alts).depth = groupNesting ends b.size (deepest (b.alts.map sequence)) := by
  have hlinks : ∀ p ∈ b.alts.map sequence, LinkOf .choice p := by
    intro p hp
    obtain ⟨alt, halt, rfl⟩ := List.mem_map.1 hp
    exact Pattern.linkOf_sequence (linkOf_alts .choice b alt halt)
  have hchoices := Pattern.depth_choices hlinks
  rw [List.length_map, length_alts] at hchoices
  unfold groupNesting
  cases ends with
  | true =>
      show (choices (b.alts.map sequence)).depth + 1 + 1 = _
      rw [hchoices, if_pos rfl]
      omega
  | false =>
      show (choices (b.alts.map sequence)).depth + 1 = _
      rw [hchoices]
      simp

/-- What is attached to a node is a group, except for an only child at which no member ends. -/
theorem attached_eq_group {ends : Bool} {b : Branches} (hsome : b.size ≠ 0)
    (hgroup : ¬ (b.size = 1 ∧ ends = false)) : attached ends b.alts = [groupOf ends b.alts] := by
  cases b with
  | nil => exact absurd rfl hsome
  | cons key label ends' below rest =>
      cases rest with
      | cons => rfl
      | nil =>
          cases ends with
          | true => rfl
          | false => exact absurd ⟨rfl, rfl⟩ hgroup

/-- An only child at which no member ends goes on with the sequence. -/
theorem Branches.Sound.attached_only {b : Branches} (hb : b.Sound) (hone : b.size = 1) :
    ∃ c more, b.alts = [.literal c :: more] ∧ attached false b.alts = .literal c :: more := by
  cases b with
  | nil => cases hone
  | cons key label ends below rest =>
      cases rest with
      | cons => cases hone
      | nil =>
          obtain ⟨rfl, -⟩ := hb
          exact ⟨key, attached ends below.alts, rfl, rfl⟩

/-- A sequence that starts with a character nests no deeper with another character before it, unless
it was that character alone. -/
theorem depth_literal_cons (key c : Char) {more : List Pattern} (h : ∀ p ∈ more, LinkOf .seq p) :
    (sequence (.literal key :: .literal c :: more)).depth =
      max 1 (sequence (.literal c :: more)).depth := by
  have hlinks : ∀ p ∈ Pattern.literal c :: more, LinkOf .seq p := List.forall_mem_cons.2 ⟨rfl, h⟩
  have hmore : ∀ p ∈ Pattern.literal key :: .literal c :: more, LinkOf .seq p :=
    List.forall_mem_cons.2 ⟨rfl, hlinks⟩
  rw [Pattern.depth_sequence hmore, Pattern.depth_sequence hlinks]
  cases more with
  | nil => rfl
  | cons p rest => simp [chainDepth]

/-- A node starts with one character at most, and what is attached to it follows. The cases are
those of `nodeNesting`. -/
theorem Node.depth_items {n : Node} (hn : n.below.Sound) :
    (sequence n.items).depth = nodeNesting n.label.toList.length n.ends n.below.size
      (deepest (n.below.alts.map sequence)) := by
  obtain ⟨label, ends, below⟩ := n
  unfold nodeNesting
  rw [items]
  split
  · rename_i hnone
    cases below with
    | nil => cases label <;> rfl
    | cons => cases hnone
  · rename_i hsome
    split
    · rename_i honly
      obtain ⟨hone, hends⟩ := honly
      obtain ⟨c, more, halts, hitems⟩ := hn.attached_only hone
      have hlinks : ∀ p ∈ Pattern.literal c :: more, LinkOf .seq p := by
        rw [← hitems]
        exact linkOf_attached (linkOf_alts .seq below)
      rw [hends, hitems, halts]
      cases label with
      | none => simp
      | some key => simpa using depth_literal_cons key c (List.forall_mem_cons.1 hlinks).2
    · rename_i hgroup
      rw [attached_eq_group hsome hgroup, ← depth_groupOf]
      cases label with
      | none => rfl
      | some key =>
          have hlinks : ∀ p ∈ [Pattern.literal key, groupOf ends below.alts], LinkOf .seq p :=
            List.forall_mem_cons.2 ⟨rfl, List.forall_mem_singleton.2 (linkOf_groupOf .seq ends _)⟩
          show (sequence [.literal key, groupOf ends below.alts]).depth = _
          rw [Pattern.depth_sequence hlinks]
          simp [chainDepth]

theorem Branches.Sound.deepest_alts {b : Branches} (hb : b.Sound) :
    deepest (b.alts.map sequence) = b.nesting := by
  induction b with
  | nil => rfl
  | cons key label ends below rest ihb ihr =>
      obtain ⟨-, -, -, hbelow, hrest⟩ := hb
      have hfirst : (sequence (Node.items ⟨label, ends, below⟩)).depth = _ :=
        Node.depth_items hbelow
      rw [ihb hbelow] at hfirst
      show max (sequence (Node.items ⟨label, ends, below⟩)).depth
        (deepest (rest.alts.map sequence)) = _
      rw [hfirst, ihr hrest, nesting]

/-- The boundaries around the group make a sequence of it. -/
theorem Trie.Sound.depth_wordPattern {t : Trie} (ht : t.Sound) :
    t.wordPattern.depth = t.nesting + 2 := by
  have hbody : t.body.depth = t.nesting := by
    rw [body, bodyItems, nesting]
    split
    · rfl
    · rw [Node.depth_items ht.2, ht.2.deepest_alts, Node.nesting]
  show max 0 (max (t.body.depth + 1) 0) + 1 = _
  rw [hbody, Nat.max_zero, Nat.zero_max]

/-! ## Short members -/

theorem nodeNesting_le (characters : Nat) (ends : Bool) (children below : Nat) :
    nodeNesting characters ends children below ≤ below + 3 + characters := by
  unfold nodeNesting groupNesting chainDepth
  split_ifs <;> omega

/-- Each character of a word but the last one counts four at most. -/
theorem Branches.Sound.nesting_le {b : Branches} (hb : b.Sound) {n : Nat}
    (h : ∀ w, b.Spells w → w.length ≤ n + 1) : b.nesting ≤ 4 * n := by
  induction b generalizing n with
  | nil => exact Nat.zero_le _
  | cons key label ends below rest ihb ihr =>
      obtain ⟨rfl, -, hlt, hbelow, hrest⟩ := hb
      have hmore : rest.nesting ≤ 4 * n :=
        ihr hrest fun w hw => h w ((spells_cons hlt w).2 (Or.inr hw))
      refine Nat.max_le.2 ⟨?_, hmore⟩
      have hshort : ∀ v, below.Spells v → v.length ≤ n := by
        intro v hv
        have hholds : Node.holds ⟨some key, ends, below⟩ v = true :=
          (Node.holds_iff _ v).2 (Or.inr hv)
        exact Nat.le_of_succ_le_succ (h _ ((spells_key hlt v).2 hholds))
      by_cases hnil : below = .nil
      · rw [hnil]
        exact Nat.zero_le _
      · -- there are longer words, so one character more is left for them
        obtain ⟨v, hv⟩ := hbelow.exists_spells hnil
        have hlong : v ≠ [] := fun hempty => not_spells_empty below (hempty ▸ hv)
        have hpos := List.length_pos_iff.2 hlong
        have hlength := hshort v hv
        obtain ⟨m, rfl⟩ : ∃ m, n = m + 1 := ⟨n - 1, by omega⟩
        have hnesting := ihb hbelow hshort
        have hnode := nodeNesting_le 1 ends below.size below.nesting
        show nodeNesting 1 ends below.size below.nesting ≤ _
        omega

/-- **Short members.** The pattern of members of at most `n + 1` characters. -/
theorem Trie.Represents.nesting_le {t : Trie} {s : Finset Text} (h : t.Represents s) {n : Nat}
    (hshort : ∀ w ∈ s, w.length ≤ n + 1) : t.nesting ≤ 4 * n + 3 := by
  have hbelow : t.root.below.nesting ≤ 4 * n := by
    refine h.sound.2.nesting_le fun w hw => hshort w ?_
    rw [← h.contains_iff, contains_eq, Node.holds_iff]
    exact Or.inr hw
  have hroot := nodeNesting_le 0 t.root.ends t.root.below.size t.root.below.nesting
  unfold nesting Node.nesting
  rw [h.sound.1]
  show (if t.isEmpty then 1 else nodeNesting 0 _ _ _) ≤ _
  split <;> omega

/-! ## Fewer members -/

/-- A group stays a group when a mark or children come, and an only child that becomes one of a
group is not deeper than the group. -/
theorem nodeNesting_mono (characters : Nat) {ends ends' : Bool}
    {children children' below below' : Nat} (hends : ends = true → ends' = true)
    (hchildren : children ≤ children') (hbelow : below ≤ below') :
    nodeNesting characters ends children below ≤ nodeNesting characters ends' children' below' := by
  have hmark : (if ends then 1 else 0) ≤ if ends' then 1 else 0 := by
    cases ends with
    | false => simp
    | true => simp [hends rfl]
  have hchain : chainDepth children ≤ chainDepth children' := by
    unfold chainDepth
    split_ifs <;> omega
  unfold nodeNesting groupNesting
  by_cases hnone : children = 0
  · rw [if_pos hnone]
    exact Nat.zero_le _
  · have hsome : children' ≠ 0 := by omega
    rw [if_neg hnone, if_neg hsome]
    by_cases honly : children' = 1 ∧ ends' = false
    · have hmark : ends = false := by
        cases ends with
        | false => rfl
        | true => exact absurd (hends rfl) (by simp [honly.2])
      have honce : children = 1 := by omega
      rw [if_pos honly, if_pos ⟨honce, hmark⟩]
      omega
    · rw [if_neg honly]
      split <;> omega

/-- Of two nodes that are reached by the same character, the one that holds fewer words has its mark
only where the other one has, and its children spell fewer words. -/
theorem Node.holds_mono {a b : Node} (h : ∀ w, a.holds w = true → b.holds w = true) :
    (a.ends = true → b.ends = true) ∧ ∀ w, a.below.Spells w → b.below.Spells w := by
  refine ⟨h [], fun w hw => ?_⟩
  have hne : w ≠ [] := fun hempty => a.below.not_spells_empty (hempty ▸ hw)
  exact spells_of_holds hne (h w ((holds_iff a w).2 (Or.inr hw)))

namespace Branches

variable {b d : Branches}

/-- Where fewer words are spelled, each child has its counterpart. -/
theorem Sound.find?_of_spells (hb : b.Sound) (h : ∀ w, b.Spells w → d.Spells w) {c : Char}
    {n : Node} (hn : b.find? c = some n) :
    ∃ m, d.find? c = some m ∧ ∀ v, n.holds v = true → m.holds v = true := by
  obtain ⟨-, halive, hbelow⟩ := hb.child hn
  obtain ⟨w, hw⟩ := halive.exists_holds hbelow
  obtain ⟨m, hm, -⟩ := (h _ ((spells_iff_of_find? hn w).2 hw)).exists_child
  refine ⟨m, hm, fun v hv => ?_⟩
  rw [← spells_iff_of_find? hm]
  exact h _ ((spells_iff_of_find? hn v).2 hv)

theorem Sound.size_mono (hb : b.Sound) (h : ∀ w, b.Spells w → d.Spells w) : b.size ≤ d.size := by
  have hkeys : b.toList.map (·.1) ⊆ d.toList.map (·.1) := by
    intro c hc
    obtain ⟨e, he, rfl⟩ := List.mem_map.1 hc
    obtain ⟨m, hm, -⟩ := hb.find?_of_spells h (hb.ordered.find?_of_mem he)
    exact List.mem_map.2 ⟨_, mem_toList_of_find? hm, rfl⟩
  have hnodup : (b.toList.map (·.1)).Nodup :=
    List.pairwise_map.2 (hb.ordered.pairwise_toList.imp fun hlt => ne_of_lt hlt)
  have hlength := (List.subperm_of_subset hnodup hkeys).length_le
  rwa [List.length_map, List.length_map, length_toList, length_toList] at hlength

/-- Children that spell fewer words do not nest deeper: by induction on them, each against its
counterpart. -/
theorem Sound.nesting_mono (hb : b.Sound) (hd : d.Sound) (h : ∀ w, b.Spells w → d.Spells w) :
    b.nesting ≤ d.nesting := by
  induction b generalizing d with
  | nil => exact Nat.zero_le _
  | cons key label ends below rest ihb ihr =>
      obtain ⟨m, hm, hmore⟩ := hb.find?_of_spells h (if_pos rfl)
      obtain ⟨rfl, -, hlt, hbelow, hrest⟩ := hb
      obtain ⟨hlabel, -, hbelow'⟩ := hd.child hm
      obtain ⟨hends, hspells⟩ := Node.holds_mono hmore
      have hfirst : Node.nesting ⟨some key, ends, below⟩ ≤ m.nesting := by
        rw [Node.nesting, Node.nesting, hlabel]
        exact nodeNesting_mono 1 hends (hbelow.size_mono hspells) (ihb hbelow hbelow' hspells)
      have hothers : rest.nesting ≤ d.nesting :=
        ihr hrest hd fun w hw => h w ((spells_cons hlt w).2 (Or.inr hw))
      exact Nat.max_le.2 ⟨Nat.le_trans hfirst (nesting_le_of_find? hm), hothers⟩

end Branches

/-- **Fewer members.** A pattern with fewer members does not nest deeper, but for the bracketed
class of the trie without members. -/
theorem Trie.Represents.nesting_mono {t u : Trie} {s s' : Finset Text} (ht : t.Represents s)
    (hu : u.Represents s') (h : s ⊆ s') : t.nesting ≤ max 1 u.nesting := by
  have hholds : ∀ w, t.root.holds w = true → u.root.holds w = true := by
    intro w hw
    rw [← contains_eq, ht.contains_iff] at hw
    rw [← contains_eq, hu.contains_iff]
    exact h hw
  obtain ⟨hends, hspells⟩ := Node.holds_mono hholds
  have hroot : t.root.nesting ≤ u.root.nesting := by
    rw [Node.nesting, Node.nesting, ht.sound.1, hu.sound.1]
    exact nodeNesting_mono 0 hends (ht.sound.2.size_mono hspells)
      (ht.sound.2.nesting_mono hu.sound.2 hspells)
  rw [nesting, nesting]
  by_cases htnone : t.isEmpty = true
  · rw [if_pos htnone]
    exact Nat.le_max_left _ _
  · have hunone : ¬ u.isEmpty = true := by
      rw [hu.isEmpty_iff]
      rintro rfl
      exact htnone (ht.isEmpty_iff.2 (Finset.subset_empty.1 h))
    rw [if_neg htnone, if_neg hunone]
    exact Nat.le_trans hroot (Nat.le_max_right _ _)

/-! ## The deepest patterns -/

/-- The words that nest deepest: the runs of one character, and each of them with another character
behind it. At every node of the run a member ends, and there are two ways on. -/
def ladder (c d : Char) (n : Nat) : List Text :=
  [] :: (List.range (n + 1)).flatMap fun i =>
    [List.replicate (i + 1) c, List.replicate i c ++ [d]]

namespace Branches

/-- Some children spell the words of a ladder. -/
def Climbs (c d : Char) (n : Nat) (b : Branches) : Prop :=
  ∀ i ≤ n, b.Spells (List.replicate (i + 1) c) ∧ b.Spells (List.replicate i c ++ [d])

variable {b : Branches} {c d : Char} {n : Nat}

theorem Climbs.two_le_size (h : b.Climbs c d n) (hcd : c ≠ d) : 2 ≤ b.size := by
  obtain ⟨hrun, hside⟩ := h 0 (Nat.zero_le n)
  obtain ⟨child, hchild, -⟩ := Spells.exists_child hrun
  obtain ⟨other, hother, -⟩ := Spells.exists_child hside
  exact two_le_size_of_find? hcd hchild hother

/-- Below the first character of a ladder that goes on there is the rest of it. -/
theorem Climbs.child (h : b.Climbs c d (n + 1)) :
    ∃ child, b.find? c = some child ∧ child.ends = true ∧ child.below.Climbs c d n := by
  obtain ⟨child, hchild, hends⟩ := Spells.exists_child (h 0 (Nat.zero_le _)).1
  refine ⟨child, hchild, hends, fun i hi => ?_⟩
  obtain ⟨hrun, hside⟩ := h (i + 1) (Nat.succ_le_succ hi)
  constructor
  · exact Node.spells_of_holds (by simp) ((spells_iff_of_find? hchild _).1 hrun)
  · exact Node.spells_of_holds (by simp) ((spells_iff_of_find? hchild _).1 hside)

end Branches

/-- A mark and two children count three, and the sequence with a character one more. -/
theorem le_nodeNesting (characters : Nat) {children : Nat} (h : 2 ≤ children) (below : Nat) :
    below + 3 + characters ≤ nodeNesting characters true children below := by
  have hsome : children ≠ 0 := by omega
  have hgroup : ¬ (children = 1 ∧ true = false) := by simp
  have hchain : chainDepth children = 1 := if_pos h
  rw [nodeNesting, if_neg hsome, if_neg hgroup, groupNesting, hchain]
  simp

theorem Branches.Sound.le_nesting {b : Branches} (hb : b.Sound) {c d : Char} (hcd : c ≠ d)
    {n : Nat} (h : b.Climbs c d n) : 4 * n ≤ b.nesting := by
  induction n generalizing b with
  | zero => exact Nat.zero_le _
  | succ n ih =>
      obtain ⟨child, hchild, hends, hbelow⟩ := h.child
      obtain ⟨hlabel, -, hsound⟩ := hb.child hchild
      have hchildren := ih hsound hbelow
      have hnode := le_nodeNesting 1 (hbelow.two_le_size hcd) child.below.nesting
      have hnesting : nodeNesting 1 true child.below.size child.below.nesting ≤ b.nesting := by
        have hle := nesting_le_of_find? hchild
        rwa [Node.nesting, hlabel, hends] at hle
      omega

theorem mem_ladder {c d : Char} {n : Nat} {w : Text} :
    w ∈ ladder c d n ↔ w = [] ∨
      ∃ i ≤ n, w = List.replicate (i + 1) c ∨ w = List.replicate i c ++ [d] := by
  simp only [ladder, List.mem_cons, List.mem_flatMap, List.mem_range, List.not_mem_nil, or_false,
    Nat.lt_succ_iff]

theorem length_le_of_mem_ladder {c d : Char} {n : Nat} {w : Text} (h : w ∈ ladder c d n) :
    w.length ≤ n + 1 := by
  rcases mem_ladder.1 h with rfl | ⟨i, hi, rfl | rfl⟩
  · simp
  · simpa using hi
  · simpa using hi

/-- **The bound is reached.** Members among which there is a ladder nest as deeply as short members
can. -/
theorem Trie.Represents.le_nesting {t : Trie} {s : Finset Text} (h : t.Represents s) {c d : Char}
    (hcd : c ≠ d) {n : Nat} (hladder : ∀ w ∈ ladder c d n, w ∈ s) : 4 * n + 3 ≤ t.nesting := by
  have hholds : ∀ w ∈ ladder c d n, t.root.holds w = true :=
    fun w hw => (h.contains_iff w).2 (hladder w hw)
  have hclimbs : t.root.below.Climbs c d n := by
    intro i hi
    have hrun := hholds _ (mem_ladder.2 (Or.inr ⟨i, hi, Or.inl rfl⟩))
    have hside := hholds _ (mem_ladder.2 (Or.inr ⟨i, hi, Or.inr rfl⟩))
    exact ⟨Node.spells_of_holds (by simp) hrun,
      Node.spells_of_holds (by simp) hside⟩
  have hends : t.root.ends = true := hholds [] List.mem_cons_self
  have hnonempty : ¬ t.isEmpty = true := by
    rw [h.isEmpty_iff]
    exact Finset.ne_empty_of_mem (hladder [] List.mem_cons_self)
  have hbelow := h.sound.2.le_nesting hcd hclimbs
  have hroot := le_nodeNesting 0 (hclimbs.two_le_size hcd) t.root.below.nesting
  rw [nesting, if_neg hnonempty, Node.nesting, h.sound.1, hends]
  show 4 * n + 3 ≤ nodeNesting 0 true _ _
  omega

end Unmangle
