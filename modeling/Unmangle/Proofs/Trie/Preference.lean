import Unmangle.Proofs.Trie.Language

set_option autoImplicit false

/-! # Longer members first

A pattern prefers matches by the order in which it is written, not by their length. The expression
of a trie is written so that the two orders agree (`Trie.Represents.longestFirst_body`): the
alternatives at a node start with different characters, so at most one of them matches at a place,
and an optional group puts its body, which takes characters, before nothing.
-/

namespace Unmangle

open Pattern (choices groupOf)

/-- The places after longer matches stand before those after shorter ones. -/
def LongestFirst (l : List Place) : Prop := l.Pairwise fun p q => q.taken < p.taken

/-! ## One node -/

/-- The places where a match of one of the alternatives can end. -/
def Branches.endings (b : Branches) (p : Place) : List Place :=
  b.alts.flatMap fun alt => (Pattern.sequence alt).ends p

theorem Pattern.ends_groupOf (ends : Bool) {alts : List (List Pattern)} (h : alts ≠ [])
    (p : Place) :
    (groupOf ends alts).ends p =
      (alts.flatMap fun alt => (Pattern.sequence alt).ends p) ++ if ends then [p] else [] := by
  have hmap : alts.map Pattern.sequence ≠ [] := mt List.map_eq_nil_iff.1 h
  have hchoices : (choices (alts.map Pattern.sequence)).ends p =
      alts.flatMap fun alt => (Pattern.sequence alt).ends p := by
    rw [ends_choices _ hmap, List.flatMap_map]
  cases ends with
  | true =>
      show (choices (alts.map Pattern.sequence)).ends p ++ [p] = _
      rw [hchoices]
      rfl
  | false =>
      show (choices (alts.map Pattern.sequence)).ends p = _
      rw [hchoices, if_neg Bool.false_ne_true, List.append_nil]

/-- What is attached to a live node tries the alternatives first, and then the empty text where a
member ends. -/
theorem ends_attached {ends : Bool} {b : Branches} (h : ends = true ∨ b.alts ≠ []) (p : Place) :
    (Pattern.sequence (attached ends b.alts)).ends p = b.endings p ++ if ends then [p] else [] := by
  rw [Branches.endings]
  match halts : b.alts with
  | [] =>
      have hends : ends = true := h.resolve_right fun hne => hne halts
      rw [hends]
      rfl
  | [alt] =>
      cases ends with
      | true => exact Pattern.ends_groupOf true (List.cons_ne_nil _ _) p
      | false =>
          show (Pattern.sequence alt).ends p = ((Pattern.sequence alt).ends p ++ []) ++ []
          rw [List.append_nil, List.append_nil]
  | alt :: next :: more => exact Pattern.ends_groupOf ends (List.cons_ne_nil _ _) p

/-- The alternatives end after the words that go through a child. -/
theorem Branches.Sound.mem_endings_iff {b : Branches} (hb : b.Sound) (before t : Text)
    (taken : Nat) (q : Place) :
    q ∈ b.endings ⟨before, t, taken⟩ ↔
      ∃ w after, t = w ++ after ∧ q = .past before taken w after ∧ b.Spells w := by
  rw [endings, List.mem_flatMap]
  constructor
  · rintro ⟨alt, halt, hq⟩
    obtain ⟨w, after, rfl, rfl, hw⟩ := (Pattern.mem_ends_iff _ _ _ _ _).1 hq
    exact ⟨w, after, rfl, rfl, (hb.matches_alts before w after).1 ⟨alt, halt, hw⟩⟩
  · rintro ⟨w, after, rfl, rfl, hw⟩
    obtain ⟨alt, halt, hw⟩ := (hb.matches_alts before w after).2 hw
    exact ⟨alt, halt, (Pattern.mem_ends_iff _ _ _ _ _).2 ⟨w, after, rfl, rfl, hw⟩⟩

/-- A match of an alternative takes characters. -/
theorem Branches.Sound.taken_lt {b : Branches} (hb : b.Sound) {p q : Place}
    (hq : q ∈ b.endings p) : p.taken < q.taken := by
  obtain ⟨before, t, taken⟩ := p
  obtain ⟨w, after, rfl, rfl, c, v, child, rfl, -, -⟩ := (hb.mem_endings_iff _ _ _ _).1 hq
  show taken < taken + (c :: v).length
  rw [List.length_cons]
  omega

/-- Trying the empty text last keeps the order. -/
theorem Branches.Sound.longestFirst_attached {ends : Bool} {b : Branches} (hb : b.Sound)
    (halive : ends = true ∨ b.alts ≠ []) {p : Place} (h : LongestFirst (b.endings p)) :
    LongestFirst ((Pattern.sequence (attached ends b.alts)).ends p) := by
  rw [ends_attached halive]
  refine List.pairwise_append.2 ⟨h, ?_, fun q hq r hr => ?_⟩
  · cases ends with
    | true => exact List.pairwise_singleton _ _
    | false => exact List.Pairwise.nil
  · have hr : r = p := by
      cases ends with
      | true => exact List.mem_singleton.1 hr
      | false => cases hr
    rw [hr]
    exact hb.taken_lt hq

/-! ## The whole tree -/

/-- Two words that start at one place start with the same character. -/
theorem head_eq_of_append_eq {c d : Char} {v w x y t : Text} (h : t = c :: v ++ x)
    (h' : t = d :: w ++ y) : c = d := by
  rw [h] at h'
  exact (List.cons_eq_cons.1 h').1

/-- The alternatives of a sound list of branches list their matches longest first. -/
theorem Branches.Sound.longestFirst {b : Branches} (hb : b.Sound) (p : Place) :
    LongestFirst (b.endings p) := by
  induction b generalizing p with
  | nil => exact List.Pairwise.nil
  | cons key label ends below rest ihb ihr =>
      have hb' := hb
      obtain ⟨rfl, halive, hlt, hbelow, hrest⟩ := hb'
      have hlive : ends = true ∨ below.alts ≠ [] := Node.Alive.ends_or_alts halive
      have hfirst : (Pattern.sequence (.literal key :: attached ends below.alts)).ends p =
          (p.eat key).toList.flatMap (Pattern.sequence (attached ends below.alts)).ends :=
        Pattern.ends_sequence_cons _ _ p
      refine List.pairwise_append.2 ⟨?_, ihr hrest p, fun q hq r hr => ?_⟩
      · show LongestFirst ((Pattern.sequence (.literal key :: attached ends below.alts)).ends p)
        rw [hfirst]
        cases p.eat key with
        | none => exact List.Pairwise.nil
        | some next =>
            show LongestFirst (_ ++ [])
            rw [List.append_nil]
            exact hbelow.longestFirst_attached hlive (ihb hbelow next)
      · -- only one alternative can match, since the others start with greater characters
        obtain ⟨before, t, taken⟩ := p
        have hr : r ∈ rest.endings ⟨before, t, taken⟩ := hr
        obtain ⟨w, x, hw, -, c, v, child, rfl, hfind, -⟩ := (hrest.mem_endings_iff _ _ _ _).1 hr
        obtain ⟨u, y, hu, -, hmatch⟩ := (Pattern.mem_ends_iff _ _ _ _ _).1 hq
        obtain ⟨_, v', rfl, hkey, -⟩ := (Pattern.matches_sequence_cons _ _ _ _ _).1 hmatch
        cases hkey
        have hlt : key < c := hlt _ (mem_toList_of_find? hfind)
        have heq : c = key := head_eq_of_append_eq hw hu
        exact absurd heq (ne_of_gt hlt)

namespace Trie

/-- The body of the pattern ends after the members that stand at a place. -/
theorem Represents.mem_ends_body {t : Trie} {s : Finset Text} (h : t.Represents s)
    (before after : Text) (q : Place) :
    q ∈ t.body.ends (.between before after) ↔
      ∃ w rest, after = w ++ rest ∧ q = .past before 0 w rest ∧ t.contains w = true := by
  rw [Place.between, Pattern.mem_ends_iff]
  constructor
  · rintro ⟨w, rest, hw, hq, hmatch⟩
    exact ⟨w, rest, hw, hq, (h.matches_body _ _ _).1 hmatch⟩
  · rintro ⟨w, rest, hw, hq, hmem⟩
    exact ⟨w, rest, hw, hq, (h.matches_body _ _ _).2 hmem⟩

/-- **Longest first.** At each place the body of the pattern prefers the longer members. -/
theorem Represents.longestFirst_body {t : Trie} {s : Finset Text} (h : t.Represents s)
    (p : Place) : LongestFirst (t.body.ends p) := by
  rw [body, bodyItems]
  cases hempty : t.isEmpty with
  | true => exact List.Pairwise.nil
  | false =>
      have hitems : t.root.items = attached t.root.ends t.root.below.alts := by
        rw [Node.items, h.sound.1]
        rfl
      rw [if_neg Bool.false_ne_true, hitems]
      have halts := (h.root_alive hempty).ends_or_alts
      exact h.sound.2.longestFirst_attached halts (h.sound.2.longestFirst p)

end Trie

end Unmangle
