import Unmangle.Proofs.Pattern.Surroundings
import Unmangle.Proofs.Trie.Histories
import Unmangle.Proofs.Trie.Rendering

set_option autoImplicit false

/-! # The language of a trie's pattern

The pattern of a trie reads as one group, whose body is defined by the same recursion on the tree as
its tokens (`Trie.pattern_parse?`). The body matches the members of the trie and nothing else,
whatever stands around them (`Trie.Represents.matches_body`): an alternative matches what starts
with its character and goes on as one of its children does, and a group is optional exactly where a
member ends. That no node is dead matters here, since a node without children matches the empty
text.
-/

namespace Unmangle

open Pattern (choices ReadsAs groupOf)

/-! ## The expression of a trie -/

/-- The items of the alternatives below a node, joined as their tokens are. -/
def attached (ends : Bool) : List (List Pattern) → List Pattern
  | [] => []
  | [alt] => if ends then [groupOf ends [alt]] else alt
  | alts => [groupOf ends alts]

/-- The items of each child with all below it. -/
def Branches.alts : Branches → List (List Pattern)
  | .nil => []
  | .cons _ label ends below rest =>
      (label.toList.map .literal ++ attached ends below.alts) :: rest.alts

def Node.items (n : Node) : List Pattern :=
  n.label.toList.map .literal ++ attached n.ends n.below.alts

theorem joinedTokens_readsAs (ends : Bool) {parts : List (List Pattern.Token)}
    {alts : List (List Pattern)} (h : List.Forall₂ ReadsAs parts alts) :
    ReadsAs (joinedTokens ends parts) (attached ends alts) := by
  cases h with
  | nil => exact ReadsAs.nil
  | cons hpart hmore =>
      cases hmore with
      | nil =>
          cases ends with
          | false => exact hpart
          | true => exact ReadsAs.group (.cons hpart .nil) (List.cons_ne_nil _ _) true
      | cons hnext hmore =>
          exact ReadsAs.group (.cons hpart (.cons hnext hmore)) (List.cons_ne_nil _ _) ends

theorem Branches.parts_readsAs (b : Branches) : List.Forall₂ ReadsAs b.parts b.alts := by
  induction b with
  | nil => exact .nil
  | cons key label ends below rest ihb ihr =>
      exact .cons ((ReadsAs.literals _).append (joinedTokens_readsAs ends ihb)) ihr

theorem Node.parts_readsAs (n : Node) : ReadsAs n.parts n.items :=
  (ReadsAs.literals _).append (joinedTokens_readsAs n.ends n.below.parts_readsAs)

theorem Branches.alts_eq_nil_iff {b : Branches} : b.alts = [] ↔ b = .nil := by
  cases b with
  | nil => simp [alts]
  | cons => simp [alts]

namespace Trie

def bodyItems (t : Trie) : List Pattern := if t.isEmpty then [.never] else t.root.items

def body (t : Trie) : Pattern := Pattern.sequence t.bodyItems

/-- **One group.** The tokens of the pattern read as one item, a group. -/
theorem pattern_readsAs (t : Trie) :
    ReadsAs (.opening :: (t.bodyTokens ++ [.closing])) [.group t.body] := by
  have hbody : ReadsAs t.bodyTokens t.bodyItems := by
    rw [bodyTokens, bodyItems]
    cases t.isEmpty with
    | true => exact ReadsAs.never
    | false => exact t.root.parts_readsAs
  have hgroup := ReadsAs.group (.cons hbody .nil) (List.cons_ne_nil _ _) false
  have htokens : Pattern.groupTokens false [t.bodyTokens] =
      .opening :: (t.bodyTokens ++ [.closing]) := by
    show _ :: (t.bodyTokens ++ [] ++ [_]) = _
    rw [List.append_nil]
  rwa [htokens] at hgroup

theorem pattern_parse? (t : Trie) : Pattern.parse? t.pattern = some (.group t.body) := by
  rw [pattern_eq_written]
  exact t.pattern_readsAs.parse?

end Trie

/-! ## The words of the alternatives -/

/-- The word goes through a child. -/
def Branches.Spells (b : Branches) (w : Text) : Prop :=
  ∃ c v child, w = c :: v ∧ b.find? c = some child ∧ child.holds v = true

theorem Node.holds_iff (n : Node) (w : Text) :
    n.holds w = true ↔ (n.ends = true ∧ w = []) ∨ n.below.Spells w := by
  cases w with
  | nil => simp [Branches.Spells]
  | cons c v =>
      rw [holds_cons, Option.any_eq_true]
      constructor
      · rintro ⟨child, hf, hv⟩
        exact Or.inr ⟨c, v, child, rfl, hf, hv⟩
      · rintro (⟨-, h⟩ | ⟨c', v', child, h, hf, hv⟩)
        · cases h
        · cases h
          exact ⟨child, hf, hv⟩

theorem Branches.spells_nil (w : Text) : ¬ Branches.nil.Spells w := by
  rintro ⟨c, v, child, -, hf, -⟩
  cases hf

theorem Branches.spells_cons {key : Char} {label : Option Char} {ends : Bool}
    {below rest : Branches} (h : ∀ e ∈ rest.toList, key < e.1) (w : Text) :
    (Branches.cons key label ends below rest).Spells w ↔
      (∃ v, w = key :: v ∧ Node.holds ⟨label, ends, below⟩ v = true) ∨ rest.Spells w := by
  constructor
  · rintro ⟨c, v, child, rfl, hf, hv⟩
    rw [find?] at hf
    split at hf
    · rename_i hkey
      cases hf
      exact Or.inl ⟨v, by rw [hkey], hv⟩
    · exact Or.inr ⟨c, v, child, rfl, hf, hv⟩
  · rintro (⟨v, rfl, hv⟩ | ⟨c, v, child, rfl, hf, hv⟩)
    · exact ⟨key, v, _, rfl, if_pos rfl, hv⟩
    · have hne : key ≠ c := ne_of_lt (h _ (mem_toList_of_find? hf))
      exact ⟨c, v, child, rfl, (if_neg hne).trans hf, hv⟩

/-- A trie with members has a live root. -/
theorem Trie.Represents.root_alive {t : Trie} {s : Finset Text} (h : t.Represents s)
    (hempty : t.isEmpty = false) : t.root.Alive := by
  have hne : s ≠ ∅ := by
    rw [Ne, ← h.isEmpty_iff, hempty]
    exact Bool.false_ne_true
  obtain ⟨v, hv⟩ := Finset.nonempty_iff_ne_empty.2 hne
  rcases (t.root.holds_iff v).1 ((h.contains_iff v).2 hv) with ⟨hends, -⟩ | ⟨c, u, child, -, hf, -⟩
  · exact Or.inl hends
  · refine Or.inr fun hnil => ?_
    rw [hnil] at hf
    cases hf

/-- A live node ends a member or has alternatives. -/
theorem Node.Alive.ends_or_alts {n : Node} (h : n.Alive) :
    n.ends = true ∨ n.below.alts ≠ [] :=
  h.imp id (mt Branches.alts_eq_nil_iff.1)

/-! ## What the expression matches -/

theorem Pattern.matches_groupOf (ends : Bool) {alts : List (List Pattern)} (h : alts ≠ [])
    (before w after : Text) :
    (groupOf ends alts).Matches before w after ↔
      (ends = true ∧ w = []) ∨ ∃ alt ∈ alts, (Pattern.sequence alt).Matches before w after := by
  have hmap : alts.map Pattern.sequence ≠ [] := mt List.map_eq_nil_iff.1 h
  have hchoices : (choices (alts.map Pattern.sequence)).Matches before w after ↔
      ∃ alt ∈ alts, (Pattern.sequence alt).Matches before w after := by
    rw [matches_choices _ hmap]
    simp
  cases ends with
  | true =>
      show (choices (alts.map Pattern.sequence)).Matches before w after ∨ w = [] ↔ _
      rw [hchoices, or_comm]
      simp
  | false =>
      show (choices (alts.map Pattern.sequence)).Matches before w after ↔ _
      rw [hchoices]
      simp

/-- What is attached to a live node matches the empty text where a member ends, and what one of the
alternatives matches. -/
theorem matches_attached {ends : Bool} {alts : List (List Pattern)}
    (h : ends = true ∨ alts ≠ []) (before w after : Text) :
    (Pattern.sequence (attached ends alts)).Matches before w after ↔
      (ends = true ∧ w = []) ∨ ∃ alt ∈ alts, (Pattern.sequence alt).Matches before w after := by
  match alts with
  | [] =>
      have hends : ends = true := h.resolve_right fun hne => hne rfl
      show w = [] ↔ _
      simp [hends]
  | [alt] =>
      cases ends with
      | true => exact Pattern.matches_groupOf true (List.cons_ne_nil _ _) before w after
      | false =>
          show (Pattern.sequence alt).Matches before w after ↔ _
          simp
  | alt :: next :: more =>
      exact Pattern.matches_groupOf ends (List.cons_ne_nil _ _) before w after

/-- Some alternative matches a word exactly when the word goes through a child. -/
theorem Branches.Sound.matches_alts {b : Branches} (hb : b.Sound) (before w after : Text) :
    (∃ alt ∈ b.alts, (Pattern.sequence alt).Matches before w after) ↔ b.Spells w := by
  induction b generalizing before w after with
  | nil => simp [Branches.alts, Branches.spells_nil]
  | cons key label ends below rest ihb ihr =>
      obtain ⟨rfl, halive, hlt, hbelow, hrest⟩ := hb
      have hlive : ends = true ∨ below.alts ≠ [] := Node.Alive.ends_or_alts halive
      have hfirst : (Pattern.sequence ([key].map .literal ++ attached ends below.alts)).Matches
          before w after ↔ ∃ v, w = key :: v ∧ Node.holds ⟨some key, ends, below⟩ v = true := by
        rw [Pattern.matches_sequence_append]
        simp only [Pattern.matches_literals, matches_attached hlive, ihb hbelow, Node.holds_iff]
        simp
      rw [Branches.alts, Branches.spells_cons hlt, ← hfirst, ← ihr hrest before w after]
      simp

/-- A live node without a character matches what it holds. -/
theorem Node.matches_items {n : Node} (hlabel : n.label = none) (hlive : n.Alive)
    (hn : n.below.Sound) (before w after : Text) :
    (Pattern.sequence n.items).Matches before w after ↔ n.holds w = true := by
  rw [items, hlabel, holds_iff]
  show (Pattern.sequence (attached n.ends n.below.alts)).Matches before w after ↔ _
  rw [matches_attached hlive.ends_or_alts, hn.matches_alts]

/-- **The language.** The body of the pattern matches the members, whatever stands around them. -/
theorem Trie.Represents.matches_body {t : Trie} {s : Finset Text} (h : t.Represents s)
    (before w after : Text) : t.body.Matches before w after ↔ t.contains w = true := by
  rw [body, bodyItems]
  cases hempty : t.isEmpty with
  | true =>
      have hs : s = ∅ := h.isEmpty_iff.1 hempty
      rw [h.contains_iff, hs]
      simp [Pattern.sequence, Pattern.Matches]
  | false =>
      have hlive : t.root.Alive := h.root_alive hempty
      rw [if_neg Bool.false_ne_true, Node.matches_items h.sound.1 hlive h.sound.2,
        contains_eq]

/-! ## The pattern among other pattern text -/

namespace Trie

/-- The word is a member between what some items before it and some items after it match. -/
def Between (t : Trie) (xs ys : List Pattern) (before w after : Text) : Prop :=
  ∃ u v y, w = u ++ v ++ y ∧ (Pattern.sequence xs).Matches before u (v ++ y ++ after) ∧
    t.contains v = true ∧ (Pattern.sequence ys).Matches ((u ++ v).reverse ++ before) y after

/-- Between pieces of pattern text that stand for items of their own, the pattern matches the
members between what the items match. -/
theorem Represents.parse?_between_items {t : Trie} {s : Finset Text} (h : t.Represents s)
    {front back : List Pattern.Token} {xs ys : List Pattern} (hfront : ReadsAs front xs)
    (hback : ReadsAs back ys) :
    ∃ p, Pattern.parse? (Pattern.written front ++ t.pattern ++ Pattern.written back) = some p ∧
      ∀ before w after, p.Matches before w after ↔ t.Between xs ys before w after := by
  have hread := (hfront.append t.pattern_readsAs).append hback
  refine ⟨Pattern.sequence (xs ++ [.group t.body] ++ ys), ?_, fun before w after => ?_⟩
  · rw [pattern_eq_written, ← Pattern.written_append, ← Pattern.written_append]
    exact hread.parse?
  · rw [Pattern.matches_sequence_append]
    simp only [Pattern.matches_sequence_append]
    constructor
    · rintro ⟨-, y, rfl, ⟨u, v, rfl, hu, hv⟩, hy⟩
      have hv : t.body.Matches (u.reverse ++ before) v (y ++ after) := hv
      refine ⟨u, v, y, rfl, by rwa [List.append_assoc], (h.matches_body _ _ _).1 hv, hy⟩
    · rintro ⟨u, v, y, rfl, hu, hv, hy⟩
      refine ⟨u ++ v, y, rfl, ⟨u, v, rfl, by rwa [List.append_assoc] at hu, ?_⟩, hy⟩
      exact (h.matches_body (u.reverse ++ before) v (y ++ after)).2 hv

/-- Between pieces of pattern text that can be read around a group, the expression that is read is
one frame for all tries, the one that stands around an empty group, filled with the members. -/
theorem parse?_around {front back : Text} (hfront : (Pattern.tokens front).isSome)
    (hwhole : (Pattern.parse? (front ++ "(?:)".toList ++ back)).isSome) :
    ∃ f : Pattern.Frame,
      Pattern.parse? (front ++ "(?:)".toList ++ back) = some (f.fill (.group .empty)) ∧
      ∀ t : Trie, t.Reachable →
        ∃ p, Pattern.parse? (front ++ t.pattern ++ back) = some p ∧
          ∀ before w after, p.Matches before w after ↔
            f.Around (fun v => t.contains v = true) before w after := by
  obtain ⟨f, hf⟩ := Pattern.parse?_between hfront hwhole
  have hempty := hf _ _ ReadsAs.emptyGroup
  rw [Pattern.written_emptyGroup] at hempty
  refine ⟨f, hempty, fun t ht => ?_⟩
  obtain ⟨s, hs⟩ := ht.represents
  have hmatches : ∀ before w after, (Pattern.group t.body).Matches before w after ↔
      t.contains w = true := hs.matches_body
  refine ⟨f.fill (.group t.body), ?_, Pattern.matches_fill hmatches f⟩
  rw [pattern_eq_written]
  exact hf _ _ t.pattern_readsAs

/-- Between the two ends of a text, the pattern matches the whole texts that are members. -/
theorem Represents.parse?_anchored {t : Trie} {s : Finset Text} (h : t.Represents s) :
    ∃ p, Pattern.parse? ("^(?:".toList ++ t.pattern ++ ")$".toList) = some p ∧
      ∀ before w after, p.Matches before w after ↔
        before = [] ∧ t.contains w = true ∧ after = [] := by
  have hgroup := ReadsAs.group (.cons t.pattern_readsAs .nil) (List.cons_ne_nil _ _) false
  have hread := (ReadsAs.textStart.append hgroup).append ReadsAs.textEnd
  have htext : "^(?:".toList ++ t.pattern ++ ")$".toList = Pattern.written
      ([.textStart] ++ Pattern.groupTokens false [.opening :: (t.bodyTokens ++ [.closing])] ++
        [.textEnd]) := by
    have hfront : "^(?:".toList = Pattern.written [.textStart, .opening] := by decide
    have hback : ")$".toList = Pattern.written [.closing, .textEnd] := by decide
    rw [pattern_eq_written, hfront, hback, ← Pattern.written_append, ← Pattern.written_append]
    simp [Pattern.groupTokens, Pattern.alternation, Pattern.closingTokens]
  refine ⟨_, htext ▸ hread.parse?, fun before w after => ?_⟩
  have hbody := h.matches_body before w after
  constructor
  · rintro ⟨u, v, rfl, ⟨rfl, rfl⟩, x, y, rfl, hx, rfl, rfl⟩
    have hx : t.body.Matches [] x [] := hx
    rw [List.nil_append, List.append_nil]
    exact ⟨rfl, (h.matches_body _ _ _).1 hx, rfl⟩
  · rintro ⟨rfl, hw, rfl⟩
    refine ⟨[], w, rfl, ⟨rfl, rfl⟩, w, [], (List.append_nil w).symm, ?_, rfl, rfl⟩
    exact (h.matches_body [] w []).2 hw

/-- **The pattern matches the members.** For every reachable trie the pattern reads as one group
that matches, as a whole, the members and nothing else. Other pattern text around it does not
change this. Where it stands between items, it matches the members between what the items match;
where it stands between any two pieces that can be read around a group, the expression that is read
around an empty group is filled with the members; and between the anchors it matches the texts that
are members. -/
theorem pattern_language :
    (∀ t : Trie, t.Reachable →
      (∃ body, Pattern.parse? t.pattern = some (.group body) ∧
        ∀ w, (Pattern.group body).FullMatch w ↔ t.contains w = true) ∧
      (∀ front back xs ys, ReadsAs front xs → ReadsAs back ys →
        ∃ p, Pattern.parse? (Pattern.written front ++ t.pattern ++ Pattern.written back) = some p ∧
          ∀ before w after, p.Matches before w after ↔ t.Between xs ys before w after) ∧
      (∃ p, Pattern.parse? ("^(?:".toList ++ t.pattern ++ ")$".toList) = some p ∧
        ∀ before w after, p.Matches before w after ↔
          before = [] ∧ t.contains w = true ∧ after = [])) ∧
    ∀ front back : Text, (Pattern.tokens front).isSome →
      (Pattern.parse? (front ++ "(?:)".toList ++ back)).isSome →
      ∃ f : Pattern.Frame,
        Pattern.parse? (front ++ "(?:)".toList ++ back) = some (f.fill (.group .empty)) ∧
        ∀ t : Trie, t.Reachable →
          ∃ p, Pattern.parse? (front ++ t.pattern ++ back) = some p ∧
            ∀ before w after, p.Matches before w after ↔
              f.Around (fun v => t.contains v = true) before w after := by
  refine ⟨fun t ht => ?_, fun front back hfront hwhole => parse?_around hfront hwhole⟩
  obtain ⟨s, hs⟩ := ht.represents
  refine ⟨⟨t.body, t.pattern_parse?, fun w => hs.matches_body [] w []⟩, ?_, hs.parse?_anchored⟩
  exact fun front back xs ys hfront hback => hs.parse?_between_items hfront hback

/-- The pattern of two words, one a prefix of the other, after a third one is removed: between word
boundaries and as a part of a longer pattern. -/
theorem pattern_language_words :
    let t := ((ofList ["word".toList, "wore".toList, "words".toList]).erase "wore".toList).2
    t.Reachable ∧ Pattern.ReadsAs [.boundary] [.boundary] ∧
      (∃ p, Pattern.parse? ("\\b".toList ++ t.pattern ++ "\\b".toList) = some p ∧
        p.FullMatch "words".toList ∧ ¬ p.FullMatch "wor".toList ∧ ¬ p.FullMatch "wore".toList) ∧
      ∃ p, Pattern.parse? ("x|".toList ++ t.pattern ++ "?y".toList) = some p := by
  intro t
  have hreach : t.Reachable := (Reachable.ofList _).erase _
  obtain ⟨p, hp, hmatches⟩ :=
    (pattern_language.1 t hreach).2.1 _ _ _ _ ReadsAs.boundary ReadsAs.boundary
  obtain ⟨f, -, hframe⟩ := pattern_language.2 "x|".toList "?y".toList (by decide) (by decide)
  obtain ⟨q, hq, -⟩ := hframe t hreach
  have hmember {w : Text} (h : p.FullMatch w) : t.contains w = true := by
    obtain ⟨u, v, y, hw, ⟨rfl, -⟩, hv, rfl, -⟩ := (hmatches _ _ _).1 h
    rw [List.nil_append, List.append_nil] at hw
    rwa [hw]
  refine ⟨hreach, ReadsAs.boundary, ⟨p, hp, ?_, ?_, ?_⟩, q, hq⟩
  · refine (hmatches _ _ _).2 ⟨[], "words".toList, [], by decide, ⟨rfl, by decide⟩, by decide, ?_⟩
    exact ⟨rfl, by decide⟩
  · exact fun h => absurd (hmember h) (by decide)
  · exact fun h => absurd (hmember h) (by decide)

end Trie

end Unmangle
