import Mathlib.Tactic.Common
import Unmangle.Pattern.Match

set_option autoImplicit false

/-! # What a pattern matches

The words that an expression matches, each with what stands before it (backwards) and after it,
since boundaries look at both sides. `Pattern.ends` lists the places where such a word can end, and
no others (`Pattern.mem_ends_iff`): the order of the list is the preference of the matcher, its
members are the language.
-/

namespace Unmangle.Pattern

/-- The expression matches the word between two parts of a text, the first one backwards. -/
def Matches : Pattern → Text → Text → Text → Prop
  | .empty, _, w, _ => w = []
  | .literal c, _, w, _ => w = [c]
  | .boundary, before, w, after => w = [] ∧ isBoundary before.head? after.head? = true
  | .textStart, before, w, _ => w = [] ∧ before = []
  | .textEnd, _, w, after => w = [] ∧ after = []
  | .never, _, _, _ => False
  | .group body, before, w, after => body.Matches before w after
  | .optional body, before, w, after => body.Matches before w after ∨ w = []
  | .seq first next, before, w, after =>
      ∃ u v, w = u ++ v ∧ first.Matches before u (v ++ after) ∧
        next.Matches (u.reverse ++ before) v after
  | .choice first next, before, w, after =>
      first.Matches before w after ∨ next.Matches before w after

def FullMatch (p : Pattern) (w : Text) : Prop := p.Matches [] w []

end Pattern

/-- The place after a word, from the place before it. -/
def Place.past (before : Text) (taken : Nat) (w after : Text) : Place :=
  ⟨w.reverse ++ before, after, taken + w.length⟩

namespace Pattern

/-- The places where a match can end are those after the words that match. -/
theorem mem_ends_iff (p : Pattern) (before t : Text) (taken : Nat) (q : Place) :
    q ∈ p.ends ⟨before, t, taken⟩ ↔
      ∃ w after, t = w ++ after ∧ q = .past before taken w after ∧ p.Matches before w after := by
  induction p generalizing before t taken q with
  | empty =>
      rw [ends, List.mem_singleton]
      constructor
      · rintro rfl
        exact ⟨[], t, rfl, rfl, rfl⟩
      · rintro ⟨w, after, rfl, rfl, rfl⟩
        rfl
  | literal c =>
      rw [ends, Option.mem_toList, Place.eat]
      constructor
      · intro h
        cases t with
        | nil => cases h
        | cons d rest =>
            simp only [Option.ite_none_right_eq_some, Option.some.injEq] at h
            obtain ⟨rfl, rfl⟩ := h
            exact ⟨[d], rest, rfl, rfl, rfl⟩
      · rintro ⟨w, after, rfl, rfl, rfl⟩
        simp [Place.past]
  | boundary =>
      rw [ends]
      constructor
      · intro h
        split at h
        · rename_i hb
          rw [List.mem_singleton] at h
          subst h
          exact ⟨[], t, rfl, rfl, rfl, hb⟩
        · cases h
      · rintro ⟨w, after, rfl, rfl, rfl, hb⟩
        rw [if_pos (show Place.atBoundary ⟨before, [] ++ after, taken⟩ = true from hb)]
        exact List.mem_singleton.2 rfl
  | textStart =>
      rw [ends]
      constructor
      · intro h
        split at h
        · rename_i hb
          rw [List.mem_singleton] at h
          subst h
          exact ⟨[], t, rfl, rfl, rfl, List.isEmpty_iff.1 hb⟩
        · cases h
      · rintro ⟨w, after, rfl, rfl, rfl, rfl⟩
        exact List.mem_singleton.2 rfl
  | textEnd =>
      rw [ends]
      constructor
      · intro h
        split at h
        · rename_i hb
          rw [List.mem_singleton] at h
          subst h
          exact ⟨[], t, rfl, rfl, rfl, List.isEmpty_iff.1 hb⟩
        · cases h
      · rintro ⟨w, after, rfl, rfl, rfl, rfl⟩
        exact List.mem_singleton.2 rfl
  | never =>
      rw [ends]
      constructor
      · intro h
        cases h
      · rintro ⟨w, after, rfl, rfl, h⟩
        cases h
  | group body ih => exact ih before t taken q
  | optional body ih =>
      rw [ends, List.mem_append, List.mem_singleton, ih]
      constructor
      · rintro (⟨w, after, rfl, rfl, h⟩ | rfl)
        · exact ⟨w, after, rfl, rfl, Or.inl h⟩
        · exact ⟨[], t, rfl, rfl, Or.inr rfl⟩
      · rintro ⟨w, after, rfl, rfl, h | rfl⟩
        · exact Or.inl ⟨w, after, rfl, rfl, h⟩
        · exact Or.inr rfl
  | seq first next ihf ihn =>
      -- the second part starts at the place where a match of the first one ends
      rw [ends, List.mem_flatMap]
      constructor
      · rintro ⟨r, hr, hq⟩
        obtain ⟨u, rest, rfl, rfl, hu⟩ := (ihf before t taken r).1 hr
        obtain ⟨v, after, rfl, rfl, hv⟩ := (ihn _ _ _ q).1 hq
        refine ⟨u ++ v, after, (List.append_assoc u v after).symm, ?_, u, v, rfl, hu, hv⟩
        simp [Place.past, Nat.add_assoc]
      · rintro ⟨w, after, rfl, rfl, u, v, rfl, hu, hv⟩
        refine ⟨.past before taken u (v ++ after), ?_, ?_⟩
        · exact (ihf _ _ _ _).2 ⟨u, v ++ after, List.append_assoc u v after, rfl, hu⟩
        · refine (ihn _ _ _ _).2 ⟨v, after, rfl, ?_, hv⟩
          simp [Place.past, Nat.add_assoc]
  | choice first next ihf ihn =>
      rw [ends, List.mem_append, ihf, ihn]
      constructor
      · rintro (⟨w, after, rfl, rfl, h⟩ | ⟨w, after, rfl, rfl, h⟩)
        · exact ⟨w, after, rfl, rfl, Or.inl h⟩
        · exact ⟨w, after, rfl, rfl, Or.inr h⟩
      · rintro ⟨w, after, rfl, rfl, h | h⟩
        · exact Or.inl ⟨w, after, rfl, rfl, h⟩
        · exact Or.inr ⟨w, after, rfl, rfl, h⟩

/-! ## Sequences and choices -/

theorem ends_sequence_cons (p : Pattern) (rest : List Pattern) (at_ : Place) :
    (sequence (p :: rest)).ends at_ = (p.ends at_).flatMap (sequence rest).ends := by
  cases rest with
  | nil =>
      show p.ends at_ = (p.ends at_).flatMap fun q => [q]
      rw [List.flatMap_singleton']
  | cons q rest => rfl

theorem ends_choices (alts : List Pattern) (h : alts ≠ []) (at_ : Place) :
    (choices alts).ends at_ = alts.flatMap (·.ends at_) := by
  induction alts with
  | nil => exact absurd rfl h
  | cons p rest ih =>
      cases rest with
      | nil =>
          show p.ends at_ = p.ends at_ ++ []
          rw [List.append_nil]
      | cons q rest =>
          rw [List.flatMap_cons, ← ih (List.cons_ne_nil _ _)]
          rfl

theorem matches_sequence_cons (p : Pattern) (rest : List Pattern) (before w after : Text) :
    (sequence (p :: rest)).Matches before w after ↔
      ∃ u v, w = u ++ v ∧ p.Matches before u (v ++ after) ∧
        (sequence rest).Matches (u.reverse ++ before) v after := by
  cases rest with
  | nil =>
      constructor
      · intro h
        exact ⟨w, [], (List.append_nil w).symm, h, rfl⟩
      · rintro ⟨u, v, rfl, h, rfl⟩
        rw [List.append_nil]
        exact h
  | cons q rest => exact Iff.rfl

theorem matches_sequence_append (xs ys : List Pattern) (before w after : Text) :
    (sequence (xs ++ ys)).Matches before w after ↔
      ∃ u v, w = u ++ v ∧ (sequence xs).Matches before u (v ++ after) ∧
        (sequence ys).Matches (u.reverse ++ before) v after := by
  induction xs generalizing before w with
  | nil => simp [sequence, Matches]
  | cons p xs ih =>
      rw [List.cons_append, matches_sequence_cons]
      constructor
      · rintro ⟨u, v, rfl, hp, h⟩
        obtain ⟨x, y, rfl, hx, hy⟩ := (ih _ _).1 h
        refine ⟨u ++ x, y, (List.append_assoc u x y).symm, ?_, by simpa using hy⟩
        exact (matches_sequence_cons p xs _ _ _).2
          ⟨u, x, rfl, by rwa [List.append_assoc] at hp, hx⟩
      · rintro ⟨u, v, rfl, hu, hv⟩
        obtain ⟨x, y, rfl, hp, h⟩ := (matches_sequence_cons p xs _ _ _).1 hu
        refine ⟨x, y ++ v, List.append_assoc x y v, by rwa [List.append_assoc], ?_⟩
        exact (ih _ _).2 ⟨y, v, rfl, h, by simpa using hv⟩

theorem matches_literals (t before w after : Text) :
    (sequence (t.map .literal)).Matches before w after ↔ w = t := by
  induction t generalizing before w with
  | nil => exact Iff.rfl
  | cons c t ih =>
      rw [List.map_cons, matches_sequence_cons]
      simp [Matches, ih]

theorem matches_choices (alts : List Pattern) (h : alts ≠ []) (before w after : Text) :
    (choices alts).Matches before w after ↔ ∃ p ∈ alts, p.Matches before w after := by
  induction alts with
  | nil => exact absurd rfl h
  | cons p rest ih =>
      cases rest with
      | nil => simp [choices]
      | cons q rest =>
          have hrest := ih (List.cons_ne_nil _ _)
          show p.Matches before w after ∨ (choices (q :: rest)).Matches before w after ↔ _
          rw [hrest]
          simp

end Unmangle.Pattern
