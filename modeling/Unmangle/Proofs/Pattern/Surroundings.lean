import Unmangle.Proofs.Pattern.Language
import Unmangle.Proofs.Pattern.Tokens

set_option autoImplicit false

/-! # One item between two pieces of pattern text

Where tokens that read as one item stand between other tokens, the item ends up in one place of the
expression that is read, and nothing else depends on it: the expression is a frame, an expression
with one hole, filled with the item (`Pattern.parse?_between`). The frame is known from the tokens
around. What the filled frame matches depends on the item only through the words that the item
matches (`Pattern.matches_fill`).
-/

namespace Unmangle.Pattern

/-! ## Frames -/

/-- An expression with one hole. -/
inductive Frame where
  | hole
  | group (body : Frame)
  | optional (body : Frame)
  | seqLeft (first : Frame) (next : Pattern)
  | seqRight (first : Pattern) (next : Frame)
  | choiceLeft (first : Frame) (next : Pattern)
  | choiceRight (first : Pattern) (next : Frame)

namespace Frame

def fill (p : Pattern) : Frame → Pattern
  | .hole => p
  | .group body => .group (body.fill p)
  | .optional body => .optional (body.fill p)
  | .seqLeft first next => .seq (first.fill p) next
  | .seqRight first next => .seq first (next.fill p)
  | .choiceLeft first next => .choice (first.fill p) next
  | .choiceRight first next => .choice first (next.fill p)

/-- What the expression matches between two parts of a text when the words in the hole are given
ones: these words between what the parts around the hole match. -/
def Around (words : Text → Prop) : Frame → Text → Text → Text → Prop
  | .hole, _, w, _ => words w
  | .group body, before, w, after => body.Around words before w after
  | .optional body, before, w, after => body.Around words before w after ∨ w = []
  | .seqLeft first next, before, w, after =>
      ∃ u v, w = u ++ v ∧ first.Around words before u (v ++ after) ∧
        next.Matches (u.reverse ++ before) v after
  | .seqRight first next, before, w, after =>
      ∃ u v, w = u ++ v ∧ first.Matches before u (v ++ after) ∧
        next.Around words (u.reverse ++ before) v after
  | .choiceLeft first next, before, w, after =>
      first.Around words before w after ∨ next.Matches before w after
  | .choiceRight first next, before, w, after =>
      first.Matches before w after ∨ next.Around words before w after

end Frame

theorem matches_fill {p : Pattern} {words : Text → Prop}
    (h : ∀ before w after, p.Matches before w after ↔ words w) (f : Frame)
    (before w after : Text) :
    (f.fill p).Matches before w after ↔ f.Around words before w after := by
  induction f generalizing before w after with
  | hole => exact h before w after
  | group body ih => exact ih before w after
  | optional body ih => exact or_congr (ih before w after) Iff.rfl
  | seqLeft first next ih =>
      exact exists_congr fun u => exists_congr fun v =>
        and_congr Iff.rfl (and_congr (ih _ _ _) Iff.rfl)
  | seqRight first next ih =>
      exact exists_congr fun u => exists_congr fun v =>
        and_congr Iff.rfl (and_congr Iff.rfl (ih _ _ _))
  | choiceLeft first next ih => exact or_congr (ih before w after) Iff.rfl
  | choiceRight first next ih => exact or_congr Iff.rfl (ih before w after)

/-! ## Expressions that depend on an item -/

/-- An expression that depends on an item is a frame around it. -/
def Frames (x : Pattern → Pattern) : Prop := ∃ f : Frame, ∀ p, x p = f.fill p

namespace Frames

theorem id : Frames fun p => p := ⟨.hole, fun _ => rfl⟩

variable {x : Pattern → Pattern}

theorem group (h : Frames x) : Frames fun p => .group (x p) := by
  obtain ⟨f, hf⟩ := h
  exact ⟨.group f, fun p => congrArg Pattern.group (hf p)⟩

theorem optional (h : Frames x) : Frames fun p => .optional (x p) := by
  obtain ⟨f, hf⟩ := h
  exact ⟨.optional f, fun p => congrArg Pattern.optional (hf p)⟩

theorem sequence (h : Frames x) (xs ys : List Pattern) :
    Frames fun p => Pattern.sequence (xs ++ x p :: ys) := by
  obtain ⟨f, hf⟩ := h
  induction xs with
  | nil =>
      cases ys with
      | nil => exact ⟨f, hf⟩
      | cons y ys => exact ⟨.seqLeft f (Pattern.sequence (y :: ys)), fun p =>
          congrArg (Pattern.seq · (Pattern.sequence (y :: ys))) (hf p)⟩
  | cons y xs ih =>
      obtain ⟨g, hg⟩ := ih
      refine ⟨.seqRight y g, fun p => ?_⟩
      have hcons : Pattern.sequence (y :: (xs ++ x p :: ys)) =
          .seq y (Pattern.sequence (xs ++ x p :: ys)) := by
        cases xs <;> rfl
      exact hcons.trans (congrArg (Pattern.seq y) (hg p))

theorem choices (h : Frames x) (xs ys : List Pattern) :
    Frames fun p => Pattern.choices (xs ++ x p :: ys) := by
  obtain ⟨f, hf⟩ := h
  induction xs with
  | nil =>
      cases ys with
      | nil => exact ⟨f, hf⟩
      | cons y ys => exact ⟨.choiceLeft f (Pattern.choices (y :: ys)), fun p =>
          congrArg (Pattern.choice · (Pattern.choices (y :: ys))) (hf p)⟩
  | cons y xs ih =>
      obtain ⟨g, hg⟩ := ih
      refine ⟨.choiceRight y g, fun p => ?_⟩
      have hcons : Pattern.choices (y :: (xs ++ x p :: ys)) =
          .choice y (Pattern.choices (xs ++ x p :: ys)) := by
        cases xs <;> rfl
      exact hcons.trans (congrArg (Pattern.choice y) (hg p))

end Frames

/-! ## Open groups that hold the item -/

/-- The item is somewhere in an open group: in the current alternative or in a complete one. -/
def Level.Holds (l : Pattern → Level) : Prop :=
  ∃ x, Frames x ∧
    ((∃ done late early, ∀ p, l p = ⟨done, late ++ x p :: early⟩) ∨
      (∃ late early items, ∀ p, l p = ⟨late ++ x p :: early, items⟩))

namespace Level.Holds

variable {l : Pattern → Level}

/-- An item that was just read. -/
theorem pushed {x : Pattern → Pattern} (hx : Frames x) (l : Level) :
    Holds fun p => l.push (x p) :=
  ⟨x, hx, Or.inl ⟨l.alternatives, [], l.items, fun _ => rfl⟩⟩

theorem push (h : Holds l) (q : Pattern) : Holds fun p => (l p).push q := by
  obtain ⟨x, hx, ⟨done, late, early, hl⟩ | ⟨late, early, items, hl⟩⟩ := h
  · exact ⟨x, hx, Or.inl ⟨done, q :: late, early, fun p =>
      congrArg (Level.push · q) (hl p)⟩⟩
  · exact ⟨x, hx, Or.inr ⟨late, early, q :: items, fun p => congrArg (Level.push · q) (hl p)⟩⟩

theorem bar (h : Holds l) : Holds fun p => (l p).bar := by
  obtain ⟨x, hx, ⟨done, late, early, hl⟩ | ⟨late, early, items, hl⟩⟩ := h
  · refine ⟨_, hx.sequence early.reverse late.reverse, Or.inr ⟨[], done, [], fun p => ?_⟩⟩
    simp [hl, Level.bar, Level.current]
  · exact ⟨x, hx, Or.inr ⟨Pattern.sequence items.reverse :: late, early, [], fun p =>
      congrArg Level.bar (hl p)⟩⟩

theorem close (h : Holds l) : Frames fun p => (l p).close := by
  obtain ⟨x, hx, ⟨done, late, early, hl⟩ | ⟨late, early, items, hl⟩⟩ := h
  · obtain ⟨f, hf⟩ := (hx.sequence early.reverse late.reverse).choices done.reverse []
    refine ⟨f, fun p => ?_⟩
    rw [← hf]
    simp [hl, Level.close, Level.current]
  · obtain ⟨f, hf⟩ := hx.choices early.reverse
      (late.reverse ++ [Pattern.sequence items.reverse])
    refine ⟨f, fun p => ?_⟩
    rw [← hf]
    simp [hl, Level.close, Level.current]

/-- A mark fails for every item or for none. -/
theorem mark (h : Holds l) :
    (∀ p, (l p).mark = none) ∨ ∃ l', Holds l' ∧ ∀ p, (l p).mark = some (l' p) := by
  obtain ⟨x, hx, ⟨done, late, early, hl⟩ | ⟨late, early, items, hl⟩⟩ := h
  · cases late with
    | nil =>
        refine Or.inr ⟨fun p => ⟨done, .optional (x p) :: early⟩, ?_, fun p => by rw [hl]; rfl⟩
        exact ⟨_, hx.optional, Or.inl ⟨done, [], early, fun _ => rfl⟩⟩
    | cons y late =>
        refine Or.inr ⟨fun p => ⟨done, .optional y :: late ++ x p :: early⟩, ?_, fun p => by
          rw [hl]; rfl⟩
        exact ⟨x, hx, Or.inl ⟨done, .optional y :: late, early, fun _ => rfl⟩⟩
  · cases items with
    | nil => exact Or.inl fun p => by rw [hl]; rfl
    | cons y items =>
        refine Or.inr ⟨fun p => ⟨late ++ x p :: early, .optional y :: items⟩, ?_, fun p => by
          rw [hl]; rfl⟩
        exact ⟨x, hx, Or.inr ⟨late, early, .optional y :: items, fun _ => rfl⟩⟩

end Level.Holds

/-! ## Reading around the item -/

/-- Reading fails whatever the item is, or gives a frame around it. -/
def FramesOrFails (r : Pattern → Option Pattern) : Prop :=
  (∀ p, r p = none) ∨ ∃ f : Frame, ∀ p, r p = some (f.fill p)

/-- Reading on, with the item in the innermost open group or in one around it. By induction on the
tokens: closing the group that holds the item puts it into the next one. -/
theorem assemble_holds (ts : List Token) :
    (∀ l outer, Level.Holds l → FramesOrFails fun p => assemble (l p) outer ts) ∧
      ∀ l inner m outer, Level.Holds m →
        FramesOrFails fun p => assemble l (inner ++ m p :: outer) ts := by
  induction ts with
  | nil =>
      refine ⟨fun l outer hl => ?_, fun l inner m outer _ => Or.inl fun p => ?_⟩
      · cases outer with
        | nil =>
            obtain ⟨f, hf⟩ := hl.close
            exact Or.inr ⟨f, fun p => congrArg some (hf p)⟩
        | cons o outer => exact Or.inl fun p => rfl
      · cases inner <;> rfl
  | cons tok ts ih =>
      obtain ⟨ihHere, ihOuter⟩ := ih
      refine ⟨fun l outer hl => ?_, fun l inner m outer hm => ?_⟩
      · cases tok with
        | opening =>
            -- the group that holds the item now waits right around a new one
            simp only [assemble]
            exact ihOuter .start [] l outer hl
        | closing =>
            cases outer with
            | nil => exact Or.inl fun p => rfl
            | cons o outer =>
                -- the whole group becomes the last item of the next one
                simp only [assemble]
                exact ihHere _ outer (.pushed hl.close.group o)
        | bar =>
            simp only [assemble]
            exact ihHere _ outer hl.bar
        | mark =>
            simp only [assemble]
            rcases hl.mark with hnone | ⟨l', hl', hsome⟩
            · exact Or.inl fun p => congrArg (Option.bind · _) (hnone p)
            · simp only [hsome, Option.bind_some]
              exact ihHere _ outer hl'
        | boundary | textStart | textEnd | never | literal =>
            simp only [assemble]
            exact ihHere _ outer (hl.push _)
      · cases tok with
        | opening =>
            simp only [assemble]
            exact ihOuter .start (l :: inner) m outer hm
        | closing =>
            cases inner with
            | nil =>
                -- back in the group that holds the item
                simp only [List.nil_append, assemble]
                exact ihHere _ outer (hm.push _)
            | cons o inner =>
                simp only [List.cons_append, assemble]
                exact ihOuter _ inner m outer hm
        | mark =>
            simp only [assemble]
            cases l.mark with
            | none => exact Or.inl fun p => rfl
            | some l' => exact ihOuter l' inner m outer hm
        | bar | boundary | textStart | textEnd | never | literal =>
            simp only [assemble]
            exact ihOuter _ inner m outer hm

/-- Some tokens fail to be read whatever follows, or lead to a state from which the rest is read. -/
theorem assemble_append (ts : List Token) (l : Level) (outer : List Level) :
    (∀ rest, assemble l outer (ts ++ rest) = none) ∨
      ∃ l' outer', ∀ rest, assemble l outer (ts ++ rest) = assemble l' outer' rest := by
  induction ts generalizing l outer with
  | nil => exact Or.inr ⟨l, outer, fun _ => rfl⟩
  | cons tok ts ih =>
      cases tok with
      | closing =>
          cases outer with
          | nil => exact Or.inl fun _ => rfl
          | cons o outer =>
              simp only [List.cons_append, assemble]
              exact ih _ _
      | mark =>
          simp only [List.cons_append, assemble]
          cases l.mark with
          | none => exact Or.inl fun _ => rfl
          | some l' => exact ih l' outer
      | opening | bar | boundary | textStart | textEnd | never | literal =>
          simp only [List.cons_append, assemble]
          exact ih _ _

/-- **One item between two pieces of pattern text.** Let the first piece consist of whole tokens,
and let the two be readable around an empty group. Then some frame gives, for whatever reads as one
item, the expression that is read when it stands between the pieces. -/
theorem parse?_between {front back : Text} (hfront : (tokens front).isSome)
    (hwhole : (parse? (front ++ "(?:)".toList ++ back)).isSome) :
    ∃ f : Frame, ∀ ts p, ReadsAs ts [p] →
      parse? (front ++ written ts ++ back) = some (f.fill p) := by
  obtain ⟨us, hus⟩ := Option.isSome_iff_exists.1 hfront
  rw [tokens_eq_some_iff] at hus
  subst hus
  have hread : ∀ ts, parse? (written us ++ written ts ++ back) =
      (tokens back).bind fun vs => assemble .start [] (us ++ (ts ++ vs)) := by
    intro ts
    rw [parse?, List.append_assoc, tokens_written_append, tokens_written_append, Option.map_map,
      Option.bind_map]
    rfl
  rw [← written_emptyGroup, hread] at hwhole
  -- the empty group stands for the item: what fails with it would fail with any item
  cases hback : tokens back with
  | none =>
      rw [hback] at hwhole
      cases hwhole
  | some vs =>
      rw [hback, Option.bind_some] at hwhole
      rcases assemble_append us .start [] with hnone | ⟨l, outer, hstate⟩
      · rw [hnone] at hwhole
        cases hwhole
      · have hitem : ∀ ts p, ReadsAs ts [p] →
            assemble .start [] (us ++ (ts ++ vs)) = assemble (l.push p) outer vs := by
          intro ts p h
          rw [hstate, h]
          rfl
        rw [hitem _ _ ReadsAs.emptyGroup] at hwhole
        rcases (assemble_holds vs).1 _ outer (.pushed .id l) with hnone | ⟨f, hf⟩
        · rw [show assemble (l.push (.group .empty)) outer vs = none from hnone _] at hwhole
          cases hwhole
        · refine ⟨f, fun ts p h => ?_⟩
          rw [hread, hback, Option.bind_some, hitem ts p h]
          exact hf p

end Unmangle.Pattern
