import Mathlib.Data.List.Forall2
import Unmangle.Pattern.Reader

set_option autoImplicit false

/-! # Written patterns

Tokens have a written form, and cutting a text into tokens inverts writing: each text that can be
cut is the written form of its tokens and of nothing else (`Pattern.tokens_eq_some_iff`). So a
pattern may be written and read token by token.

On tokens, reading is a walk through states: the innermost open group and the groups around it.
Some tokens *read as* some items when, in every state, reading them appends these items to the
innermost open group (`Pattern.ReadsAs`). Literals do, and a group whose alternatives do reads as
one item (`Pattern.ReadsAs.group`).
-/

namespace Unmangle.Pattern

/-! ## The written form of tokens -/

def Token.text : Token → Text
  | .opening => "(?:".toList
  | .closing => [')']
  | .bar => ['|']
  | .mark => ['?']
  | .boundary => "\\b".toList
  | .textStart => ['^']
  | .textEnd => ['$']
  | .never => "[^\\s\\S]".toList
  | .literal c => escapeChar c

/-- The written form of some tokens. -/
def written (ts : List Token) : Text := ts.flatMap Token.text

theorem written_append (ts us : List Token) : written (ts ++ us) = written ts ++ written us :=
  List.flatMap_append

/-- A literal text is written with its special characters escaped. -/
theorem written_literals (t : Text) : written (t.map .literal) = escape t := by
  rw [written, List.flatMap_map]
  rfl

/-! ## Cutting inverts writing -/

theorem ne_of_not_special {c d : Char} (hc : isSpecial c = false) (hd : isSpecial d = true) :
    c ≠ d := by
  rintro rfl
  rw [hd] at hc
  cases hc

theorem tokens_escaped {c : Char} (h : isSpecial c = true) (t : Text) :
    tokens ('\\' :: c :: t) = (tokens t).map (.literal c :: ·) := by
  have hb : c ≠ 'b' := (ne_of_not_special (by decide) h).symm
  rw [tokens, if_neg hb, if_pos h]

theorem tokens_plain {c : Char} (h : isSpecial c = false) (t : Text) :
    tokens (c :: t) = (tokens t).map (.literal c :: ·) := by
  have hne : ∀ d, isSpecial d = true → c ≠ d := fun d hd => ne_of_not_special h hd
  rw [tokens]
  · rw [if_neg (hne ')' (by decide)), if_neg (hne '|' (by decide)), if_neg (hne '?' (by decide)),
      if_neg (hne '^' (by decide)), if_neg (hne '$' (by decide)), h, if_neg Bool.false_ne_true]
  -- the three openings that are longer than one character start with a special one
  · rintro rest rfl
    exact absurd h (by decide)
  · rintro rest rfl
    exact absurd h (by decide)
  · rintro d rest rfl
    exact absurd h (by decide)

theorem tokens_text_append (tok : Token) (t : Text) :
    tokens (tok.text ++ t) = (tokens t).map (tok :: ·) := by
  cases tok with
  | literal c =>
      show tokens (escapeChar c ++ t) = _
      rw [escapeChar]
      cases h : isSpecial c with
      | true => exact tokens_escaped h t
      | false => exact tokens_plain h t
  | opening => rfl
  | closing => rfl
  | bar => rfl
  | mark => rfl
  | boundary => rfl
  | textStart => rfl
  | textEnd => rfl
  | never => rfl

theorem tokens_written_append (ts : List Token) (t : Text) :
    tokens (written ts ++ t) = (tokens t).map (ts ++ ·) := by
  induction ts with
  | nil =>
      show tokens t = (tokens t).map id
      exact Option.map_id_apply.symm
  | cons tok ts ih =>
      show tokens (tok.text ++ written ts ++ t) = _
      have hstep := tokens_text_append tok (written ts ++ t)
      rw [List.append_assoc, hstep, ih, Option.map_map]
      rfl

theorem tokens_written (ts : List Token) : tokens (written ts) = some ts := by
  have hnil : tokens [] = some [] := rfl
  have h := tokens_written_append ts []
  rwa [hnil, Option.map_some, List.append_nil, List.append_nil] at h

/-- One step of cutting: if the rest is written, so is the whole. -/
theorem written_of_map_cons {tok : Token} {rest : Text} {ts : List Token}
    (ih : ∀ us, tokens rest = some us → rest = written us)
    (h : (tokens rest).map (tok :: ·) = some ts) : tok.text ++ rest = written ts := by
  rw [Option.map_eq_some_iff] at h
  obtain ⟨us, hus, rfl⟩ := h
  show _ = tok.text ++ written us
  rw [← ih us hus]

theorem eq_written_of_tokens {t : Text} {ts : List Token} (h : tokens t = some ts) :
    t = written ts := by
  fun_induction tokens t generalizing ts with
  | case1 =>
      cases h
      rfl
  | case2 rest ih => exact written_of_map_cons (fun _ => ih) h
  | case3 rest ih => exact written_of_map_cons (fun _ => ih) h
  | case4 rest ih => exact written_of_map_cons (fun _ => ih) h
  | case5 c rest _ hc ih =>
      have htext : (Token.literal c).text = ['\\', c] := if_pos hc
      have hstep := written_of_map_cons (fun _ => ih) h
      rwa [htext] at hstep
  | case6 => cases h
  | case7 rest _ _ _ ih => exact written_of_map_cons (fun _ => ih) h
  | case8 rest _ _ _ _ ih => exact written_of_map_cons (fun _ => ih) h
  | case9 rest _ _ _ _ _ ih => exact written_of_map_cons (fun _ => ih) h
  | case10 rest _ _ _ _ _ _ ih => exact written_of_map_cons (fun _ => ih) h
  | case11 rest _ _ _ _ _ _ _ ih => exact written_of_map_cons (fun _ => ih) h
  | case12 => cases h
  | case13 c rest _ _ _ _ _ _ _ _ hc ih =>
      have htext : (Token.literal c).text = [c] := if_neg hc
      have hstep := written_of_map_cons (fun _ => ih) h
      rwa [htext] at hstep

/-- A text is cut into some tokens exactly when it is their written form. -/
theorem tokens_eq_some_iff {t : Text} {ts : List Token} : tokens t = some ts ↔ t = written ts :=
  ⟨eq_written_of_tokens, fun h => h ▸ tokens_written ts⟩

/-! ## Reading tokens as items -/

def Level.pushAll (l : Level) (items : List Pattern) : Level :=
  { l with items := items.reverse ++ l.items }

theorem Level.pushAll_append (l : Level) (xs ys : List Pattern) :
    l.pushAll (xs ++ ys) = (l.pushAll xs).pushAll ys := by
  simp [pushAll]

/-- In every state, reading the tokens appends the items to the innermost open group. -/
def ReadsAs (ts : List Token) (items : List Pattern) : Prop :=
  ∀ l outer rest, assemble l outer (ts ++ rest) = assemble (l.pushAll items) outer rest

namespace ReadsAs

theorem nil : ReadsAs [] [] := fun _ _ _ => rfl

theorem append {ts us : List Token} {xs ys : List Pattern} (h : ReadsAs ts xs)
    (k : ReadsAs us ys) : ReadsAs (ts ++ us) (xs ++ ys) := by
  intro l outer rest
  rw [List.append_assoc, h, k, Level.pushAll_append]

/-- A token that is an expression of its own reads as that expression. -/
theorem item {tok : Token} {p : Pattern} (h : tok.item? = some p) : ReadsAs [tok] [p] := by
  intro l outer rest
  have hstep := assemble_item l outer rest h
  exact hstep

theorem literals (t : Text) : ReadsAs (t.map .literal) (t.map .literal) := by
  induction t with
  | nil => exact nil
  | cons c t ih =>
      have hfirst : ReadsAs [.literal c] [.literal c] := item rfl
      exact hfirst.append ih

theorem boundary : ReadsAs [.boundary] [.boundary] := item rfl

theorem textStart : ReadsAs [.textStart] [.textStart] := item rfl

theorem textEnd : ReadsAs [.textEnd] [.textEnd] := item rfl

theorem never : ReadsAs [.never] [.never] := item rfl

end ReadsAs

/-! ## Reading groups -/

/-- Alternatives with a bar between each two of them. -/
def alternation : List (List Token) → List Token
  | [] => []
  | part :: more => part ++ more.flatMap (.bar :: ·)

def closingTokens (optional : Bool) : List Token :=
  if optional then [.closing, .mark] else [.closing]

def groupTokens (optional : Bool) (parts : List (List Token)) : List Token :=
  .opening :: (alternation parts ++ closingTokens optional)

def groupOf (optional : Bool) (alts : List (List Pattern)) : Pattern :=
  if optional then .optional (.group (choices (alts.map sequence)))
  else .group (choices (alts.map sequence))

/-- Reading the alternatives after the first one, up to the end of the group. -/
theorem assemble_more {parts : List (List Token)} {alts : List (List Pattern)}
    (h : List.Forall₂ ReadsAs parts alts) (l o : Level) (outer : List Level)
    (rest : List Token) :
    assemble l (o :: outer) (parts.flatMap (.bar :: ·) ++ .closing :: rest) =
      assemble (o.push (.group (choices ((l.current :: l.alternatives).reverse ++
        alts.map sequence)))) outer rest := by
  induction h generalizing l with
  | nil =>
      rw [List.map_nil, List.append_nil]
      exact assemble_closing l o outer rest
  | @cons part alt parts alts hpart _ ih =>
      rw [List.flatMap_cons, List.cons_append, List.cons_append, assemble_bar, List.append_assoc,
        hpart, ih]
      have hcurrent : (l.bar.pushAll alt).current = sequence alt := by
        simp [Level.current, Level.pushAll, Level.bar]
      have hdone : (l.bar.pushAll alt).alternatives = l.current :: l.alternatives := rfl
      rw [hcurrent, hdone, List.reverse_cons, List.append_assoc]
      rfl

/-- A group whose alternatives read as items reads as one item. -/
theorem ReadsAs.group {parts : List (List Token)} {alts : List (List Pattern)}
    (h : List.Forall₂ ReadsAs parts alts) (hne : parts ≠ []) (optional : Bool) :
    ReadsAs (groupTokens optional parts) [groupOf optional alts] := by
  cases h with
  | nil => exact absurd rfl hne
  | @cons part alt parts alts hpart hmore =>
      intro l outer rest
      have hcurrent : (Level.start.pushAll alt).current = sequence alt := by
        simp [Level.current, Level.pushAll, Level.start]
      have hread : ∀ tail, assemble .start (l :: outer)
          (part ++ (parts.flatMap (.bar :: ·) ++ .closing :: tail)) =
            assemble (l.push (.group (choices ((alt :: alts).map sequence)))) outer tail := by
        intro tail
        rw [hpart, assemble_more hmore, hcurrent]
        rfl
      cases optional with
      | true =>
          rw [groupTokens, List.cons_append, assemble_opening, alternation, closingTokens,
            if_pos rfl, List.append_assoc, List.append_assoc, List.cons_append, hread,
            List.cons_append, assemble_mark]
          rfl
      | false =>
          rw [groupTokens, List.cons_append, assemble_opening, alternation, closingTokens,
            if_neg Bool.false_ne_true, List.append_assoc, List.append_assoc, List.cons_append,
            hread]
          rfl

/-- A group around nothing. -/
theorem ReadsAs.emptyGroup : ReadsAs [.opening, .closing] [.group .empty] :=
  ReadsAs.group (.cons .nil .nil) (List.cons_ne_nil _ _) false

theorem written_emptyGroup : written [.opening, .closing] = "(?:)".toList := by decide

/-- What reads as some items is read as their sequence when it stands alone. -/
theorem ReadsAs.parse? {ts : List Token} {items : List Pattern} (h : ReadsAs ts items) :
    parse? (written ts) = some (sequence items) := by
  have hread := h .start [] []
  have hclose : (Level.start.pushAll items).close = sequence items := by
    simp [Level.close, Level.current, Level.pushAll, Level.start, choices]
  rw [List.append_nil, assemble_nil, hclose] at hread
  rw [Pattern.parse?, tokens_written]
  exact hread

end Unmangle.Pattern
