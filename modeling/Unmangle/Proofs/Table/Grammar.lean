import Mathlib.Data.List.Induction
import Mathlib.Tactic.Common
import Unmangle.Table.Fields

set_option autoImplicit false

/-! # The grammar of lines

A line is a list of fields with one comma between each two of them. A field is a sequence of plain
characters and of sections in quotes, and in a section a backslash stands before a character that
is taken as it is. `Table.Line` is a line as it is written, with its text (`Line.text`) and the
fields that it stands for (`Line.values`).

The reader of lines goes through a text with one of three modes. What stands before it in a mode is
a line, perhaps with the start of a section and a backslash behind it (`Quoting.Partial`): each
step of the reader keeps this (`Quoting.Partial.next`), so it holds wherever the reader is
(`Quoting.partial_iff`).

The main statement is `Table.fields?_grammar`.
-/

namespace Unmangle.Table

/-! ## Lines as they are written -/

/-- A character in quotes as it is written. -/
inductive QuotedChar where
  /-- A character that stands for itself. -/
  | plain (c : Char) (h : c ≠ '"' ∧ c ≠ '\\')
  /-- Any character, with a backslash before it. -/
  | escaped (c : Char)

namespace QuotedChar

def text : QuotedChar → Text
  | .plain c _ => [c]
  | .escaped c => ['\\', c]

def value : QuotedChar → Char
  | .plain c _ => c
  | .escaped c => c

def written (chars : List QuotedChar) : Text := chars.flatMap text

end QuotedChar

/-- A part of a field as it is written. -/
inductive FieldPart where
  /-- A character outside quotes; a backslash is a character like any other here. -/
  | plain (c : Char) (h : c ≠ ',' ∧ c ≠ '"')
  /-- A section in quotes. -/
  | quoted (chars : List QuotedChar)

namespace FieldPart

def text : FieldPart → Text
  | .plain c _ => [c]
  | .quoted chars => '"' :: QuotedChar.written chars ++ ['"']

/-- The characters without the quotes around a section and the backslashes in it. -/
def value : FieldPart → Text
  | .plain c _ => [c]
  | .quoted chars => chars.map QuotedChar.value

end FieldPart

abbrev Field := List FieldPart

namespace Field

def text (f : Field) : Text := f.flatMap FieldPart.text

def value (f : Field) : Text := f.flatMap FieldPart.value

end Field

/-- A line as it is written: the fields that a comma follows, and the last one. -/
structure Line where
  done : List Field
  last : Field

namespace Line

def text (l : Line) : Text := (l.done.flatMap fun f => f.text ++ [',']) ++ l.last.text

/-- What the fields of the line stand for. -/
def values (l : Line) : List Text := (l.done ++ [l.last]).map Field.value

end Line

/-! ## A text belongs to one line at most -/

/-- The end of a section can be told from its text. -/
theorem QuotedChar.written_append_inj {a b : List QuotedChar} {r s : Text}
    (h : written a ++ '"' :: r = written b ++ '"' :: s) : a = b ∧ r = s := by
  induction a generalizing b with
  | nil =>
      cases b with
      | nil => exact ⟨rfl, (List.cons.inj h).2⟩
      | cons y b =>
          cases y with
          | plain d hd => exact absurd (List.cons.inj h).1.symm hd.1
          | escaped d => exact absurd (List.cons.inj h).1 (by decide)
  | cons x a ih =>
      cases b with
      | nil =>
          cases x with
          | plain c hc => exact absurd (List.cons.inj h).1 hc.1
          | escaped c => exact absurd (List.cons.inj h).1 (by decide)
      | cons y b =>
          cases x with
          | plain c hc =>
              cases y with
              | plain d hd =>
                  obtain ⟨rfl, hrest⟩ := List.cons.inj h
                  obtain ⟨rfl, rfl⟩ := ih hrest
                  exact ⟨rfl, rfl⟩
              | escaped d => exact absurd (List.cons.inj h).1 hc.2
          | escaped c =>
              cases y with
              | plain d hd => exact absurd (List.cons.inj h).1.symm hd.2
              | escaped d =>
                  obtain ⟨rfl, hrest⟩ := List.cons.inj (List.cons.inj h).2
                  obtain ⟨rfl, rfl⟩ := ih hrest
                  exact ⟨rfl, rfl⟩

namespace FieldPart

theorem text_append_inj {p q : FieldPart} {r s : Text} (h : p.text ++ r = q.text ++ s) :
    p = q ∧ r = s := by
  cases p with
  | plain c hc =>
      cases q with
      | plain d hd =>
          obtain ⟨rfl, rfl⟩ := List.cons.inj h
          exact ⟨rfl, rfl⟩
      | quoted b => exact absurd (List.cons.inj h).1 hc.2
  | quoted a =>
      cases q with
      | plain d hd => exact absurd (List.cons.inj h).1.symm hd.2
      | quoted b =>
          have hrest : QuotedChar.written a ++ '"' :: r = QuotedChar.written b ++ '"' :: s := by
            simpa [text] using h
          obtain ⟨rfl, rfl⟩ := QuotedChar.written_append_inj hrest
          exact ⟨rfl, rfl⟩

/-- No part of a field starts with a comma. -/
theorem head?_text (p : FieldPart) : ∃ c, p.text.head? = some c ∧ c ≠ ',' := by
  cases p with
  | plain c hc => exact ⟨c, rfl, hc.1⟩
  | quoted chars => exact ⟨'"', rfl, by decide⟩

end FieldPart

/-- A text can go on behind a field: it is empty or goes on with a comma. -/
def EndsField (r : Text) : Prop := ∀ c, r.head? = some c → c = ','

theorem endsField_nil : EndsField [] := fun c h => by cases h

theorem endsField_comma (r : Text) : EndsField (',' :: r) :=
  fun _ h => (Option.some.inj h).symm

theorem not_endsField_part (p : FieldPart) (r : Text) : ¬ EndsField (p.text ++ r) := by
  obtain ⟨c, hc, hne⟩ := p.head?_text
  intro h
  refine hne (h c ?_)
  rw [List.head?_append, hc, Option.some_or]

theorem Field.text_append_inj {f g : Field} {r s : Text} (hr : EndsField r) (hs : EndsField s)
    (h : f.text ++ r = g.text ++ s) : f = g ∧ r = s := by
  induction f generalizing g with
  | nil =>
      cases g with
      | nil => exact ⟨rfl, h⟩
      | cons q g =>
          have hstart : r = q.text ++ (Field.text g ++ s) := by
            rw [← List.append_assoc]
            exact h
          exact absurd (hstart ▸ hr) (not_endsField_part q _)
  | cons p f ih =>
      cases g with
      | nil =>
          have hstart : s = p.text ++ (Field.text f ++ r) := by
            rw [← List.append_assoc]
            exact h.symm
          exact absurd (hstart ▸ hs) (not_endsField_part p _)
      | cons q g =>
          have hparts : p.text ++ (Field.text f ++ r) = q.text ++ (Field.text g ++ s) := by
            rw [← List.append_assoc, ← List.append_assoc]
            exact h
          obtain ⟨rfl, hrest⟩ := FieldPart.text_append_inj hparts
          obtain ⟨rfl, rfl⟩ := ih hrest
          exact ⟨rfl, rfl⟩

namespace Line

theorem text_cons (f : Field) (done : List Field) (last : Field) :
    text ⟨f :: done, last⟩ = f.text ++ ',' :: text ⟨done, last⟩ := by
  simp [text]

/-- A text is the text of one line at most: by induction on the fields, each of which ends where the
text does or at the first comma outside quotes. -/
theorem text_injective : Function.Injective text := by
  rintro ⟨done, last⟩ ⟨done', last'⟩ h
  induction done generalizing done' with
  | nil =>
      have hlast : text ⟨[], last⟩ = last.text ++ [] := (List.append_nil _).symm
      cases done' with
      | nil =>
          have hlast' : text ⟨[], last'⟩ = last'.text ++ [] := (List.append_nil _).symm
          rw [hlast, hlast'] at h
          obtain ⟨rfl, -⟩ := Field.text_append_inj endsField_nil endsField_nil h
          rfl
      | cons g done' =>
          rw [hlast, text_cons] at h
          cases (Field.text_append_inj endsField_nil (endsField_comma _) h).2
  | cons f done ih =>
      cases done' with
      | nil =>
          have hlast' : text ⟨[], last'⟩ = last'.text ++ [] := (List.append_nil _).symm
          rw [hlast', text_cons] at h
          cases (Field.text_append_inj (endsField_comma _) endsField_nil h).2
      | cons g done' =>
          rw [text_cons, text_cons] at h
          obtain ⟨rfl, hrest⟩ :=
            Field.text_append_inj (endsField_comma _) (endsField_comma _) h
          cases ih _ (List.cons.inj hrest).2
          rfl

end Line

/-! ## The fields of a line -/

def addText (word : Text) (fields : List Text) : List Text := word.foldr addChar fields

theorem addText_append (u v : Text) (fields : List Text) :
    addText (u ++ v) fields = addText u (addText v fields) :=
  List.foldr_append

theorem addText_cons (word field : Text) (rest : List Text) :
    addText word (field :: rest) = (word ++ field) :: rest := by
  induction word with
  | nil => rfl
  | cons c word ih =>
      show addChar c (addText word (field :: rest)) = _
      rw [ih]
      rfl

/-- A section that is closed adds its characters to the field. -/
theorem fieldsFrom_written (chars : List QuotedChar) (rest : Text) :
    fieldsFrom .inside (QuotedChar.written chars ++ '"' :: rest) =
      (fieldsFrom .outside rest).map (addText (chars.map QuotedChar.value)) := by
  induction chars with
  | nil => exact Option.map_id_apply.symm
  | cons x chars ih =>
      -- either way the reader is inside again after this character, and adds it to the field
      have hstep : fieldsFrom .inside (QuotedChar.written (x :: chars) ++ '"' :: rest) =
          (fieldsFrom .inside (QuotedChar.written chars ++ '"' :: rest)).map (addChar x.value) := by
        cases x with
        | plain c hc =>
            show fieldsFrom .inside (c :: (QuotedChar.written chars ++ '"' :: rest)) = _
            rw [fieldsFrom, if_neg hc.1, if_neg hc.2]
            rfl
        | escaped c => rfl
      rw [hstep, ih, Option.map_map]
      rfl

theorem fieldsFrom_part (p : FieldPart) (rest : Text) :
    fieldsFrom .outside (p.text ++ rest) = (fieldsFrom .outside rest).map (addText p.value) := by
  cases p with
  | plain c hc =>
      show fieldsFrom .outside (c :: rest) = _
      rw [fieldsFrom, if_neg hc.2, if_neg hc.1]
      rfl
  | quoted chars =>
      have hopen : fieldsFrom .outside ((FieldPart.quoted chars).text ++ rest) =
          fieldsFrom .inside (QuotedChar.written chars ++ '"' :: rest) := by
        simp [FieldPart.text, fieldsFrom]
      rw [hopen, fieldsFrom_written]
      rfl

theorem fieldsFrom_field (f : Field) (rest : Text) :
    fieldsFrom .outside (f.text ++ rest) = (fieldsFrom .outside rest).map (addText f.value) := by
  induction f with
  | nil => exact Option.map_id_apply.symm
  | cons p f ih =>
      have hfirst : Field.text (p :: f) ++ rest = p.text ++ (Field.text f ++ rest) :=
        List.append_assoc _ _ _
      rw [hfirst, fieldsFrom_part, ih, Option.map_map]
      congr 1
      funext fields
      exact (addText_append p.value (Field.value f) fields).symm

/-- The fields of a line are read from its text. -/
theorem fieldsFrom_text (l : Line) : fieldsFrom .outside l.text = some l.values := by
  obtain ⟨done, last⟩ := l
  induction done with
  | nil =>
      have hlast : Line.text ⟨[], last⟩ = last.text ++ [] := (List.append_nil _).symm
      rw [hlast, fieldsFrom_field, fieldsFrom, Option.map_some, addText_cons, List.append_nil]
      rfl
  | cons f done ih =>
      have hcomma : fieldsFrom .outside (',' :: Line.text ⟨done, last⟩) =
          (fieldsFrom .outside (Line.text ⟨done, last⟩)).map ([] :: ·) := rfl
      rw [Line.text_cons, fieldsFrom_field, hcomma, ih, Option.map_some, Option.map_some,
        addText_cons, List.append_nil]
      rfl

/-! ## The modes of the reader -/

namespace Quoting

/-- The mode after one more character. -/
def next : Quoting → Char → Quoting
  | .outside, c => if c = '"' then .inside else .outside
  | .inside, c => if c = '"' then .outside else if c = '\\' then .escaped else .inside
  | .escaped, _ => .inside

/-- The mode in which the reader is at the end of a text. -/
def after (q : Quoting) (t : Text) : Quoting := t.foldl next q

theorem after_append (q : Quoting) (t u : Text) : q.after (t ++ u) = (q.after t).after u :=
  List.foldl_append

theorem after_written (chars : List QuotedChar) :
    after .inside (QuotedChar.written chars) = .inside := by
  induction chars with
  | nil => rfl
  | cons x chars ih =>
      have hchar : after .inside x.text = .inside := by
        cases x with
        | plain c hc =>
            show next .inside c = .inside
            rw [next, if_neg hc.1, if_neg hc.2]
        | escaped c => rfl
      have hfirst : QuotedChar.written (x :: chars) = x.text ++ QuotedChar.written chars := rfl
      rw [hfirst, after_append, hchar, ih]

end Quoting

/-- The reader gives fields exactly when it ends outside quotes. -/
theorem isSome_fieldsFrom_iff (q : Quoting) (t : Text) :
    (fieldsFrom q t).isSome = true ↔ q.after t = .outside := by
  fun_induction fieldsFrom q t with
  | case1 => exact iff_of_true rfl rfl
  | case2 => exact iff_of_false Bool.false_ne_true (by decide)
  | case3 => exact iff_of_false Bool.false_ne_true (by decide)
  | case4 rest ih => exact ih
  | case5 rest hquote ih =>
      rw [Option.isSome_map]
      exact ih
  | case6 c rest hquote hcomma ih =>
      rw [Option.isSome_map, ih, Quoting.after, Quoting.after, List.foldl_cons, Quoting.next,
        if_neg hquote]
  | case7 rest ih => exact ih
  | case8 rest hquote ih => exact ih
  | case9 c rest hquote hslash ih =>
      rw [Option.isSome_map, ih, Quoting.after, Quoting.after, List.foldl_cons, Quoting.next,
        if_neg hquote, if_neg hslash]
  | case10 c rest ih =>
      rw [Option.isSome_map]
      exact ih

/-! ## What the reader has read -/

namespace Quoting

/-- What stands before the reader in a mode: a line; a line and the start of a section; or these and
a backslash. -/
def Partial : Quoting → Text → Prop
  | .outside, t => ∃ l : Line, t = l.text
  | .inside, t => ∃ (l : Line) (chars : List QuotedChar),
      t = l.text ++ '"' :: QuotedChar.written chars
  | .escaped, t => ∃ (l : Line) (chars : List QuotedChar),
      t = l.text ++ '"' :: QuotedChar.written chars ++ ['\\']

/-- **One step of the reader.** A character starts a section, ends a field, ends a section
or goes on with what is there. -/
theorem Partial.next {q : Quoting} {t : Text} (h : q.Partial t) (c : Char) :
    (q.next c).Partial (t ++ [c]) := by
  cases q with
  | outside =>
      obtain ⟨l, rfl⟩ := h
      by_cases hquote : c = '"'
      · rw [Quoting.next, if_pos hquote, hquote]
        exact ⟨l, [], rfl⟩
      · rw [Quoting.next, if_neg hquote]
        by_cases hcomma : c = ','
        · exact ⟨⟨l.done ++ [l.last], []⟩, by simp [Line.text, Field.text, hcomma]⟩
        · exact ⟨⟨l.done, l.last ++ [.plain c ⟨hcomma, hquote⟩]⟩,
            by simp [Line.text, Field.text, FieldPart.text]⟩
  | inside =>
      obtain ⟨l, chars, rfl⟩ := h
      by_cases hquote : c = '"'
      · rw [Quoting.next, if_pos hquote]
        exact ⟨⟨l.done, l.last ++ [.quoted chars]⟩,
          by simp [Line.text, Field.text, FieldPart.text, hquote]⟩
      · rw [Quoting.next, if_neg hquote]
        by_cases hslash : c = '\\'
        · rw [if_pos hslash, hslash]
          exact ⟨l, chars, rfl⟩
        · rw [if_neg hslash]
          exact ⟨l, chars ++ [.plain c ⟨hquote, hslash⟩],
            by simp [QuotedChar.written, QuotedChar.text]⟩
  | escaped =>
      obtain ⟨l, chars, rfl⟩ := h
      exact ⟨l, chars ++ [.escaped c], by simp [QuotedChar.written, QuotedChar.text]⟩

/-- The whole run, from the start of a text: by induction on the text from its end. -/
theorem partial_after (t : Text) : (after .outside t).Partial t := by
  induction t using List.reverseRecOn with
  | nil => exact ⟨⟨[], []⟩, rfl⟩
  | append_singleton t c ih =>
      rw [after_append]
      exact ih.next c

/-- The mode at the end of a text tells what the text is, and what it is tells the mode. -/
theorem partial_iff (q : Quoting) (t : Text) : q.Partial t ↔ after .outside t = q := by
  constructor
  · intro h
    have hline : ∀ l : Line, after .outside l.text = .outside := by
      intro l
      rw [← isSome_fieldsFrom_iff, fieldsFrom_text]
      rfl
    have hopen : ∀ (l : Line) (chars : List QuotedChar),
        after .outside (l.text ++ '"' :: QuotedChar.written chars) = .inside := by
      intro l chars
      rw [after_append, hline]
      exact after_written chars
    cases q with
    | outside =>
        obtain ⟨l, rfl⟩ := h
        exact hline l
    | inside =>
        obtain ⟨l, chars, rfl⟩ := h
        exact hopen l chars
    | escaped =>
        obtain ⟨l, chars, rfl⟩ := h
        rw [after_append, hopen]
        rfl
  · rintro rfl
    exact partial_after t

end Quoting

/-! ## Reading accepts lines and nothing else -/

theorem fieldsFrom_eq_some_iff {t : Text} {fields : List Text} :
    fieldsFrom .outside t = some fields ↔ ∃ l : Line, l.text = t ∧ l.values = fields := by
  constructor
  · intro h
    have hmode : Quoting.after .outside t = .outside := by
      rw [← isSome_fieldsFrom_iff, h]
      rfl
    obtain ⟨l, rfl⟩ := (Quoting.partial_iff .outside t).2 hmode
    rw [fieldsFrom_text] at h
    exact ⟨l, rfl, Option.some.inj h⟩
  · rintro ⟨l, rfl, rfl⟩
    exact fieldsFrom_text l

/-- **The grammar of lines.** A text is the text of one line at most. The reader gives the fields of
every line that is not empty, in their order and without the quotes and the backslashes before
characters in quotes; it gives no fields for the empty text, and for nothing else does it give a
result. It gives none exactly when it ends in a section, which is when the text is a line and the
start of a section, or right after a backslash in a section. -/
theorem fields?_grammar :
    Function.Injective Line.text ∧
    ∀ t : Text,
      (∀ fields, fields? t = some fields ↔
        t = [] ∧ fields = [] ∨ t ≠ [] ∧ ∃ l : Line, l.text = t ∧ l.values = fields) ∧
      (fields? t = none ↔
        Quoting.after .outside t = .inside ∨ Quoting.after .outside t = .escaped) ∧
      (Quoting.after .outside t = .inside ↔ ∃ (l : Line) (chars : List QuotedChar),
        t = l.text ++ '"' :: QuotedChar.written chars) ∧
      (Quoting.after .outside t = .escaped ↔ ∃ (l : Line) (chars : List QuotedChar),
        t = l.text ++ '"' :: QuotedChar.written chars ++ ['\\']) := by
  refine ⟨Line.text_injective, fun t => ⟨fun fields => ?_, ?_,
    (Quoting.partial_iff .inside t).symm, (Quoting.partial_iff .escaped t).symm⟩⟩
  · cases t with
    | nil =>
        have hnil : fields? [] = some [] := rfl
        rw [hnil, Option.some.injEq, eq_comm]
        simp
    | cons c rest =>
        have hcons : fields? (c :: rest) = fieldsFrom .outside (c :: rest) := rfl
        rw [hcons, fieldsFrom_eq_some_iff]
        simp
  · have hmode : fields? t = none ↔ Quoting.after .outside t ≠ .outside := by
      cases t with
      | nil => exact iff_of_false (by decide) (by decide)
      | cons c rest =>
          have hcons : fields? (c :: rest) = fieldsFrom .outside (c :: rest) := rfl
          rw [hcons, ← Option.not_isSome_iff_eq_none, isSome_fieldsFrom_iff]
    rw [hmode]
    cases Quoting.after .outside t <;> decide

/-- A field with a section in the middle, in which there are a comma and a quote, and an empty one. -/
example : fields? "a\"b,\\\"\"c,".toList = some ["ab,\"c".toList, []] := by decide

end Unmangle.Table
