import Mathlib.Data.List.Nodup
import Unmangle.Proofs.Table.Grammar
import Unmangle.Proofs.Table.Lines

set_option autoImplicit false

/-! # Writing tables

Any fields can be written as a line: each one in quotes, with a backslash before every quote and
every backslash in it (`Table.writeLine`). The reader gives the fields back
(`Table.fields?_writeLine`), as the written line is one of the grammar.

A sheet is a header with rows that fit it (`Table.Sheet`). Written line by line it is a text, whose
table has the rows of the sheet under their first fields. A carriage return in a field is safe, even
at the end of a row: every line ends in a quote.

The main statement is `Table.ofText_written`.
-/

namespace Unmangle.Table

/-! ## Writing a line -/

/-- A field in quotes, with a backslash before every quote and every backslash in it. -/
def quote (field : Text) : Text :=
  '"' :: (field.flatMap fun c => if c = '"' ∨ c = '\\' then ['\\', c] else [c]) ++ ['"']

/-- The quoted fields with commas between them. -/
def writeLine (fields : List Text) : Text := List.intercalate [','] (fields.map quote)

/-- A character as it is written between quotes. -/
def QuotedChar.ofChar (c : Char) : QuotedChar :=
  if h : c = '"' ∨ c = '\\' then .escaped c else .plain c (not_or.1 h)

theorem QuotedChar.text_ofChar (c : Char) :
    (ofChar c).text = if c = '"' ∨ c = '\\' then ['\\', c] else [c] := by
  by_cases h : c = '"' ∨ c = '\\'
  · rw [ofChar, dif_pos h, if_pos h, text]
  · rw [ofChar, dif_neg h, if_neg h, text]

theorem QuotedChar.value_ofChar (c : Char) : (ofChar c).value = c := by
  by_cases h : c = '"' ∨ c = '\\'
  · rw [ofChar, dif_pos h, value]
  · rw [ofChar, dif_neg h, value]

/-- A field that is written as one section in quotes. -/
def Field.ofText (field : Text) : Field := [.quoted (field.map QuotedChar.ofChar)]

theorem Field.text_ofText (field : Text) : (Field.ofText field).text = quote field := by
  have hchars : QuotedChar.written (field.map QuotedChar.ofChar) =
      field.flatMap fun c => if c = '"' ∨ c = '\\' then ['\\', c] else [c] := by
    rw [QuotedChar.written, List.flatMap_map]
    exact List.flatMap_congr fun c _ => QuotedChar.text_ofChar c
  simp [Field.ofText, Field.text, FieldPart.text, quote, hchars]

theorem Field.value_ofText (field : Text) : (Field.ofText field).value = field := by
  have hchars : (field.map QuotedChar.ofChar).map QuotedChar.value = field := by
    rw [List.map_map]
    exact List.map_id'' (fun c => QuotedChar.value_ofChar c) field
  simp [Field.ofText, Field.value, FieldPart.value, hchars]

theorem writeLine_cons {rest : List Text} (field : Text) (h : rest ≠ []) :
    writeLine (field :: rest) = quote field ++ ',' :: writeLine rest := by
  rw [writeLine, List.map_cons, List.intercalate_cons_of_ne_nil (mt List.map_eq_nil_iff.1 h),
    List.append_assoc]
  rfl

theorem writeLine_singleton (field : Text) : writeLine [field] = quote field := by
  simp [writeLine, List.intercalate]

/-- What is written is a line of the grammar with these fields. -/
theorem exists_line_written {fields : List Text} (h : fields ≠ []) :
    ∃ l : Line, l.text = writeLine fields ∧ l.values = fields := by
  induction fields with
  | nil => exact absurd rfl h
  | cons field rest ih =>
      cases rest with
      | nil =>
          refine ⟨⟨[], Field.ofText field⟩, ?_, ?_⟩
          · rw [writeLine_singleton, ← Field.text_ofText]
            rfl
          · show [(Field.ofText field).value] = [field]
            rw [Field.value_ofText]
      | cons next rest =>
          obtain ⟨⟨done, last⟩, htext, hvalues⟩ := ih (List.cons_ne_nil next rest)
          refine ⟨⟨Field.ofText field :: done, last⟩, ?_, ?_⟩
          · rw [Line.text_cons, htext, Field.text_ofText,
              writeLine_cons field (List.cons_ne_nil next rest)]
          · show (Field.ofText field).value :: Line.values ⟨done, last⟩ = _
            rw [Field.value_ofText, hvalues]

/-- A written line ends with a quote. -/
theorem writeLine_ends {fields : List Text} (h : fields ≠ []) :
    ∃ middle, writeLine fields = middle ++ ['"'] := by
  induction fields with
  | nil => exact absurd rfl h
  | cons field rest ih =>
      have hquote : ∃ middle, quote field = middle ++ ['"'] := ⟨_, rfl⟩
      by_cases hrest : rest = []
      · rw [hrest, writeLine_singleton]
        exact hquote
      · obtain ⟨middle, hmiddle⟩ := ih hrest
        rw [writeLine_cons field hrest, hmiddle]
        exact ⟨quote field ++ ',' :: middle, by simp⟩

theorem fields?_writeLine {fields : List Text} (h : fields ≠ []) :
    fields? (writeLine fields) = some fields := by
  obtain ⟨l, htext, hvalues⟩ := exists_line_written h
  obtain ⟨middle, hmiddle⟩ := writeLine_ends h
  have hread : fields? (writeLine fields) = fieldsFrom .outside (writeLine fields) := by
    rw [fields?, hmiddle]
    simp
  rw [hread]
  exact fieldsFrom_eq_some_iff.2 ⟨l, htext, hvalues⟩

/-! ## Writing a sheet -/

/-- A header and rows that fit it: each row has a field for each column, no two rows have the same
first field, no two value columns the same name, and no field has a line feed. -/
structure Sheet where
  header : List Text
  rows : List (List Text)
  header_ne : header ≠ []
  length_eq : ∀ row ∈ rows, row.length = header.length
  nodup_keys : (rows.map keyOf).Nodup
  nodup_columns : (header.drop 1).Nodup
  no_feed : ∀ fields ∈ header :: rows, ∀ field ∈ fields, '\n' ∉ field

namespace Sheet

def text (s : Sheet) : Text := List.intercalate ['\n'] ((s.header :: s.rows).map writeLine)

end Sheet

theorem not_mem_quote {field : Text} (h : '\n' ∉ field) : '\n' ∉ quote field := by
  intro hmem
  simp only [quote, List.mem_append, List.mem_cons, List.mem_flatMap] at hmem
  rcases hmem with (hquote | ⟨c, hc, hwritten⟩) | hquote
  · exact absurd hquote (by decide)
  · have hfeed : '\n' = c := by
      split at hwritten
      · simpa using hwritten
      · simpa using hwritten
    exact h (hfeed ▸ hc)
  · exact absurd hquote (by simp)

theorem not_mem_writeLine {fields : List Text} (h : ∀ field ∈ fields, '\n' ∉ field) :
    '\n' ∉ writeLine fields := by
  induction fields with
  | nil => simp [writeLine, List.intercalate]
  | cons field rest ih =>
      have hfirst := not_mem_quote (h field List.mem_cons_self)
      by_cases hrest : rest = []
      · rw [hrest, writeLine_singleton]
        exact hfirst
      · have hmore := ih fun f hf => h f (List.mem_cons_of_mem _ hf)
        rw [writeLine_cons field hrest]
        simp [hfirst, hmore]

namespace Sheet

variable (s : Sheet) {ending : Text} (hending : ending = [] ∨ ending = ['\n'])

theorem ne_nil {fields : List Text} (h : fields ∈ s.header :: s.rows) : fields ≠ [] := by
  rcases List.mem_cons.1 h with rfl | hrow
  · exact s.header_ne
  · rintro rfl
    exact s.header_ne (List.length_eq_zero_iff.1 (s.length_eq [] hrow).symm)

include hending

/-- The lines of the text are those that were written. -/
theorem lines_text : Text.lines (s.text ++ ending) = (s.header :: s.rows).map writeLine := by
  refine Text.lines_intercalate (by simp) (fun l hl => ?_) hending
  obtain ⟨fields, hfields, rfl⟩ := List.mem_map.1 hl
  obtain ⟨middle, hmiddle⟩ := writeLine_ends (s.ne_nil hfields)
  refine ⟨not_mem_writeLine (s.no_feed fields hfields), ?_, ?_⟩
  · rw [hmiddle]
    simp
  · -- the line ends in a quote, so there is no carriage return to drop
    rw [hmiddle, Text.dropReturn]
    simp

theorem header_text : Table.header (s.text ++ ending) = s.header := by
  have hlines : Text.lines (s.text ++ ending) =
      [] ++ writeLine s.header :: s.rows.map writeLine := s.lines_text hending
  exact header_eq hlines (List.forall_mem_nil _) (fields?_writeLine s.header_ne) s.header_ne

theorem dataRows_text : dataRows (s.text ++ ending) = s.rows := by
  have hlines : Text.lines (s.text ++ ending) =
      [] ++ writeLine s.header :: s.rows.map writeLine := s.lines_text hending
  have hrow : ∀ row ∈ s.rows, rowFields? s.header (writeLine row) = some row := by
    intro row hrow
    have hne := s.ne_nil (List.mem_cons_of_mem _ hrow)
    simp [rowFields?, fields?_writeLine hne, s.length_eq row hrow]
  calc dataRows (s.text ++ ending)
      = (s.rows.map writeLine).filterMap (rowFields? s.header) :=
        dataRows_eq hlines (List.forall_mem_nil _) (fields?_writeLine s.header_ne) s.header_ne
    _ = s.rows.filterMap (rowFields? s.header ∘ writeLine) := List.filterMap_map
    _ = s.rows.filterMap some := List.filterMap_congr hrow
    _ = s.rows := List.filterMap_some

theorem nodup_dataRows : ((dataRows (s.text ++ ending)).map keyOf).Nodup := by
  rw [s.dataRows_text hending]
  exact s.nodup_keys

theorem keys_ofText : (ofText (s.text ++ ending)).keys.Perm (s.rows.map keyOf) := by
  refine (List.perm_ext_iff_of_nodup (ofText _).rows.nodup_keys s.nodup_keys).2 fun k => ?_
  have hkeys : k ∈ (ofText (s.text ++ ending)).keys ↔
      k ∈ (dataRows (s.text ++ ending)).map keyOf :=
    mem_keys_ofText_of_nodup (s.nodup_dataRows hending)
  rwa [s.dataRows_text hending] at hkeys

/-- Each value is found under the key of its row and the name of its column. -/
theorem get?_field {row : List Text} (hrow : row ∈ s.rows) {i : Nat} {column : Text} (hi : 0 < i)
    (hcolumn : s.header[i]? = some column) :
    (ofText (s.text ++ ending)).get? (keyOf row) column = row[i]? := by
  have hlast : ∀ j, i < j → s.header[j]? ≠ some column := by
    intro j hj hagain
    -- both places are places of value columns, which all have different names
    obtain ⟨k, rfl⟩ : ∃ k, i = 1 + k := ⟨i - 1, by omega⟩
    obtain ⟨m, rfl⟩ : ∃ m, j = 1 + m := ⟨j - 1, by omega⟩
    rw [← List.getElem?_drop] at hcolumn hagain
    have hbound : k < (s.header.drop 1).length := (List.getElem?_eq_some_iff.1 hcolumn).1
    have hplace : k = m :=
      (List.getElem?_inj hbound s.nodup_columns).1 (hcolumn.trans hagain.symm)
    omega
  have hmem : row ∈ dataRows (s.text ++ ending) := by
    rw [s.dataRows_text hending]
    exact hrow
  rw [get?_ofText_of_nodup (s.nodup_dataRows hending) hmem, s.header_text hending,
    fieldAt?_eq (s.length_eq row hrow) hi hcolumn hlast]

end Sheet

/-- **What is written is read back.** The fields of a written line are those that were written. The
table of a written sheet has its header and one row for each of its rows, with every value under the
first field of the row and the name of its column, whether a line feed ends the last line or not. -/
theorem ofText_written :
    (∀ fields : List Text, fields ≠ [] → fields? (writeLine fields) = some fields) ∧
    ∀ (s : Sheet) (ending : Text), ending = [] ∨ ending = ['\n'] →
      let t := ofText (s.text ++ ending)
      t.columns = s.header ∧ t.keys.Perm (s.rows.map keyOf) ∧
      ∀ row ∈ s.rows, ∀ i column, 0 < i → s.header[i]? = some column →
        ∃ value, row[i]? = some value ∧ t.get? (keyOf row) column = some value := by
  refine ⟨fun fields h => fields?_writeLine h, fun s ending hending => ⟨?_, ?_, ?_⟩⟩
  · rw [columns_ofText, s.header_text hending]
  · exact s.keys_ofText hending
  · intro row hrow i column hi hcolumn
    have hbound : i < row.length := by
      rw [s.length_eq row hrow]
      exact (List.getElem?_eq_some_iff.1 hcolumn).1
    have hvalue : row[i]? = some row[i] := List.getElem?_eq_getElem hbound
    exact ⟨row[i], hvalue, (s.get?_field hending hrow hi hcolumn).trans hvalue⟩

/-- A sheet whose fields are made of what could mislead a reader: separators, quotes, a backslash
before the closing quote, a carriage return at the end of a row, and nothing. -/
def trickySheet : Sheet where
  header := ["searge".toList, "a,b".toList, "".toList]
  rows := [["x\\".toList, "\"".toList, "\r".toList], ["".toList, ",".toList, "\\\"".toList]]
  header_ne := by decide
  length_eq := by decide
  nodup_keys := by decide
  nodup_columns := by decide
  no_feed := by decide

theorem ofText_written_tricky :
    fields? (writeLine ["\\".toList, "".toList]) = some ["\\".toList, "".toList] ∧
      (ofText trickySheet.text).columns = trickySheet.header ∧
      (ofText trickySheet.text).get? "x\\".toList "".toList = some "\r".toList ∧
      (ofText (trickySheet.text ++ ['\n'])).get? "".toList "a,b".toList = some ",".toList := by
  obtain ⟨hline, hsheet⟩ := ofText_written
  obtain ⟨hcolumns, -, hvalues⟩ := hsheet trickySheet [] (Or.inl rfl)
  obtain ⟨-, -, hvalues'⟩ := hsheet trickySheet ['\n'] (Or.inr rfl)
  obtain ⟨value, hvalue, hget⟩ := hvalues ["x\\".toList, "\"".toList, "\r".toList] (by decide) 2
    "".toList (by decide) (by decide)
  obtain ⟨value', hvalue', hget'⟩ := hvalues' ["".toList, ",".toList, "\\\"".toList] (by decide) 1
    "a,b".toList (by decide) (by decide)
  rw [List.append_nil] at hcolumns hget
  obtain rfl : "\r".toList = value := Option.some.inj hvalue
  obtain rfl : ",".toList = value' := Option.some.inj hvalue'
  exact ⟨hline _ (List.cons_ne_nil _ _), hcolumns, hget, hget'⟩

end Unmangle.Table
