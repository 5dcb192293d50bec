import Mathlib.Data.List.Zip
import Unmangle.Proofs.Table.Keys
import Unmangle.Proofs.Text.Lines

set_option autoImplicit false

/-! # What the lines of a text add to its table

Each line of a text has one part in its table. The first line with fields is the header; a later
line with as many fields is a row of the table; any other line adds nothing, wherever it stands
(`Table.AddsNothing`). The rows are stored under different keys, so the table has as many rows as
there are such lines, and each one can be read back (`Table.Accounts`).

* `Table.ofText_accounts`: the main statement.
* `Table.not_mem_of_mem_keys`: no key of a table has a line feed.
-/

namespace Unmangle.Table

/-! ## Reading a row back -/

/-- Where a name stands for the last time among some names, a look-up from the end finds the value
at its place. -/
theorem lookup_reverse_zip {names values : List Text} {name : Text} {i : Nat}
    (hlength : values.length = names.length) (hname : names[i]? = some name)
    (hlast : ∀ j, i < j → names[j]? ≠ some name) :
    (names.zip values).reverse.lookup name = values[i]? := by
  induction names generalizing values i with
  | nil => simp at hname
  | cons first names ih =>
      cases values with
      | nil => simp at hlength
      | cons value values =>
          have hrest : values.length = names.length := by simpa using hlength
          rw [List.zip_cons_cons, List.reverse_cons, List.lookup_append]
          cases i with
          | zero =>
              obtain rfl : first = name := by simpa using hname
              -- the name does not stand further on
              have hnone : (names.zip values).reverse.lookup first = none := by
                rw [List.lookup_eq_none_iff]
                intro pair hpair
                obtain ⟨j, hj⟩ :=
                  List.mem_iff_getElem?.1 (List.of_mem_zip (List.mem_reverse.1 hpair)).1
                have hne : names[j]? ≠ some first := hlast (j + 1) (Nat.succ_pos j)
                have hpair : pair.1 ≠ first := fun heq => hne (heq ▸ hj)
                simp [Ne.symm hpair]
              simp [hnone]
          | succ i =>
              rw [List.getElem?_cons_succ] at hname
              have hmore := ih hrest hname fun j hj => hlast (j + 1) (Nat.succ_lt_succ hj)
              have hbound : i < names.length := (List.getElem?_eq_some_iff.1 hname).1
              have hvalue : values[i]? = some values[i] := List.getElem?_eq_getElem (by omega)
              rw [hmore, List.getElem?_cons_succ, hvalue, Option.some_or]

theorem fieldAt?_eq {columns fields : List Text} {column : Text} {i : Nat}
    (hlength : fields.length = columns.length) (hi : 0 < i) (hcolumn : columns[i]? = some column)
    (hlast : ∀ j, i < j → columns[j]? ≠ some column) :
    fieldAt? columns fields column = fields[i]? := by
  have hdrop : ∀ (l : List Text) j, (l.drop 1)[j]? = l[j + 1]? := by
    intro l j
    rw [List.getElem?_drop, Nat.add_comm]
  obtain ⟨k, rfl⟩ : ∃ k, i = k + 1 := ⟨i - 1, by omega⟩
  rw [fieldAt?, lookup_reverse_zip (i := k) (by simp [hlength]), hdrop]
  · rw [hdrop, hcolumn]
  · intro j hj
    rw [hdrop]
    exact hlast (j + 1) (by omega)

theorem fieldAt?_eq_none {columns fields : List Text} {column : Text}
    (h : column ∉ columns.drop 1) : fieldAt? columns fields column = none := by
  rw [fieldAt?, List.lookup_eq_none_iff]
  intro pair hpair
  have hmem : pair.1 ∈ columns.drop 1 := (List.of_mem_zip (List.mem_reverse.1 hpair)).1
  have hne : pair.1 ≠ column := fun heq => h (heq ▸ hmem)
  simp [Ne.symm hne]

/-! ## Where the rows are stored -/

/-- Where the keys are different, a look-up finds the row at the place of its key. -/
theorem lookup_zip_of_nodup {stored : List Text} {rows : List (List Text)} (h : stored.Nodup)
    {key : Text} {fields : List Text} (hmem : (key, fields) ∈ stored.zip rows) :
    (stored.zip rows).lookup key = some fields := by
  induction stored generalizing rows with
  | nil => cases hmem
  | cons s stored ih =>
      cases rows with
      | nil => cases hmem
      | cons first rows =>
          obtain ⟨hs, hrest⟩ := List.nodup_cons.1 h
          rw [List.zip_cons_cons] at hmem
          rw [List.zip_cons_cons, List.lookup_cons]
          rcases List.mem_cons.1 hmem with heq | hmem
          · cases heq
            simp
          · have hne : key ≠ s := fun heq => hs (heq ▸ (List.of_mem_zip hmem).1)
            have hbeq : (key == s) = false := by simp [hne]
            rw [hbeq]
            exact ih hrest hmem

/-! ## The lines that make a table -/

/-- The fields of a line that has as many of them as there are columns. -/
def rowFields? (columns : List Text) (line : Text) : Option (List Text) :=
  (fields? line).filter fun fields => fields.length == columns.length

/-- A row of a table that some fields make: its key is the first of them with underscores at its
end, and it holds, in each value column, the field in the last column of that name, and no more. -/
structure Holds (columns : List Text) (t : Table) (fields : List Text) (key : Text) : Prop where
  key_eq : ∃ n, key = underscored (keyOf fields) n
  get?_last : ∀ i column, 0 < i → columns[i]? = some column →
    (∀ j, i < j → columns[j]? ≠ some column) →
    ∃ value, fields[i]? = some value ∧ t.get? key column = some value
  get?_other : ∀ column, column ∉ columns.drop 1 → t.get? key column = none

/-- The table of a header and the lines after it: it has a row for each line with as many fields as
there are columns, all under different keys. -/
structure Accounts (columns : List Text) (late : List Text) (t : Table) : Prop where
  columns_eq : t.columns = columns
  size_eq : t.size = late.countP fun line => (rowFields? columns line).isSome
  rows : ∃ stored : List Text, stored.Nodup ∧ stored.Perm t.keys ∧
    List.Forall₂ (Holds columns t) (late.filterMap (rowFields? columns)) stored

section Header

variable {text head : Text} {early late : List Text} {columns : List Text}
  (hlines : Text.lines text = early ++ head :: late)
  (hearly : ∀ line ∈ early, (fields? line).getD [] = [])
  (hhead : fields? head = some columns) (hcolumns : columns ≠ [])

theorem recordsOf_eq_nil {lines : List Text} (h : ∀ line ∈ lines, (fields? line).getD [] = []) :
    recordsOf lines = [] := by
  rw [recordsOf, List.filter_eq_nil_iff]
  intro fields hfields
  obtain ⟨line, hline, hsome⟩ := List.mem_filterMap.1 hfields
  have hnil := h line hline
  rw [hsome] at hnil
  simpa using hnil

include hlines hearly hhead hcolumns

theorem records_eq : records text = columns :: recordsOf late := by
  have hcons : recordsOf (head :: late) = columns :: recordsOf late := by
    rw [recordsOf, List.filterMap_cons_some hhead, List.filter_cons_of_pos (by simpa using hcolumns)]
    rfl
  rw [records, hlines, recordsOf_append, recordsOf_eq_nil hearly, hcons]
  rfl

theorem header_eq : header text = columns := by
  rw [header, records_eq hlines hearly hhead hcolumns]
  rfl

/-- The data rows are the fields of the lines that have as many as the header. -/
theorem dataRows_eq : dataRows text = late.filterMap (rowFields? columns) := by
  rw [dataRows, header_eq hlines hearly hhead hcolumns, records_eq hlines hearly hhead hcolumns,
    List.tail_cons, recordsOf, List.filter_filter, List.filter_filterMap]
  refine List.filterMap_congr fun line _ => ?_
  rw [rowFields?]
  cases fields? line with
  | none => rfl
  | some fields =>
      -- as there are columns, a line with as many fields has some
      have hsome : (fields.length == columns.length && !fields.isEmpty) =
          (fields.length == columns.length) := by
        cases fields with
        | nil => simpa using Ne.symm (mt List.length_eq_zero_iff.1 hcolumns)
        | cons field fields => simp
      rw [Option.filter_some, Option.filter_some, hsome]

end Header

/-- The table of a text accounts for the lines after its header. -/
theorem accounts_ofText {text head : Text} {early late : List Text} {columns : List Text}
    (hlines : Text.lines text = early ++ head :: late)
    (hearly : ∀ line ∈ early, (fields? line).getD [] = []) (hhead : fields? head = some columns)
    (hcolumns : columns ≠ []) : Accounts columns late (ofText text) := by
  have hheader := header_eq hlines hearly hhead hcolumns
  have hdata := dataRows_eq hlines hearly hhead hcolumns
  obtain ⟨stored, hstored, hkeys, hget⟩ := get?_ofText_stored text
  have hlength : stored.length = (dataRows text).length := by
    rw [hstored.length_eq, List.length_map]
  refine ⟨(columns_ofText text).trans hheader, ?_, stored, hstored.nodup,
    hstored.perm_keys hkeys, ?_⟩
  · rw [size_ofText, hdata, List.length_filterMap_eq_countP]
  · rw [← hdata, List.forall₂_iff_zip]
    refine ⟨hlength.symm, fun {fields key} hmem => ?_⟩
    have hfields : fields.length = columns.length := by
      rw [← hheader]
      exact length_of_mem_dataRows (List.of_mem_zip hmem).1
    have hfound : ∀ column, (ofText text).get? key column = fieldAt? columns fields column := by
      intro column
      have hswap : (key, fields) ∈ stored.zip (dataRows text) := by
        rw [← List.zip_swap]
        exact List.mem_map.2 ⟨_, hmem, rfl⟩
      rw [hget, lookup_zip_of_nodup hstored.nodup hswap, Option.bind_some, hheader]
    refine ⟨?_, fun i column hi hcolumn hlast => ?_, fun column hcolumn => ?_⟩
    · have hpair : (keyOf fields, key) ∈ ((dataRows text).map keyOf).zip stored := by
        rw [List.zip_map_left]
        exact List.mem_map.2 ⟨_, hmem, rfl⟩
      exact hstored.underscored _ hpair
    · have hbound : i < fields.length := by
        rw [hfields]
        exact (List.getElem?_eq_some_iff.1 hcolumn).1
      have hvalue : fields[i]? = some fields[i] := List.getElem?_eq_getElem hbound
      refine ⟨fields[i], hvalue, ?_⟩
      rw [hfound, fieldAt?_eq hfields hi hcolumn hlast, hvalue]
    · rw [hfound, fieldAt?_eq_none hcolumn]

/-! ## The lines that add nothing -/

/-- A line adds nothing to the table of the lines before it: it is empty, its quotes are not closed,
or it has another number of fields than the header. -/
def AddsNothing (before : List Text) (line : Text) : Prop :=
  line = [] ∨ fields? line = none ∨
    ∃ columns fields, (recordsOf before).head? = some columns ∧ fields? line = some fields ∧
      fields.length ≠ columns.length

/-- A line that adds nothing can be left out, wherever it stands. -/
theorem ofText_of_addsNothing {text text' line : Text} {before after : List Text}
    (hlines : Text.lines text = before ++ line :: after)
    (hlines' : Text.lines text' = before ++ after) (h : AddsNothing before line) :
    ofText text = ofText text' := by
  have hrecords : records text = recordsOf before ++ (recordsOf [line] ++ recordsOf after) := by
    rw [records, hlines, recordsOf_append, ← List.singleton_append, recordsOf_append]
  have hrecords' : records text' = recordsOf before ++ recordsOf after := by
    rw [records, hlines', recordsOf_append]
  rw [ofText_eq, ofText_eq, dataRows, dataRows, header, header, hrecords, hrecords']
  rcases h with hnil | hnone | ⟨columns, fields, hbefore, hfields, hlength⟩
  · have hline : recordsOf [line] = [] := by simp [recordsOf, hnil, fields?]
    rw [hline]
    rfl
  · have hline : recordsOf [line] = [] := by simp [recordsOf, hnone]
    rw [hline]
    rfl
  · -- the header stands before the line, and its fields are no row under it
    obtain ⟨more, hmore⟩ := List.head?_eq_some_iff.1 hbefore
    have hskip : (recordsOf [line]).filter (fun fields => fields.length == columns.length) = [] := by
      simp [recordsOf, hfields, hlength]
    simp [hmore, List.filter_append, hskip]

/-! ## Keys -/

theorem mem_of_mem_addChar {c d : Char} {fields : List Text} {field : Text}
    (hfield : field ∈ addChar c fields) (hd : d ∈ field) : d = c ∨ ∃ field ∈ fields, d ∈ field := by
  cases fields with
  | nil =>
      obtain rfl : field = [c] := by simpa [addChar] using hfield
      exact Or.inl (List.mem_singleton.1 hd)
  | cons first rest =>
      rcases List.mem_cons.1 hfield with rfl | hfield
      · exact (List.mem_cons.1 hd).imp id fun hd => ⟨first, List.mem_cons_self, hd⟩
      · exact Or.inr ⟨field, List.mem_cons_of_mem _ hfield, hd⟩

/-- The fields of a line are made of its characters. -/
theorem mem_of_fieldsFrom {quoting : Quoting} {line : Text} {fields : List Text}
    (h : fieldsFrom quoting line = some fields) :
    ∀ field ∈ fields, ∀ c ∈ field, c ∈ line := by
  -- a character that is read goes to the first field
  have hread : ∀ {quoting : Quoting} {c : Char} {rest : Text} {fields : List Text},
      (∀ {fields}, fieldsFrom quoting rest = some fields → ∀ field ∈ fields, ∀ d ∈ field, d ∈ rest) →
      (fieldsFrom quoting rest).map (addChar c) = some fields →
      ∀ field ∈ fields, ∀ d ∈ field, d ∈ c :: rest := by
    intro quoting c rest fields ih h field hfield d hd
    obtain ⟨fields', hrest, rfl⟩ := Option.map_eq_some_iff.1 h
    rcases mem_of_mem_addChar hfield hd with rfl | ⟨field', hfield', hd⟩
    · exact List.mem_cons_self
    · exact List.mem_cons_of_mem _ (ih hrest field' hfield' d hd)
  fun_induction fieldsFrom quoting line generalizing fields with
  | case1 =>
      obtain rfl := Option.some.inj h
      simp
  | case2 => cases h
  | case3 => cases h
  | case4 rest ih => exact fun field hfield d hd => List.mem_cons_of_mem _ (ih h field hfield d hd)
  | case5 rest hquote ih =>
      obtain ⟨fields', hrest, rfl⟩ := Option.map_eq_some_iff.1 h
      refine List.forall_mem_cons.2 ⟨List.forall_mem_nil _, fun field hfield d hd => ?_⟩
      exact List.mem_cons_of_mem _ (ih hrest field hfield d hd)
  | case6 c rest hquote hcomma ih => exact hread ih h
  | case7 rest ih => exact fun field hfield d hd => List.mem_cons_of_mem _ (ih h field hfield d hd)
  | case8 rest hquote ih =>
      exact fun field hfield d hd => List.mem_cons_of_mem _ (ih h field hfield d hd)
  | case9 c rest hquote hescape ih => exact hread ih h
  | case10 c rest ih => exact hread ih h

theorem mem_of_fields? {line : Text} {fields : List Text} (h : fields? line = some fields) :
    ∀ field ∈ fields, ∀ c ∈ field, c ∈ line := by
  rw [fields?] at h
  split at h
  · obtain rfl := Option.some.inj h
    exact List.forall_mem_nil _
  · exact mem_of_fieldsFrom h

theorem exists_line_of_mem_dataRows {text : Text} {fields : List Text}
    (h : fields ∈ dataRows text) : ∃ line ∈ Text.lines text, fields? line = some fields := by
  have hrecord : fields ∈ records text := List.mem_of_mem_tail (List.mem_filter.1 h).1
  exact List.mem_filterMap.1 (List.mem_filter.1 hrecord).1

/-- No key in the table of a text has a line feed: it is a field of a line, with underscores. -/
theorem not_mem_of_mem_keys {text key : Text} (h : key ∈ (ofText text).keys) : '\n' ∉ key := by
  obtain ⟨stored, hstored, hkeys, -⟩ := get?_ofText_stored text
  have hlength : stored.length = ((dataRows text).map keyOf).length := hstored.length_eq
  have hmem : key ∈ stored := by
    rw [List.length_map] at hlength
    exact (isSome_lookup_zip_iff hlength key).1 ((hkeys key).1 h)
  rw [← List.map_snd_zip (Nat.le_of_eq hlength)] at hmem
  obtain ⟨⟨first, key⟩, hpair, rfl⟩ := List.mem_map.1 hmem
  obtain ⟨n, hkey⟩ := hstored.underscored _ hpair
  obtain rfl : key = underscored first n := hkey
  obtain ⟨fields, hfields, rfl⟩ := List.mem_map.1 (List.of_mem_zip hpair).1
  obtain ⟨line, hline, hread⟩ := exists_line_of_mem_dataRows hfields
  intro hfeed
  rcases List.mem_append.1 hfeed with hfeed | hfeed
  · cases fields with
    | nil => cases hfeed
    | cons field fields =>
        have hchar := mem_of_fields? hread field List.mem_cons_self _ hfeed
        exact Text.not_mem_of_mem_lines hline hchar
  · exact absurd (List.eq_of_mem_replicate hfeed) (by decide)

/-! ## The account of a text -/

/-- **Every line of a text.** The lines of a text are its pieces between line feeds, without one
carriage return before each of these. Without a line that gives fields, the table is empty.
Otherwise the first such line is the header, each later line with as many fields adds one row, and
these rows are the table. A line that is empty, whose quotes are not closed, or with another number
of fields than the header can be left out. Writing a carriage return before each line feed gives the
same table, if the text had none. -/
theorem ofText_accounts (text : Text) :
    (∃ ended last, Text.splitOn '\n' text = ended ++ [last] ∧
      Text.lines text = ended.map Text.dropReturn ++ if last = [] then [] else [last]) ∧
    ((∀ line ∈ Text.lines text, (fields? line).getD [] = []) → ofText text = ofColumns []) ∧
    (∀ early head late columns, Text.lines text = early ++ head :: late →
      (∀ line ∈ early, (fields? line).getD [] = []) → fields? head = some columns →
      columns ≠ [] → Accounts columns late (ofText text)) ∧
    (∀ text' before line after, Text.lines text = before ++ line :: after →
      Text.lines text' = before ++ after → AddsNothing before line → ofText text = ofText text') ∧
    ('\r' ∉ text → ofText (Text.withReturns text) = ofText text) := by
  refine ⟨Text.lines_eq_splitOn text, fun hnone => ?_, ?_, ?_, fun hreturn => ?_⟩
  · have hrecords : records text = [] := recordsOf_eq_nil hnone
    rw [ofText_eq, dataRows, header, hrecords]
    rfl
  · intro early head late columns hlines hearly hhead hcolumns
    exact accounts_ofText hlines hearly hhead hcolumns
  · intro text' before line after hlines hlines' hnothing
    exact ofText_of_addsNothing hlines hlines' hnothing
  · rw [ofText, ofText, parse, parse, Text.lines_withReturns hreturn]

/-- A header that comes late and names a column twice, a line that is no row, and two rows with one
first field. -/
theorem ofText_accounts_repeated :
    let text := "\n\"\nk,n,n\na,1,2\nb\na,3,4\n".toList
    let columns := ["k".toList, "n".toList, "n".toList]
    Accounts columns ["a,1,2".toList, "b".toList, "a,3,4".toList] (ofText text) ∧
      ofText text = ofText "\n\"\nk,n,n\na,1,2\na,3,4\n".toList ∧
      ofText (Text.withReturns text) = ofText text ∧
      ofText "\n\"".toList = ofColumns [] := by
  intro text columns
  obtain ⟨-, -, haccounts, hnothing, hreturns⟩ := ofText_accounts text
  obtain ⟨-, hnone, -⟩ := ofText_accounts "\n\"".toList
  refine ⟨?_, ?_, hreturns (by decide), hnone (by decide)⟩
  · exact haccounts [[], "\"".toList] "k,n,n".toList _ columns (by decide) (by decide) (by decide)
      (by decide)
  · refine hnothing _ [[], "\"".toList, "k,n,n".toList, "a,1,2".toList] "b".toList
      ["a,3,4".toList] (by decide) (by decide) ?_
    exact Or.inr (Or.inr ⟨columns, ["b".toList], by decide, by decide, by decide⟩)

end Unmangle.Table
