import Unmangle.Proofs.Table.Lines

set_option autoImplicit false

/-! # What a dump says

A dump has no signs of its own: a key stands after one tab, the name of a column and a value after
two, and keys, names and values may start with tabs too. A dump can be read all the same, since
every row of a table that was read from a text has a value in every value column, and no line feed
in it. So each row takes the same number of lines.

* `Table.Shown.dump_eq`, `Table.Shown.splitOn_dump`: the lines of a dump.
* `blocks_inj`: blocks of one length, each after its head, can be told apart.
* `Table.dump_lossless`: what the dump of the table of a text lists, and that it loses nothing.
-/

namespace Unmangle

/-! ## Order and equality of dictionaries -/

/-- Texts in the order of the keys of a dictionary are in the order of their characters. -/
theorem Text.lex_of_compare {a b : Text} (h : compare a b = .lt) : List.Lex (· < ·) a b := by
  induction a generalizing b with
  | nil =>
      cases b with
      | nil => cases h
      | cons => exact List.Lex.nil
  | cons c a ih =>
      cases b with
      | nil => cases h
      | cons d b =>
          have hcons : compare (c :: a) (d :: b) = (compare c d).then (compare a b) :=
            List.compareLex_cons_cons
          rw [hcons, Ordering.then_eq_lt] at h
          rcases h with hlt | ⟨heq, hlt⟩
          · exact List.Lex.rel (compareOfLessAndEq_eq_lt.1 hlt)
          · obtain rfl : c = d := Std.LawfulEqOrd.eq_of_compare heq
            exact List.Lex.cons (ih hlt)

namespace Dict

variable {κ α : Type} [Ord κ] [Std.LawfulEqOrd κ] [Std.TransOrd κ]

/-- A dictionary is determined by its look-ups. -/
theorem ext_get? {d e : Dict κ α} (h : ∀ k, d.get? k = e.get? k) : d = e := by
  have hmem : ∀ x, x ∈ d.entries ↔ x ∈ e.entries := by
    intro x
    have hget := get?_eq_some_iff (d := d) (k := x.1) (v := x.2)
    rw [← hget, h, get?_eq_some_iff]
  have hnodup : ∀ d : Dict κ α, d.entries.Nodup := fun d => d.nodup_keys.of_map _
  have hperm : d.entries.Perm e.entries :=
    (List.perm_ext_iff_of_nodup (hnodup d) (hnodup e)).2 hmem
  have hentries : d.entries = e.entries := by
    refine hperm.eq_of_pairwise (fun a b _ _ hab hba => ?_) d.ascending e.ascending
    rw [Std.OrientedCmp.gt_iff_lt.2 hab] at hba
    cases hba
  cases d
  cases e
  congr

end Dict

/-! ## Lines and blocks -/

/-- A text in which every line is ended by a line feed has these lines as its pieces, and an empty
one at the end. -/
theorem Text.splitOn_ended {lines : List Text} (h : ∀ line ∈ lines, '\n' ∉ line) :
    splitOn '\n' (lines.flatMap (· ++ ['\n'])) = lines ++ [[]] := by
  induction lines with
  | nil => rfl
  | cons line lines ih =>
      obtain ⟨hline, hlines⟩ := List.forall_mem_cons.1 h
      rw [List.flatMap_cons, List.append_assoc, List.singleton_append, splitOn_append,
        splitOn_of_not_mem hline, ih hlines]
      rfl

/-- Blocks of one length, each after a head that tells what the block is about, can be told apart:
by induction on what they are about. -/
theorem blocks_inj {head : Text → Text} (hhead : Function.Injective head) {length : Nat}
    (block block' : Text → List Text) (hblock : ∀ x, (block x).length = length)
    (hblock' : ∀ x, (block' x).length = length) {xs ys : List Text}
    (h : (xs.flatMap fun x => head x :: block x) = ys.flatMap fun y => head y :: block' y) :
    xs = ys ∧ ∀ x ∈ xs, block x = block' x := by
  induction xs generalizing ys with
  | nil =>
      cases ys with
      | nil => exact ⟨rfl, List.forall_mem_nil _⟩
      | cons y ys => cases h
  | cons x xs ih =>
      cases ys with
      | nil => cases h
      | cons y ys =>
          rw [List.flatMap_cons, List.flatMap_cons, List.cons_append, List.cons_append] at h
          obtain ⟨hfirst, hrest⟩ := List.cons.inj h
          obtain rfl : x = y := hhead hfirst
          obtain ⟨hsame, hmore⟩ := List.append_inj hrest ((hblock x).trans (hblock' x).symm)
          obtain ⟨rfl, hblocks⟩ := ih hmore
          exact ⟨rfl, List.forall_mem_cons.2 ⟨hsame, hblocks⟩⟩

namespace Table

/-- The value of a key in a column, or the empty text. -/
def valueAt (t : Table) (key column : Text) : Text := (t.get? key column).getD []

/-- The lines about one column in a dump, for values under the names of columns. -/
def columnLines (value : Text → Text) (column : Text) : List Text :=
  ["\t\t".toList ++ column, "\t\t".toList ++ value column]

/-- The lines of a dump, for the values of keys in columns. -/
def dumpLines (keys columns : List Text) (value : Text → Text → Text) : List Text :=
  keys.flatMap fun key => ('\t' :: key) :: columns.flatMap (columnLines (value key))

/-- A dump shows all of a table: every row has a value in each value column and in no other one, and
what is shown has no line feed. -/
structure Shown (t : Table) : Prop where
  isSome_get? : ∀ key ∈ t.keys, ∀ column ∈ t.valueColumns, (t.get? key column).isSome = true
  get?_other : ∀ key column, column ∉ t.valueColumns → t.get? key column = none
  not_mem_line : ∀ line ∈ dumpLines t.keys t.valueColumns t.valueAt, '\n' ∉ line

theorem length_columnLines (value : Text → Text) (columns : List Text) :
    (columns.flatMap (columnLines value)).length = 2 * columns.length := by
  induction columns with
  | nil => rfl
  | cons column columns ih =>
      rw [List.flatMap_cons, List.length_append, ih, List.length_cons]
      show 2 + _ = _
      omega

/-- The lines about some columns tell the values. -/
theorem columnLines_inj {value value' : Text → Text} {columns : List Text}
    (h : columns.flatMap (columnLines value) = columns.flatMap (columnLines value')) :
    ∀ column ∈ columns, value column = value' column := by
  have htabs : Function.Injective ("\t\t".toList ++ ·) := fun _ _ => List.append_cancel_left
  obtain ⟨-, hvalues⟩ := blocks_inj htabs (fun column => ["\t\t".toList ++ value column])
    (fun column => ["\t\t".toList ++ value' column]) (fun _ => rfl) (fun _ => rfl) h
  intro column hcolumn
  exact htabs (List.singleton_inj.1 (hvalues column hcolumn))

/-- The lines of a dump tell the keys, and their values in the columns. -/
theorem dumpLines_inj {keys keys' columns : List Text} {value value' : Text → Text → Text}
    (h : dumpLines keys columns value = dumpLines keys' columns value') :
    keys = keys' ∧ ∀ key ∈ keys, ∀ column ∈ columns, value key column = value' key column := by
  have htab : Function.Injective ('\t' :: · : Text → Text) := fun _ _ heq => (List.cons.inj heq).2
  obtain ⟨hkeys, hblocks⟩ := blocks_inj htab (fun key => columns.flatMap (columnLines (value key)))
    (fun key => columns.flatMap (columnLines (value' key)))
    (fun key => length_columnLines (value key) columns)
    (fun key => length_columnLines (value' key) columns) h
  exact ⟨hkeys, fun key hkey => columnLines_inj (hblocks key hkey)⟩

/-- A table is determined by its columns, its keys and what look-ups give. -/
theorem ext_get? {t u : Table} (hcolumns : t.columns = u.columns) (hkeys : t.keys = u.keys)
    (hget : ∀ key ∈ t.keys, ∀ column, t.get? key column = u.get? key column) : t = u := by
  have hrows : t.rows = u.rows := by
    refine Dict.ext_get? fun key => ?_
    cases hrow : t.rows.get? key with
    | none =>
        have hkey : key ∉ u.keys := by
          rw [← hkeys, keys, Dict.mem_keys_iff, hrow]
          simp
        cases hrow' : u.rows.get? key with
        | none => rfl
        | some row' => exact absurd (Dict.mem_keys_iff.2 ⟨row', hrow'⟩) hkey
    | some row =>
        have hkey : key ∈ t.keys := Dict.mem_keys_iff.2 ⟨row, hrow⟩
        have hkey' : key ∈ u.keys := hkeys ▸ hkey
        obtain ⟨row', hrow'⟩ := Dict.mem_keys_iff.1 hkey'
        have hsame : row = row' := by
          refine Dict.ext_get? fun column => ?_
          rw [← get?_of_row hrow, ← get?_of_row hrow', hget key hkey]
        rw [hrow', hsame]
  cases t
  cases u
  congr

namespace Shown

variable {t u : Table}

theorem get?_eq (h : t.Shown) {key column : Text} (hkey : key ∈ t.keys)
    (hcolumn : column ∈ t.valueColumns) : t.get? key column = some (t.valueAt key column) := by
  obtain ⟨value, hvalue⟩ := Option.isSome_iff_exists.1 (h.isSome_get? key hkey column hcolumn)
  rw [valueAt, hvalue, Option.getD_some]

/-- A dump has its lines, each ended by a line feed. -/
theorem dump_eq (h : t.Shown) :
    t.dump = (dumpLines t.keys t.valueColumns t.valueAt).flatMap (· ++ ['\n']) := by
  unfold dump dumpLines keys Dict.keys
  rw [List.flatMap_assoc, List.flatMap_map]
  refine List.flatMap_congr fun e he => ?_
  have hrow : t.rows.get? e.1 = some e.2 := Dict.get?_eq_some_iff.2 he
  have hkey : e.1 ∈ t.keys := List.mem_map.2 ⟨e, he, rfl⟩
  have hcolumns : dumpRow t.valueColumns e.2 =
      (t.valueColumns.flatMap (columnLines (t.valueAt e.1))).flatMap (· ++ ['\n']) := by
    unfold dumpRow
    rw [List.flatMap_assoc]
    refine List.flatMap_congr fun column hcolumn => ?_
    rw [← get?_of_row hrow, h.get?_eq hkey hcolumn]
    simp [columnLines]
  show '\t' :: e.1 ++ '\n' :: dumpRow t.valueColumns e.2 = _
  rw [hcolumns]
  simp

theorem splitOn_dump (h : t.Shown) :
    Text.splitOn '\n' t.dump = dumpLines t.keys t.valueColumns t.valueAt ++ [[]] := by
  rw [h.dump_eq, Text.splitOn_ended h.not_mem_line]

/-- Two tables with the same columns that are shown by the same dump are equal. -/
theorem eq_of_dump (h : t.Shown) (k : u.Shown) (hcolumns : t.columns = u.columns)
    (hdump : t.dump = u.dump) : t = u := by
  have hvalueColumns : t.valueColumns = u.valueColumns := by rw [valueColumns, hcolumns, valueColumns]
  have hlines : dumpLines t.keys t.valueColumns t.valueAt =
      dumpLines u.keys t.valueColumns u.valueAt := by
    have hsplit := congrArg (Text.splitOn '\n') hdump
    rw [h.splitOn_dump, k.splitOn_dump, ← hvalueColumns] at hsplit
    exact List.append_cancel_right hsplit
  obtain ⟨hkeys, hvalues⟩ := dumpLines_inj hlines
  refine ext_get? hcolumns hkeys fun key hkey column => ?_
  by_cases hcolumn : column ∈ t.valueColumns
  · rw [h.get?_eq hkey hcolumn, k.get?_eq (hkeys ▸ hkey) (hvalueColumns ▸ hcolumn),
      hvalues key hkey column hcolumn]
  · rw [h.get?_other key column hcolumn, k.get?_other key column (hvalueColumns ▸ hcolumn)]

end Shown

/-! ## Tables of texts -/

variable {text : Text}

theorem valueColumns_ofText (text : Text) : (ofText text).valueColumns = (header text).drop 1 := by
  rw [valueColumns, columns_ofText]

/-- The fields of a record are made of the characters of a line. -/
theorem not_mem_of_mem_records {fields : List Text} (h : fields ∈ records text) :
    ∀ field ∈ fields, '\n' ∉ field := by
  intro field hfield hfeed
  obtain ⟨line, hline, hread⟩ := List.mem_filterMap.1 (List.mem_filter.1 h).1
  exact Text.not_mem_of_mem_lines hline (mem_of_fields? hread field hfield _ hfeed)

theorem not_mem_of_mem_header : ∀ column ∈ header text, '\n' ∉ column := by
  intro column hcolumn
  cases hrecords : records text with
  | nil =>
      rw [header, hrecords] at hcolumn
      cases hcolumn
  | cons columns rest =>
      rw [header, hrecords] at hcolumn
      exact not_mem_of_mem_records (hrecords ▸ List.mem_cons_self) column hcolumn

theorem mem_of_fieldAt? {columns fields : List Text} {column value : Text}
    (h : fieldAt? columns fields column = some value) : value ∈ fields := by
  have hpair := List.mem_reverse.1 (Dict.mem_of_lookup h)
  exact List.mem_of_mem_drop (List.of_mem_zip hpair).2

theorem not_mem_of_get? {key column value : Text}
    (h : (ofText text).get? key column = some value) : '\n' ∉ value := by
  obtain ⟨stored, -, -, hget⟩ := get?_ofText_stored text
  rw [hget, Option.bind_eq_some_iff] at h
  obtain ⟨fields, hlookup, hvalue⟩ := h
  have hfields := (List.of_mem_zip (Dict.mem_of_lookup hlookup)).2
  have hrecord : fields ∈ records text := List.mem_of_mem_tail (List.mem_filter.1 hfields).1
  exact not_mem_of_mem_records hrecord value (mem_of_fieldAt? hvalue)

/-- A dump shows all of the table of a text. -/
theorem ofText_shown (text : Text) : (ofText text).Shown := by
  obtain ⟨stored, -, hkeys, hget⟩ := get?_ofText_stored text
  have hsome : ∀ key ∈ (ofText text).keys, ∀ column ∈ (ofText text).valueColumns,
      ((ofText text).get? key column).isSome = true := by
    intro key hkey column hcolumn
    rw [valueColumns_ofText] at hcolumn
    rw [hget, isSome_bind_fieldAt? hcolumn]
    exact (hkeys key).1 hkey
  refine ⟨hsome, fun key column hcolumn => ?_, fun line hline => ?_⟩
  · rw [valueColumns_ofText] at hcolumn
    rw [hget]
    cases (stored.zip (dataRows text)).lookup key with
    | none => rfl
    | some fields => exact fieldAt?_eq_none hcolumn
  · obtain ⟨key, hkey, hline⟩ := List.mem_flatMap.1 hline
    rcases List.mem_cons.1 hline with rfl | hline
    · simpa using not_mem_of_mem_keys hkey
    obtain ⟨column, hcolumn, hline⟩ := List.mem_flatMap.1 hline
    have hname : '\n' ∉ column := by
      rw [valueColumns_ofText] at hcolumn
      exact not_mem_of_mem_header column (List.mem_of_mem_drop hcolumn)
    have hvalue : '\n' ∉ (ofText text).valueAt key column := by
      obtain ⟨value, hvalue⟩ := Option.isSome_iff_exists.1 (hsome key hkey column hcolumn)
      rw [valueAt, hvalue]
      exact not_mem_of_get? hvalue
    simp only [columnLines, List.mem_cons, List.not_mem_nil, or_false] at hline
    rcases hline with rfl | rfl
    · simpa using hname
    · simpa using hvalue

/-- **Dumps lose nothing.** The dump of the table of a text lists the keys under which rows are
stored, each once and in ascending order. Each key is followed by the name of each value column, in
the order of the header, and the value of its row there. So two tables of texts with the same
columns have the same dump exactly if they are equal. -/
theorem dump_lossless (text : Text) :
    let t := ofText text
    t.keys.Pairwise (List.Lex (· < ·)) ∧
    (∃ stored, StoredUnder [] ((dataRows text).map keyOf) stored ∧ stored.Perm t.keys) ∧
    (∃ value : Text → Text → Text,
      (∀ key ∈ t.keys, ∀ column ∈ t.valueColumns,
        t.get? key column = some (value key column)) ∧
      Text.splitOn '\n' t.dump =
        (t.keys.flatMap fun key => ('\t' :: key) :: t.valueColumns.flatMap fun column =>
          ["\t\t".toList ++ column, "\t\t".toList ++ value key column]) ++ [[]]) ∧
    ∀ text', (ofText text').columns = t.columns →
      ((ofText text').dump = t.dump ↔ ofText text' = t) := by
  intro t
  have h : t.Shown := ofText_shown text
  obtain ⟨stored, hstored, hkeys, -⟩ := get?_ofText_stored text
  refine ⟨?_, ⟨stored, hstored, hstored.perm_keys hkeys⟩,
    ⟨t.valueAt, fun key hkey column hcolumn => h.get?_eq hkey hcolumn, h.splitOn_dump⟩,
    fun text' hcolumns => ⟨(ofText_shown text').eq_of_dump h hcolumns, fun heq => by rw [heq]⟩⟩
  exact List.pairwise_map.2 (t.rows.ascending.imp Text.lex_of_compare)

/-- Keys, names and values that are empty, start with tabs or have carriage returns in them, and the
same rows in another order. -/
theorem dump_lossless_tabs :
    let text := "k,\tn,\n\ta,\t\t,x\n,,\na\rb,\r,\n".toList
    let text' := "k,\tn,\na\rb,\r,\n,,\n\ta,\t\t,x\n".toList
    (ofText text).keys = [[], "\ta".toList, "a\rb".toList] ∧
    (ofText text).dump = ("\t\n\t\t\tn\n\t\t\n\t\t\n\t\t\n" ++
      "\t\ta\n\t\t\tn\n\t\t\t\t\n\t\t\n\t\tx\n" ++
      "\ta\rb\n\t\t\tn\n\t\t\r\n\t\t\n\t\t\n").toList ∧
    ofText text' = ofText text := by
  intro text text'
  obtain ⟨-, -, -, hsame⟩ := dump_lossless text
  exact ⟨by decide +kernel, by decide +kernel,
    (hsame text' (by decide +kernel)).1 (by decide +kernel)⟩

end Table

end Unmangle
