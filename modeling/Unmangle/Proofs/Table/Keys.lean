import Unmangle.Proofs.Table.Insertions
import Unmangle.Proofs.Table.Rows

set_option autoImplicit false

/-! # The keys of a table

A row whose key is taken is stored under the first free key among those with underscores at its
end. This module tells under which keys the rows of a text are stored (`Table.StoredUnder`) and
what a look-up gives: the fields of the row that is stored under the key
(`Table.get?_ofText_stored`).

A key with underscores at its end may itself be the first field of a row. Where an earlier row with
a repeated key has taken it, the look-up gives that row, and a key that no row has can be found in
the table. This happens only to keys that are a repeated first field with underscores at its end:

* `Table.get?_ofText_shadowed`: a look-up that gives the row of another key.
* `Table.get?_ofText`: the main statement, for all keys and for those to which this cannot happen.
-/

namespace Unmangle.Table

/-! ## Where the rows are stored -/

/-- A key is found if a row is stored under it, and only then. -/
theorem isSome_lookup_zip_iff {stored : List Text} {rows : List (List Text)}
    (hlength : stored.length = rows.length) (k : Text) :
    ((stored.zip rows).lookup k).isSome = true ↔ k ∈ stored := by
  cases hlookup : (stored.zip rows).lookup k with
  | none =>
      refine iff_of_false (by simp) fun hmem => ?_
      have hfirst : (stored.zip rows).map (·.1) = stored := List.map_fst_zip (Nat.le_of_eq hlength)
      rw [← hfirst] at hmem
      obtain ⟨pair, hpair, hk⟩ := List.mem_map.1 hmem
      have hne := List.lookup_eq_none_iff.1 hlookup pair hpair
      simp [hk] at hne
  | some fields =>
      exact iff_of_true rfl (List.of_mem_zip (Dict.mem_of_lookup hlookup)).1

/-- Data rows are added under their first fields. -/
theorem foldl_addRow_eq (t : Table) (rows : List (List Text)) :
    rows.foldl addRow t = (t.insertRows (rows.map fun fields =>
      (keyOf fields, rowOf t.valueColumns (fields.drop 1)))).2 := by
  induction rows generalizing t with
  | nil => rfl
  | cons fields rows ih => exact ih (t.addRow fields)

/-- **Adding rows.** The rows are stored one after another under the first free keys, and a look-up
gives the row that is stored under the key, or what was there before. -/
theorem foldl_addRow {t : Table} {taken : List Text}
    (htaken : ∀ k, k ∈ taken ↔ t.rows.contains k = true) (rows : List (List Text)) :
    ∃ stored, StoredUnder taken (rows.map keyOf) stored ∧
      ∀ k, (rows.foldl addRow t).rows.get? k =
        (((stored.zip rows).lookup k).map fun fields => rowOf t.valueColumns (fields.drop 1)).or
          (t.rows.get? k) := by
  have hadded := t.insertRows_insertions (rows.map fun fields =>
    (keyOf fields, rowOf t.valueColumns (fields.drop 1)))
  rw [← foldl_addRow_eq] at hadded
  generalize (t.insertRows _).1 = stored at hadded
  have hstored := hadded.storedUnder fun k => mem_keys_iff_contains.trans (htaken k).symm
  rw [List.map_map] at hstored
  refine ⟨stored, hstored, fun k => ?_⟩
  have hrows := hadded.get?_stored
  rw [List.forall₂_map_right_iff, List.forall₂_iff_zip] at hrows
  obtain ⟨hlength, hrows⟩ := hrows
  cases hlookup : (stored.zip rows).lookup k with
  | none =>
      have hk : k ∉ stored := by
        rw [← isSome_lookup_zip_iff hlength, hlookup]
        exact Bool.false_ne_true
      rw [hadded.get?_of_not_mem hk]
      rfl
  | some fields =>
      rw [hrows (Dict.mem_of_lookup hlookup)]
      rfl

theorem columns_ofText (text : Text) : (ofText text).columns = header text := by
  rw [ofText_eq, foldl_addRow_eq, (insertRows_insertions _ _).columns_eq]
  rfl

/-- No data row is lost. -/
theorem size_ofText (text : Text) : (ofText text).size = (dataRows text).length := by
  rw [ofText_eq, foldl_addRow_eq, (insertRows_insertions _ _).size_eq, List.length_map]
  exact Nat.zero_add _

/-- The rows of a text are those that its data rows make, each under the key where it is stored. -/
theorem rows_ofText (text : Text) :
    ∃ stored, StoredUnder [] ((dataRows text).map keyOf) stored ∧
      ∀ k, (ofText text).rows.get? k = ((stored.zip (dataRows text)).lookup k).map fun fields =>
        rowOf ((header text).drop 1) (fields.drop 1) := by
  have hempty : ∀ k, k ∈ [] ↔ (ofColumns (header text)).rows.contains k = true := by
    intro k
    exact iff_of_false List.not_mem_nil Bool.false_ne_true
  obtain ⟨stored, hstored, hget⟩ := foldl_addRow hempty (dataRows text)
  refine ⟨stored, hstored, fun k => ?_⟩
  have hnone : (ofColumns (header text)).rows.get? k = none := rfl
  rw [ofText_eq, hget, hnone, Option.or_none]
  rfl

/-- A look-up gives the field of the row that is stored under the key. -/
theorem get?_ofText_stored (text : Text) :
    ∃ stored, StoredUnder [] ((dataRows text).map keyOf) stored ∧
      (∀ k, k ∈ (ofText text).keys ↔ ((stored.zip (dataRows text)).lookup k).isSome = true) ∧
      ∀ k column, (ofText text).get? k column =
        ((stored.zip (dataRows text)).lookup k).bind fun fields =>
          fieldAt? (header text) fields column := by
  obtain ⟨stored, hstored, hrows⟩ := rows_ofText text
  refine ⟨stored, hstored, fun k => ?_, fun k column => ?_⟩
  · rw [keys, Dict.mem_keys_iff, ← Option.isSome_iff_exists, hrows, Option.isSome_map]
  · rw [get?, hrows, Option.bind_map]
    congr 1
    funext fields
    exact get?_rowOf (header text) fields column

/-- The keys of the table of a text are those under which its rows are stored. -/
theorem StoredUnder.perm_keys {text : Text} {stored : List Text}
    (h : StoredUnder [] ((dataRows text).map keyOf) stored)
    (hkeys : ∀ k, k ∈ (ofText text).keys ↔
      ((stored.zip (dataRows text)).lookup k).isSome = true) :
    stored.Perm (ofText text).keys := by
  have hlength : stored.length = (dataRows text).length := by
    rw [h.length_eq, List.length_map]
  refine (List.perm_ext_iff_of_nodup h.nodup (ofText text).rows.nodup_keys).2 fun k => ?_
  exact (isSome_lookup_zip_iff hlength k).symm.trans (hkeys k).symm

/-! ## Keys of rows -/

/-- A key that is the first field of a row is in the table. -/
theorem StoredUnder.mem_of_key {taken keys stored : List Text} (h : StoredUnder taken keys stored)
    {k : Text} (hk : k ∈ keys) : k ∈ stored ∨ k ∈ taken := by
  induction h using StoredUnder.induction with
  | nil => cases hk
  | cons taken key keys s more hfirst _ ih =>
      obtain ⟨n, hs, -, hbefore⟩ := hfirst
      rcases List.mem_cons.1 hk with rfl | hk
      · -- the row has its own key, unless that was taken before
        cases n with
        | zero =>
            rw [underscored_zero] at hs
            exact Or.inl (hs ▸ List.mem_cons_self)
        | succ n =>
            have htaken := hbefore 0 (Nat.succ_pos n)
            rw [underscored_zero] at htaken
            exact Or.inr htaken
      · rcases ih hk with hin | hin
        · exact Or.inl (List.mem_cons_of_mem _ hin)
        · rcases List.mem_cons.1 hin with rfl | hin
          · exact Or.inl List.mem_cons_self
          · exact Or.inr hin

/-- A key is one of some first fields that is repeated there, with underscores at its end. -/
def Repeated (keys : List Text) (k : Text) : Prop :=
  ∃ key n, 2 ≤ keys.count key ∧ k = underscored key (n + 1)

/-- A row that is not stored under its own key is stored under a repeated one with underscores:
by induction on the rows, with the pairs of the rows that are done. -/
theorem StoredUnder.repeated {all keys stored : List Text} {done : List (Text × Text)}
    (hall : (done.map (·.1) ++ keys).Perm all)
    (hdone : ∀ pair ∈ done, pair.2 = pair.1 ∨ Repeated all pair.2)
    (h : StoredUnder (done.map (·.2)) keys stored) :
    ∀ pair ∈ keys.zip stored, pair.2 = pair.1 ∨ Repeated all pair.2 := by
  induction keys generalizing done stored with
  | nil => exact List.forall_mem_nil _
  | cons key keys ih =>
      cases stored with
      | nil => exact h.elim
      | cons s more =>
          obtain ⟨⟨n, hs, -, hbefore⟩, hmore⟩ := h
          have hfirst : s = key ∨ Repeated all s := by
            cases n with
            | zero =>
                rw [underscored_zero] at hs
                exact Or.inl hs
            | succ n =>
                -- the key itself is taken, by a row that is done
                have htaken := hbefore 0 (Nat.succ_pos n)
                rw [underscored_zero] at htaken
                obtain ⟨pair, hpair, hkey⟩ := List.mem_map.1 htaken
                refine Or.inr ?_
                rcases hdone pair hpair with hown | ⟨key', k, hcount, hrep⟩
                · refine ⟨key, n, ?_, hs⟩
                  have hmem : key ∈ done.map (·.1) :=
                    List.mem_map.2 ⟨pair, hpair, hown.symm.trans hkey⟩
                  have hpos : 0 < (done.map (·.1)).count key := List.count_pos_iff.2 hmem
                  rw [← hall.count_eq, List.count_append, List.count_cons_self]
                  omega
                · refine ⟨key', k + (n + 1), hcount, ?_⟩
                  rw [hs, ← hkey, hrep, underscored_add]
                  congr 1
                  omega
          have hall' : (((key, s) :: done).map (·.1) ++ keys).Perm all :=
            List.perm_middle.symm.trans hall
          have hdone' : ∀ pair ∈ (key, s) :: done, pair.2 = pair.1 ∨ Repeated all pair.2 :=
            List.forall_mem_cons.2 ⟨hfirst, hdone⟩
          rw [List.zip_cons_cons]
          exact List.forall_mem_cons.2 ⟨hfirst, ih hall' hdone' hmore⟩

/-- Every row that is stored under a key that is not a repeated one with underscores has it as its
first field. -/
theorem StoredUnder.own {keys stored : List Text} (h : StoredUnder [] keys stored) {k : Text}
    (hnot : ¬ Repeated keys k) : ∀ pair ∈ keys.zip stored, pair.2 = k → pair.1 = k := by
  intro pair hpair hk
  have horigin := @StoredUnder.repeated _ _ stored [] (List.Perm.refl _) (List.forall_mem_nil _)
    h pair hpair
  rw [hk] at horigin
  exact (horigin.resolve_right hnot).symm

theorem StoredUnder.mem_iff {keys stored : List Text} (h : StoredUnder [] keys stored) {k : Text}
    (hnot : ¬ Repeated keys k) : k ∈ stored ↔ k ∈ keys := by
  refine ⟨fun hmem => ?_, fun hmem => (h.mem_of_key hmem).resolve_right List.not_mem_nil⟩
  have hsecond : (keys.zip stored).map (·.2) = stored :=
    List.map_snd_zip (Nat.le_of_eq h.length_eq)
  rw [← hsecond] at hmem
  obtain ⟨pair, hpair, hk⟩ := List.mem_map.1 hmem
  have hkey : pair.1 = k := h.own hnot pair hpair hk
  exact hkey ▸ (List.of_mem_zip hpair).1

/-- Where only rows with this first field are stored under a key, the first of them is. -/
theorem StoredUnder.lookup_eq_find? {taken stored : List Text} {rows : List (List Text)}
    (h : StoredUnder taken (rows.map keyOf) stored) {k : Text} (hk : k ∉ taken)
    (hown : ∀ pair ∈ (rows.map keyOf).zip stored, pair.2 = k → pair.1 = k) :
    (stored.zip rows).lookup k = rows.find? (keyOf · == k) := by
  induction rows generalizing taken stored with
  | nil =>
      cases stored with
      | nil => rfl
      | cons s more => exact h.elim
  | cons fields rows ih =>
      cases stored with
      | nil => exact h.elim
      | cons s more =>
          obtain ⟨⟨n, hs, -, hbefore⟩, hmore⟩ := h
          rw [List.map_cons, List.zip_cons_cons, List.forall_mem_cons] at hown
          rw [List.zip_cons_cons, List.lookup_cons, List.find?_cons]
          by_cases hkey : keyOf fields = k
          · -- the key is free, so the row is stored without underscores
            have hzero : n = 0 := by
              by_contra hne
              have htaken := hbefore 0 (by omega)
              rw [underscored_zero, hkey] at htaken
              exact hk htaken
            rw [hzero, underscored_zero, hkey] at hs
            simp [hs, hkey]
          · have hne : k ≠ s := fun heq => hkey (hown.1 heq.symm)
            have hfree : k ∉ s :: taken := by simp [hne, hk]
            have hstored : (k == s) = false := by simp [hne]
            have hfirst : (keyOf fields == k) = false := by simp [hkey]
            rw [ih hmore hfree hown.2, hstored, hfirst]

/-! ## Look-ups in the table of a text -/

/-- Where no first field is repeated, a row is the only one with its first field. -/
theorem find?_keyOf {rows : List (List Text)} (hnodup : (rows.map keyOf).Nodup)
    {fields : List Text} (h : fields ∈ rows) :
    rows.find? (keyOf · == keyOf fields) = some fields := by
  cases hfind : rows.find? (keyOf · == keyOf fields) with
  | none =>
      have hnone := List.find?_eq_none.1 hfind fields h
      simp at hnone
  | some other =>
      have hkey : keyOf other = keyOf fields := by simpa using List.find?_some hfind
      rw [List.inj_on_of_nodup_map hnodup (List.mem_of_find?_eq_some hfind) h hkey]

section OwnKeys

variable {text : Text} (hnodup : ((dataRows text).map keyOf).Nodup)

include hnodup

/-- Where no first field is repeated, every row is stored under its own. -/
theorem rows_ofText_of_nodup (k : Text) :
    (ofText text).rows.get? k = ((dataRows text).find? (keyOf · == k)).map fun fields =>
      rowOf ((header text).drop 1) (fields.drop 1) := by
  obtain ⟨stored, hstored, hget⟩ := rows_ofText text
  have hnot : ¬ Repeated ((dataRows text).map keyOf) k := by
    rintro ⟨key, n, hcount, -⟩
    have honce := List.nodup_iff_count_le_one.1 hnodup key
    omega
  rw [hget, hstored.lookup_eq_find? List.not_mem_nil (hstored.own hnot)]

theorem mem_keys_ofText_of_nodup {k : Text} :
    k ∈ (ofText text).keys ↔ k ∈ (dataRows text).map keyOf := by
  rw [keys, Dict.mem_keys_iff, ← Option.isSome_iff_exists, rows_ofText_of_nodup hnodup,
    Option.isSome_map, List.find?_isSome, List.mem_map]
  simp

theorem get?_ofText_of_nodup {fields : List Text} (h : fields ∈ dataRows text) (column : Text) :
    (ofText text).get? (keyOf fields) column = fieldAt? (header text) fields column := by
  rw [get?, rows_ofText_of_nodup hnodup, find?_keyOf hnodup h, Option.map_some, Option.bind_some,
    get?_rowOf]

end OwnKeys

/-- Every stored row has a field in every value column. -/
theorem isSome_bind_fieldAt? {text k column : Text} {stored : List Text}
    (hcolumn : column ∈ (header text).drop 1) :
    (((stored.zip (dataRows text)).lookup k).bind fun fields =>
        fieldAt? (header text) fields column).isSome =
      ((stored.zip (dataRows text)).lookup k).isSome := by
  cases hlookup : (stored.zip (dataRows text)).lookup k with
  | none => rfl
  | some fields =>
      have hfields := (List.of_mem_zip (Dict.mem_of_lookup hlookup)).2
      exact isSome_fieldAt? (length_of_mem_dataRows hfields) hcolumn

/-- The look-up of a key in a column gives the field of the first data row with this first field. -/
def ReadsFirstRow (text k column : Text) : Prop :=
  (ofText text).get? k column =
    ((dataRows text).find? (keyOf · == k)).bind fun fields => fieldAt? (header text) fields column

instance (text k column : Text) : Decidable (ReadsFirstRow text k column) :=
  inferInstanceAs (Decidable (_ = _))

/-- A key that one row has and another row has taken: the look-up gives the other row. The key that
the former row got instead is one that no row has, and it is found all the same. -/
theorem get?_ofText_shadowed :
    let text := "searge,name\na,x\na,y\na_,z\n".toList
    "name".toList ∈ (header text).drop 1 ∧
      dataRows text = [["a".toList, "x".toList], ["a".toList, "y".toList],
        ["a_".toList, "z".toList]] ∧
      (ofText text).get? "a_".toList "name".toList = some "y".toList ∧
      ¬ ReadsFirstRow text "a_".toList "name".toList ∧
      (ofText text).get? "a__".toList "name".toList = some "z".toList ∧
      ¬ ReadsFirstRow text "a__".toList "name".toList := by
  decide +kernel

/-- **Look-ups.** The data rows of a text are stored one after another, each under its first field
with the least number of underscores for which no earlier row is stored there; a look-up in a value
column gives the field of the row that is stored under the key, so it gives a field exactly when
there is such a row. Every first field of a data row is found. For every key that is not a repeated
first field with underscores at its end, the look-up gives a field exactly when a data row has the
key as its first field, and then it is the field of the first such row. -/
theorem get?_ofText (text : Text) :
    ∃ stored, StoredUnder [] ((dataRows text).map keyOf) stored ∧
      ∀ k, ∀ column ∈ (header text).drop 1,
        ((ofText text).get? k column =
          ((stored.zip (dataRows text)).lookup k).bind fun fields =>
            fieldAt? (header text) fields column) ∧
        (((ofText text).get? k column).isSome = true ↔ k ∈ stored) ∧
        ((∃ fields ∈ dataRows text, keyOf fields = k) →
          ((ofText text).get? k column).isSome = true) ∧
        (¬ Repeated ((dataRows text).map keyOf) k →
          ReadsFirstRow text k column ∧
          (((ofText text).get? k column).isSome = true ↔
            ∃ fields ∈ dataRows text, keyOf fields = k)) := by
  obtain ⟨stored, hstored, -, hget⟩ := get?_ofText_stored text
  refine ⟨stored, hstored, fun k column hcolumn => ?_⟩
  have hlength : stored.length = (dataRows text).length := by
    rw [hstored.length_eq, List.length_map]
  have hsome : ((ofText text).get? k column).isSome = true ↔ k ∈ stored := by
    rw [hget, isSome_bind_fieldAt? hcolumn]
    exact isSome_lookup_zip_iff hlength k
  have hkeys : (∃ fields ∈ dataRows text, keyOf fields = k) ↔ k ∈ (dataRows text).map keyOf :=
    List.mem_map.symm
  refine ⟨hget k column, hsome, fun h => ?_, fun hnot => ⟨?_, ?_⟩⟩
  · exact hsome.2 ((hstored.mem_of_key (hkeys.1 h)).resolve_right List.not_mem_nil)
  · rw [ReadsFirstRow, hget, hstored.lookup_eq_find? List.not_mem_nil (hstored.own hnot)]
  · rw [hsome, hkeys, hstored.mem_iff hnot]

/-- Keys that end in underscores and are no repeated first field with underscores at its end. -/
theorem get?_ofText_underscores :
    let text := "searge,name\na_,x\na,y\na_,z\n".toList
    ¬ Repeated ((dataRows text).map keyOf) "a_".toList ∧
      ReadsFirstRow text "a_".toList "name".toList ∧
      ((ofText text).get? "a".toList "name".toList).isSome = true := by
  intro text
  have hrows : (dataRows text).map keyOf = ["a_".toList, "a".toList, "a_".toList] := by
    decide +kernel
  have hnot : ¬ Repeated ((dataRows text).map keyOf) "a_".toList := by
    rw [hrows]
    rintro ⟨key, n, hcount, hkey⟩
    have hlength := congrArg List.length hkey
    rw [underscored, List.length_append, List.length_replicate] at hlength
    -- the only row key that is short enough stands there once
    have hmem : key ∈ ["a_".toList, "a".toList, "a_".toList] :=
      List.count_pos_iff.1 (Nat.lt_of_lt_of_le Nat.zero_lt_two hcount)
    simp only [List.mem_cons, List.not_mem_nil, or_false] at hmem
    rcases hmem with rfl | rfl | rfl
    · omega
    · exact absurd hcount (by decide)
    · omega
  have hcolumn : "name".toList ∈ (header text).drop 1 := by decide +kernel
  obtain ⟨stored, -, hlookups⟩ := get?_ofText text
  obtain ⟨-, -, hfound, -⟩ := hlookups "a".toList _ hcolumn
  obtain ⟨-, -, -, hfirst⟩ := hlookups "a_".toList _ hcolumn
  exact ⟨hnot, (hfirst hnot).1, hfound (by decide +kernel)⟩

end Unmangle.Table
