import Unmangle.Proofs.Decode.Separators

set_option autoImplicit false

/-! # The mapping of a column

Which keys a mapping of a text has is decided in three places: the reader of tables stores the rows
and gives each of them the fields under the names of the columns, the look-up of a column leaves out
rows, and empty fields are dropped before the pattern is made. Together they give the keys whose row
has a field that is not empty in the last column of the name (`Mapping.ReadsColumn`), both to the
replacements and to the pattern. So nothing is replaced by an empty text, and a key with an empty
field is never matched, whatever its prefixes are.

* `Table.get?_ofText_last`: a look-up in the table of a text.
* `Mapping.ofTable_readsColumn`: the main statement.
-/

namespace Unmangle

/-! ## The last column of a name -/

namespace Table

variable {columns : List Text} {column : Text} {i j : Nat}

/-- A value column has a name, and no column after it has the same. -/
structure IsLastColumn (columns : List Text) (column : Text) (i : Nat) : Prop where
  pos : 0 < i
  name : columns[i]? = some column
  last : ∀ j, i < j → columns[j]? ≠ some column

theorem IsLastColumn.unique (h : IsLastColumn columns column i)
    (h' : IsLastColumn columns column j) : i = j := by
  rcases Nat.lt_trichotomy i j with hlt | heq | hgt
  · exact absurd h'.name (h.last j hlt)
  · exact heq
  · exact absurd h.name (h'.last i hgt)

/-- What stands in a list stands there for the last time somewhere. -/
theorem exists_last {names : List Text} {name : Text} (h : name ∈ names) :
    ∃ i : Nat, names[i]? = some name ∧ ∀ j, i < j → names[j]? ≠ some name := by
  induction names with
  | nil => cases h
  | cons first names ih =>
      by_cases hrest : name ∈ names
      · obtain ⟨i, hi, hlast⟩ := ih hrest
        refine ⟨i + 1, hi, fun j hj => ?_⟩
        obtain ⟨k, rfl⟩ := Nat.exists_eq_add_of_le' (Nat.one_le_of_lt hj)
        exact hlast k (Nat.lt_of_succ_lt_succ hj)
      · obtain rfl : name = first := (List.mem_cons.1 h).resolve_right hrest
        refine ⟨0, rfl, fun j hj hname => ?_⟩
        obtain ⟨k, rfl⟩ := Nat.exists_eq_add_of_le' (Nat.one_le_of_lt hj)
        exact hrest (List.mem_of_getElem? hname)

theorem exists_isLastColumn (h : column ∈ columns.drop 1) : ∃ i, IsLastColumn columns column i := by
  obtain ⟨i, hi, hlast⟩ := exists_last h
  rw [List.getElem?_drop, Nat.add_comm] at hi
  refine ⟨i + 1, Nat.succ_pos i, hi, fun j hj hname => ?_⟩
  obtain ⟨k, rfl⟩ := Nat.exists_eq_add_of_le' (Nat.one_le_of_lt hj)
  refine hlast k (Nat.lt_of_succ_lt_succ hj) ?_
  rwa [List.getElem?_drop, Nat.add_comm]

/-- The row that stands under a key has a value as its field in the last column of a name. -/
def HasField (columns : List Text) (rows : List (Text × List Text)) (column key value : Text) :
    Prop :=
  ∃ i fields, IsLastColumn columns column i ∧ (key, fields) ∈ rows ∧ fields[i]? = some value

/-- Where one row stands under each key, a key has one field in the last column of a name. -/
theorem HasField.unique {rows : List (Text × List Text)} {key value value' : Text}
    (hrows : (rows.map (·.1)).Nodup) (h : HasField columns rows column key value)
    (h' : HasField columns rows column key value') : value = value' := by
  obtain ⟨i, fields, hi, hpair, hvalue⟩ := h
  obtain ⟨j, fields', hj, hpair', hvalue'⟩ := h'
  obtain rfl := hi.unique hj
  have hfields : fields = fields' :=
    congrArg Prod.snd (List.inj_on_of_nodup_map hrows hpair hpair' rfl)
  rw [← hfields, hvalue] at hvalue'
  exact Option.some.inj hvalue'

/-- A look-up gives the field that the row under the key has in the last column of the name. -/
theorem get?_ofText_last (text : Text) :
    ∃ stored, StoredUnder [] ((dataRows text).map keyOf) stored ∧
      ∀ key column value, (ofText text).get? key column = some value ↔
        HasField (header text) (stored.zip (dataRows text)) column key value := by
  obtain ⟨stored, hstored, -, hget⟩ := get?_ofText_stored text
  refine ⟨stored, hstored, fun key column value => ?_⟩
  rw [hget, Option.bind_eq_some_iff]
  constructor
  · rintro ⟨fields, hlookup, hfield⟩
    have hpair : (key, fields) ∈ stored.zip (dataRows text) := Dict.mem_of_lookup hlookup
    have hcolumn : column ∈ (header text).drop 1 := by
      by_contra hnot
      rw [fieldAt?_eq_none hnot] at hfield
      cases hfield
    obtain ⟨i, hi⟩ := exists_isLastColumn hcolumn
    have hlength := length_of_mem_dataRows (List.of_mem_zip hpair).2
    rw [fieldAt?_eq hlength hi.pos hi.name hi.last] at hfield
    exact ⟨i, fields, hi, hpair, hfield⟩
  · rintro ⟨i, fields, hi, hpair, hfield⟩
    have hlength := length_of_mem_dataRows (List.of_mem_zip hpair).2
    refine ⟨fields, lookup_zip_of_nodup hstored.nodup hpair, ?_⟩
    rw [fieldAt?_eq hlength hi.pos hi.name hi.last, hfield]

theorem isEmpty_ofText_iff (text : Text) : (ofText text).isEmpty = true ↔ dataRows text = [] := by
  rw [isEmpty, Dict.isEmpty, List.isEmpty_iff, ← List.length_eq_zero_iff, ← List.length_eq_zero_iff,
    ← size_ofText]
  rfl

theorem hasColumn_ofText_iff (text column : Text) :
    (ofText text).hasColumn column = true ↔ column ∈ (header text).drop 1 := by
  rw [hasColumn, valueColumns, columns_ofText, List.contains_iff_mem]

end Table

/-! ## The mapping -/

namespace Mapping

/-- Between two word boundaries, the pattern of a mapping matches its keys and nothing else. -/
def MatchesKeys (m : Mapping) : Prop :=
  ∃ body, m.pattern = .seq .boundary (.seq (.group body) .boundary) ∧
    ∀ before w after, (Pattern.group body).Matches before w after ↔ w ∈ m.replacements.keys

theorem compiled_matchesKeys (category : String) (pairs : Pairs) (skipQuoted : Bool) :
    (compiled category pairs skipQuoted).MatchesKeys := by
  have hrep := Trie.Represents.ofList (keysOf pairs)
  refine ⟨(Trie.ofList (keysOf pairs)).body, rfl,
    fun before w after => (hrep.matches_body before w after).trans ?_⟩
  rw [hrep.contains_iff, List.mem_toFinset]
  rfl

/-- A mapping takes its replacements from the last column of a name, where rows stand under keys. -/
structure ReadsColumn (m : Mapping) (columns : List Text) (rows : List (Text × List Text))
    (column : Text) : Prop where
  replaces : ∀ key value, m.replacements.get? key = some value ↔
    Table.HasField columns rows column key value ∧ value ≠ []
  matchesKeys : m.MatchesKeys
  /-- A match is a key. It becomes the value of the key, and that is not empty, or it stays as it is
  where the mapping leaves it alone. -/
  hits : ∀ t left word, .hit left word ∈ m.scan t →
    ∃ value, m.replacements.get? word = some value ∧ value ≠ [] ∧
      m.applyPiece (.hit left word) =
        if m.skipQuoted && left == some '"' then (word, ⟨0, 1⟩) else (value, ⟨1, 0⟩)
  /-- Every match is a key that is replaced. -/
  found : ∀ t, ∀ span ∈ m.spans t, ∃ key value, Text.slice? t span.1 span.2 = some key ∧
    m.replacements.get? key = some value
  /-- A key with an empty field is never matched. -/
  passedOver : ∀ key, Table.HasField columns rows column key [] →
    ∀ t, ∀ span ∈ m.spans t, Text.slice? t span.1 span.2 ≠ some key

/-- A mapping of a table is refused for its column, or else depends on its pattern. -/
theorem ofTable_cases [Pattern.Engine] (category : String) (table : Table) (column : Text)
    (skipQuoted : Bool) :
    (ofTable category table column skipQuoted).result =
      if table.isEmpty = false ∧ table.hasColumn column = false then
        .error (.missingColumn category column)
      else
        match Pattern.compile (sourceOf (Trie.ofList (keysOf (table.columnValues column)))) with
        | .error fault => .error (.invalidPattern category fault)
        | .ok _ => .ok (compiled category (table.columnValues column) skipQuoted) := by
  by_cases h : table.isEmpty = false ∧ table.hasColumn column = false
  · rw [if_pos h, ofTable, h.1, h.2]
    rfl
  · have hgiven : (table.isEmpty || table.hasColumn column) = true := by
      rw [Bool.or_eq_true, ← Bool.not_eq_false, ← Bool.not_eq_false]
      exact not_and_or.1 h
    have hsame : (compiled category (table.columnValues column) skipQuoted).pattern =
        (Trie.ofList (keysOf (table.columnValues column))).wordPattern := rfl
    rw [if_neg h, ofTable_result hgiven, compile_result, Trie.compile_sourceOf, hsame]
    cases (Trie.ofList (keysOf (table.columnValues column))).wordPattern.fault? <;> rfl

section OfTable

variable [Pattern.Engine] {category : String} {text column : Text} {skipQuoted : Bool}

theorem readsColumn_of_ofTable {m : Mapping} {rows : List (Text × List Text)}
    (hm : (ofTable category (Table.ofText text) column skipQuoted).result = .ok m)
    (hrows : (rows.map (·.1)).Nodup)
    (hget : ∀ key value, (Table.ofText text).get? key column = some value ↔
      Table.HasField (Table.header text) rows column key value) :
    m.ReadsColumn (Table.header text) rows column := by
  have hcompiled : m.IsCompiled := ⟨_, category, _, skipQuoted, compile_of_ofTable hm⟩
  have hreplaces : ∀ key value, m.replacements.get? key = some value ↔
      Table.HasField (Table.header text) rows column key value ∧ value ≠ [] := by
    intro key value
    rw [get?_replacements_ofTable hm, Option.filter_eq_some_iff, hget]
    simp
  have hfound : ∀ t, ∀ span ∈ m.spans t, ∃ key value, Text.slice? t span.1 span.2 = some key ∧
      m.replacements.get? key = some value := fun t => (hcompiled.spans_spec t).1
  refine ⟨hreplaces, ?_, fun t left word hhit => ?_, hfound, ?_⟩
  · rw [eq_compiled (compile_of_ofTable hm)]
    exact compiled_matchesKeys category _ skipQuoted
  · obtain ⟨value, hvalue⟩ := (hcompiled.scan_cut t).2.exists_value hhit
    exact ⟨value, hvalue, ((hreplaces word value).1 hvalue).2, by rw [applyPiece, hvalue]⟩
  · intro key hempty t span hspan hslice
    obtain ⟨key', value, hslice', hvalue⟩ := hfound t span hspan
    obtain rfl := Option.some.inj (hslice.symm.trans hslice')
    obtain ⟨hfield, hne⟩ := (hreplaces key value).1 hvalue
    exact hne (hfield.unique hrows hempty)

/-- **The mapping of a column.** For every text, column name and flag, the mapping of the column is
refused for the column exactly if the text has a data row and no column after the first has the
name. In all other cases it is given exactly if the pattern of its keys compiles: these are the keys
that have a field in the last column of the name which is not empty. Its replacements are these keys
with their fields, and its pattern matches the same keys, so every match becomes a text that is not
empty unless it is left alone, and a key with an empty field is never matched. -/
theorem ofTable_readsColumn (category : String) (text column : Text) (skipQuoted : Bool) :
    let table := Table.ofText text
    let result := (ofTable category table column skipQuoted).result
    table.size = (Table.dataRows text).length ∧ table.columns = Table.header text ∧
      (result = .error (.missingColumn category column) ↔
        Table.dataRows text ≠ [] ∧ column ∉ (Table.header text).drop 1) ∧
      ∃ stored t, Table.StoredUnder [] ((Table.dataRows text).map Table.keyOf) stored ∧
        t.Reachable ∧
        (∀ key, t.contains key = true ↔ ∃ value, value ≠ [] ∧ Table.HasField (Table.header text)
          (stored.zip (Table.dataRows text)) column key value) ∧
        (result ≠ .error (.missingColumn category column) →
          (∀ fault, Pattern.compile (sourceOf t) = .error fault →
            result = .error (.invalidPattern category fault)) ∧
          ∀ p, Pattern.compile (sourceOf t) = .ok p →
            ∃ m, result = .ok m ∧ m.source = sourceOf t ∧ m.pattern = p ∧
              m.ReadsColumn (Table.header text) (stored.zip (Table.dataRows text)) column) := by
  intro table result
  have hmissing : table.isEmpty = false ∧ table.hasColumn column = false ↔
      Table.dataRows text ≠ [] ∧ column ∉ (Table.header text).drop 1 := by
    rw [← Bool.not_eq_true, ← Bool.not_eq_true, Table.isEmpty_ofText_iff,
      Table.hasColumn_ofText_iff]
  have hcases : result = _ := ofTable_cases category table column skipQuoted
  obtain ⟨stored, hstored, hget⟩ := Table.get?_ofText_last text
  have hnodup : ((stored.zip (Table.dataRows text)).map (·.1)).Nodup := by
    have hlength : stored.length ≤ (Table.dataRows text).length := by
      rw [hstored.length_eq, List.length_map]
    rw [List.map_fst_zip hlength]
    exact hstored.nodup
  refine ⟨Table.size_ofText text, Table.columns_ofText text, ?_, stored,
    Trie.ofList (keysOf (table.columnValues column)), hstored, Trie.Reachable.ofList _,
    fun key => ?_, fun hgiven => ?_⟩
  · rw [← hmissing]
    refine ⟨fun herror => ?_, fun h => hcases.trans (if_pos h)⟩
    by_contra h
    rw [if_neg h, herror] at hcases
    split at hcases <;> cases hcases
  · rw [(Trie.Represents.ofList _).contains_iff, List.mem_toFinset, mem_keysOf]
    refine exists_congr fun value => ?_
    rw [← hget, and_comm, Table.columnValues, Dict.get?_filterMap]
    rfl
  · have hnot : ¬ (table.isEmpty = false ∧ table.hasColumn column = false) :=
      fun h => hgiven (hcases.trans (if_pos h))
    rw [if_neg hnot] at hcases
    refine ⟨fun fault hfault => ?_, fun p hp => ?_⟩
    · rw [hfault] at hcases
      exact hcases
    · rw [hp] at hcases
      refine ⟨_, hcases, rfl, ?_, readsColumn_of_ofTable hcases hnodup fun key => hget key column⟩
      rw [Trie.compile_sourceOf] at hp
      cases hfault : (Trie.ofList (keysOf (table.columnValues column))).wordPattern.fault? with
      | none =>
          rw [hfault] at hp
          exact Except.ok.inj hp
      | some fault =>
          rw [hfault] at hp
          cases hp

end OfTable

/-- A name that two columns have, and three keys that start with each other, of which only the one
in the middle has a field in the second of these columns. -/
theorem ofTable_readsColumn_prefixes :
    let text := "k,n,n\na,x,\nab,y,1\nabc,z,\n".toList
    let result := (ofTable "fields" (Table.ofText text) ['n'] true).result
    result ≠ .error (.missingColumn "fields" ['n']) ∧
      (∃ m, result = .ok m ∧ m.replacements.entries = [("ab".toList, "1".toList)] ∧
        ∀ t, ∀ span ∈ m.spans t, ∃ key value, Text.slice? t span.1 span.2 = some key ∧
          m.replacements.get? key = some value) ∧
      (ofTable "fields" (Table.ofText text) ['k'] true).result =
        .error (.missingColumn "fields" ['k']) := by
  intro text result
  obtain ⟨-, -, -, stored, t, -, -, -, hcompile⟩ := ofTable_readsColumn "fields" text ['n'] true
  obtain ⟨-, -, hmissing, -⟩ := ofTable_readsColumn "fields" text ['k'] true
  have hgiven : result =
      .ok (compiled "fields" ((Table.ofText text).columnValues ['n']) true) := by
    show (ofTable _ _ _ _).result = _
    exact ofTable_eq_compiled (by decide +kernel) (by decide +kernel)
  have hne : result ≠ .error (.missingColumn "fields" ['n']) := by
    rw [hgiven]
    intro herror
    cases herror
  obtain ⟨hfault, hpattern⟩ := hcompile hne
  refine ⟨hne, ?_, hmissing.2 (by decide +kernel)⟩
  cases hp : Pattern.compile (sourceOf t) with
  | error fault =>
      have herror : result = _ := hfault fault hp
      rw [hgiven] at herror
      cases herror
  | ok p =>
      obtain ⟨m, hm, -, -, hreads⟩ := hpattern p hp
      have hsame : compiled "fields" ((Table.ofText text).columnValues ['n']) true = m :=
        Except.ok.inj (hgiven.symm.trans hm)
      exact ⟨m, hm, hsame ▸ by decide +kernel, hreads.found⟩

end Mapping

end Unmangle
