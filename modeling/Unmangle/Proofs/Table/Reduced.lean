import Mathlib.Data.List.Forall2
import Unmangle.Proofs.Table.Lines

set_option autoImplicit false

/-! # Tables with fewer rows and values

A table is reduced when rows are dropped from it and values in it are emptied (`Table.ReducedFrom`).
The rows that stay are still stored under the same keys. For the rows of a text this is not a matter
of course, since a row whose first field is taken gets another key: where the row that has taken it
goes, the other row moves. Where no first field is repeated, a text with fewer rows holds a reduced
table (`Table.ofText_reducedFrom`).
-/

namespace Unmangle.Table

/-- The first table is the second one after some rows were dropped and some values emptied. -/
structure ReducedFrom (t u : Table) : Prop where
  columns_eq : t.columns = u.columns
  keys_subset : t.keys ⊆ u.keys
  kept_or_empty (key column value : Text) :
    t.get? key column = some value → value = [] ∨ u.get? key column = some value

/-- The first row is the second one after some values were emptied. -/
def EmptiedFrom (fields fields' : List Text) : Prop :=
  keyOf fields = keyOf fields' ∧
    List.Forall₂ (fun value value' => value = [] ∨ value = value') (fields.drop 1)
      (fields'.drop 1)

instance (fields fields' : List Text) : Decidable (EmptiedFrom fields fields') :=
  inferInstanceAs (Decidable (_ ∧ _))

theorem ReducedFrom.isEmpty {t u : Table} (h : t.ReducedFrom u) (hu : u.isEmpty = true) :
    t.isEmpty = true := by
  have hnone : ∀ table : Table, table.isEmpty = true ↔ table.keys = [] := by
    intro table
    rw [Table.isEmpty, Dict.isEmpty, List.isEmpty_iff]
    exact List.map_eq_nil_iff.symm
  rw [hnone] at hu ⊢
  exact List.subset_nil.1 (hu ▸ h.keys_subset)

/-! ## One row -/

/-- What a look-up gives in an emptied row it gives in the row itself, or the value was emptied: by
induction on the values, the last pair with a name being the one that counts. -/
theorem lookup_emptied {values values' : List Text}
    (h : List.Forall₂ (fun value value' => value = [] ∨ value = value') values values')
    (columns : List Text) (column : Text) :
    Option.Rel (fun value value' => value = [] ∨ value = value')
      ((columns.zip values).reverse.lookup column)
      ((columns.zip values').reverse.lookup column) := by
  induction h generalizing columns with
  | nil =>
      rw [List.zip_nil_right]
      exact .none
  | @cons value value' values values' hvalue _ ih =>
      cases columns with
      | nil => exact .none
      | cons first columns =>
          have hrest := ih columns
          simp only [List.zip_cons_cons, List.reverse_cons, List.lookup_append]
          generalize (columns.zip values).reverse.lookup column = found at hrest ⊢
          generalize (columns.zip values').reverse.lookup column = found' at hrest ⊢
          cases hrest with
          | some hfound => exact .some hfound
          | none =>
              rw [List.lookup_cons, List.lookup_cons]
              cases column == first with
              | true => exact .some hvalue
              | false => exact .none

theorem EmptiedFrom.fieldAt? {fields fields' : List Text} (h : EmptiedFrom fields fields')
    {columns : List Text} {column value : Text}
    (hvalue : Table.fieldAt? columns fields column = some value) :
    value = [] ∨ Table.fieldAt? columns fields' column = some value := by
  have hrel : Option.Rel (fun value value' => value = [] ∨ value = value')
      (Table.fieldAt? columns fields column) (Table.fieldAt? columns fields' column) :=
    lookup_emptied h.2 (columns.drop 1) column
  rw [hvalue] at hrel
  generalize Table.fieldAt? columns fields' column = found at hrel ⊢
  cases hrel with
  | some hfound => exact hfound.imp id fun heq => by rw [heq]

/-! ## The rows of a text -/

section Rows

variable {rows kept : List (List Text)} (h : List.Forall₂ EmptiedFrom rows kept)

include h

theorem map_keyOf_emptied : rows.map keyOf = kept.map keyOf := by
  induction h with
  | nil => rfl
  | cons hrow _ ih => rw [List.map_cons, List.map_cons, hrow.1, ih]

theorem exists_emptiedFrom : ∀ fields ∈ rows, ∃ fields' ∈ kept, EmptiedFrom fields fields' := by
  induction h with
  | nil => exact List.forall_mem_nil _
  | cons hrow _ ih =>
      refine List.forall_mem_cons.2 ⟨⟨_, List.mem_cons_self, hrow⟩, fun fields hfields => ?_⟩
      obtain ⟨fields', hfields', hemptied⟩ := ih fields hfields
      exact ⟨fields', List.mem_cons_of_mem _ hfields', hemptied⟩

end Rows

/-- **Texts with fewer rows.** Where no first field is repeated, rows can be dropped from a text and
values in the others emptied, and its table is a reduced one. -/
theorem ofText_reducedFrom {text text' : Text} (hheader : header text = header text')
    (hnodup : ((dataRows text').map keyOf).Nodup) {kept : List (List Text)}
    (hkept : kept.Sublist (dataRows text'))
    (hrows : List.Forall₂ EmptiedFrom (dataRows text) kept) :
    (ofText text).ReducedFrom (ofText text') := by
  have hkeys : (dataRows text).map keyOf = kept.map keyOf := map_keyOf_emptied hrows
  have hless : ((dataRows text).map keyOf).Sublist ((dataRows text').map keyOf) := by
    rw [hkeys]
    exact hkept.map keyOf
  have hnodup' : ((dataRows text).map keyOf).Nodup := hnodup.sublist hless
  constructor
  · rw [columns_ofText, columns_ofText, hheader]
  · intro key hkey
    rw [mem_keys_ofText_of_nodup hnodup'] at hkey
    rw [mem_keys_ofText_of_nodup hnodup]
    exact hless.subset hkey
  · intro key column value hvalue
    -- the row is one that stayed, and its value there was kept or emptied
    have hkey : key ∈ (ofText text).keys := by
      obtain ⟨row, hrow, -⟩ := Option.bind_eq_some_iff.1 hvalue
      exact Dict.mem_keys_iff.2 ⟨row, hrow⟩
    rw [mem_keys_ofText_of_nodup hnodup'] at hkey
    obtain ⟨fields, hfields, rfl⟩ := List.mem_map.1 hkey
    obtain ⟨fields', hfields', hemptied⟩ := exists_emptiedFrom hrows fields hfields
    rw [get?_ofText_of_nodup hnodup' hfields, hheader] at hvalue
    rw [hemptied.1, get?_ofText_of_nodup hnodup (hkept.subset hfields')]
    exact hemptied.fieldAt? hvalue

end Unmangle.Table
