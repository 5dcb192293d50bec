import Unmangle.Proofs.Candidates
import Unmangle.Table.Basic

set_option autoImplicit false

/-! # Rows that are added to a table

A row whose key is taken is stored under the first free key among those with underscores at its
end. A key that was made in this way may be the key of a later row, and the other way round, so the
rows are told one after another:

* `Table.Inserted`: what adding one row does, and `Table.insertRow_inserted`, that it does.
* `Table.Insertions`: rows that are added one after another.
* `Table.Insertions.get?_stored`: at the end every row is found under the key that it was given.
* `Table.insertRows_keeps`: the main statement.
-/

namespace Unmangle.Table

/-! ## The first free key -/

/-- A key with a number of underscores at its end. -/
def underscored (key : Text) (n : Nat) : Text := key ++ List.replicate n '_'

@[simp] theorem underscored_zero (key : Text) : underscored key 0 = key := List.append_nil key

theorem underscored_add (key : Text) (n k : Nat) :
    underscored (underscored key n) k = underscored key (n + k) := by
  rw [underscored, underscored, underscored, List.append_assoc, List.replicate_append_replicate]

theorem underscored_injective (key : Text) : Function.Injective (underscored key) := by
  intro n k h
  have hlength := congrArg List.length h
  simp only [underscored, List.length_append, List.length_replicate] at hlength
  omega

theorem iterate_underscore (key : Text) (n : Nat) : (· ++ ['_'])^[n] key = underscored key n := by
  induction n generalizing key with
  | zero => exact (underscored_zero key).symm
  | succ n ih =>
      rw [Function.iterate_succ_apply, ih, Nat.add_comm]
      exact underscored_add key 1 n

/-- The key is free, and it is a given one with the least number of underscores for which it is. -/
def FirstFree (taken : List Text) (key stored : Text) : Prop :=
  ∃ n, stored = underscored key n ∧ stored ∉ taken ∧ ∀ k < n, underscored key k ∈ taken

theorem FirstFree.congr {taken taken' : List Text} {key stored : Text}
    (htaken : ∀ k, k ∈ taken ↔ k ∈ taken') (h : FirstFree taken key stored) :
    FirstFree taken' key stored := by
  obtain ⟨n, heq, hfree, hbefore⟩ := h
  exact ⟨n, heq, fun hmem => hfree ((htaken _).2 hmem), fun k hk => (htaken _).1 (hbefore k hk)⟩

/-- As many keys are taken as there are underscores, so these are no more than the keys. -/
theorem FirstFree.exists_le {taken : List Text} {key stored : Text}
    (h : FirstFree taken key stored) :
    ∃ n ≤ taken.length, stored = underscored key n ∧ stored ∉ taken ∧
      ∀ k < n, underscored key k ∈ taken := by
  obtain ⟨n, heq, hfree, hbefore⟩ := h
  exact ⟨n, le_length_of_injective (underscored_injective key) hbefore, heq, hfree, hbefore⟩

theorem FirstFree.length_le {taken : List Text} {key stored : Text}
    (h : FirstFree taken key stored) : stored.length ≤ key.length + taken.length := by
  obtain ⟨n, hle, rfl, -⟩ := h.exists_le
  rw [underscored, List.length_append, List.length_replicate]
  omega

theorem tries_freeKeyWithin (rows : Dict Text Row) :
    Tries rows.contains (· ++ ['_']) (freeKeyWithin rows) :=
  ⟨fun _ => rfl, fun _ _ => rfl⟩

theorem get?_of_row {t : Table} {key : Text} {row : Row} (h : t.rows.get? key = some row)
    (column : Text) : t.get? key column = row.get? column := by
  rw [get?, h, Option.bind_some]

theorem length_keys (t : Table) : t.keys.length = t.size := List.length_map _

theorem mem_keys_iff_contains {t : Table} {key : Text} :
    key ∈ t.keys ↔ t.rows.contains key = true := by
  rw [keys, Dict.mem_keys_iff, Dict.contains, Option.isSome_iff_exists]

/-- The search for a key tries more keys than the table has, so it finds a free one. -/
theorem freeKey_firstFree (t : Table) (key : Text) : FirstFree t.keys key (t.freeKey key) := by
  have henough : ∀ n, (∀ k ≤ n, t.rows.contains ((· ++ ['_'])^[k] key) = true) → n < t.size := by
    intro n htaken
    have hmem : ∀ k < n + 1, underscored key k ∈ t.keys := by
      intro k hk
      rw [mem_keys_iff_contains, ← iterate_underscore]
      exact htaken k (Nat.le_of_lt_succ hk)
    have hle := le_length_of_injective (underscored_injective key) hmem
    rw [length_keys] at hle
    omega
  obtain ⟨n, hkey, hfree, hbefore⟩ := (tries_freeKeyWithin t.rows).finds henough
  simp only [iterate_underscore] at hkey hfree hbefore
  refine ⟨n, hkey, ?_, fun k hk => mem_keys_iff_contains.2 (hbefore k hk)⟩
  rw [mem_keys_iff_contains, freeKey, hkey, hfree]
  exact Bool.false_ne_true

/-- The search ends by itself: more attempts than there are rows give the same key. -/
theorem freeKeyWithin_eq {t : Table} {key stored : Text} (h : FirstFree t.keys key stored)
    {attempts : Nat} (hle : t.size ≤ attempts) : freeKeyWithin t.rows attempts key = stored := by
  obtain ⟨n, hn, rfl, hfree, hbefore⟩ := h.exists_le
  rw [length_keys] at hn
  rw [mem_keys_iff_contains, Bool.not_eq_true] at hfree
  rw [← iterate_underscore] at hfree ⊢
  refine (tries_freeKeyWithin t.rows).eq_of_le hfree (fun k hk => ?_) (Nat.le_trans hn hle)
  rw [iterate_underscore, ← mem_keys_iff_contains]
  exact hbefore k hk

/-! ## One row -/

/-- A row was added to a table under a key. -/
structure Inserted (t : Table) (key : Text) (row : Row) (stored : Text) (t' : Table) : Prop where
  firstFree : FirstFree t.keys key stored
  length_le : stored.length ≤ key.length + t.size
  enough : ∀ attempts, t.size ≤ attempts → freeKeyWithin t.rows attempts key = stored
  columns_eq : t'.columns = t.columns
  size_eq : t'.size = t.size + 1
  get?_stored : t'.rows.get? stored = some row
  get?_other : ∀ k, k ≠ stored → t'.rows.get? k = t.rows.get? k

theorem insertRow_inserted (t : Table) (key : Text) (row : Row) :
    Inserted t key row (t.insertRow key row).1 (t.insertRow key row).2 := by
  have hfirst := freeKey_firstFree t key
  have hfree : t.rows.contains (t.freeKey key) = false := by
    obtain ⟨-, -, hfree, -⟩ := hfirst
    rwa [mem_keys_iff_contains, Bool.not_eq_true] at hfree
  exact {
    firstFree := hfirst
    length_le := length_keys t ▸ hfirst.length_le
    enough := fun _ => freeKeyWithin_eq hfirst
    columns_eq := rfl
    size_eq := Dict.size_insert hfree row
    get?_stored := Dict.get?_insert_self _ _ _
    get?_other := fun k hk => Dict.get?_insert_of_ne (Ne.symm hk) _ }

/-- The keys of a table with one more row. -/
theorem Inserted.mem_keys_iff {t t' : Table} {key stored : Text} {row : Row}
    (h : Inserted t key row stored t') (k : Text) : k ∈ t'.keys ↔ k = stored ∨ k ∈ t.keys := by
  rw [keys, keys, Dict.mem_keys_iff, Dict.mem_keys_iff]
  by_cases hk : k = stored
  · rw [hk, h.get?_stored]
    simp
  · rw [h.get?_other k hk]
    simp [hk]

/-! ## Rows one after another -/

/-- Adds rows one after another and gives the keys under which they are stored. -/
def insertRows (t : Table) : List (Text × Row) → List Text × Table
  | [] => ([], t)
  | (key, row) :: rest =>
      let (stored, t) := t.insertRow key row
      let (more, t) := insertRows t rest
      (stored :: more, t)

/-- Rows were added to a table one after another, each under a key. -/
inductive Insertions : Table → List (Text × Row) → List Text → Table → Prop
  | nil {t : Table} : Insertions t [] [] t
  | cons {t t₁ t' : Table} {key stored : Text} {row : Row} {rest : List (Text × Row)}
      {more : List Text} :
      Inserted t key row stored t₁ → Insertions t₁ rest more t' →
      Insertions t ((key, row) :: rest) (stored :: more) t'

theorem insertRows_insertions (t : Table) (rows : List (Text × Row)) :
    Insertions t rows (t.insertRows rows).1 (t.insertRows rows).2 := by
  induction rows generalizing t with
  | nil => exact .nil
  | cons entry rest ih =>
      obtain ⟨key, row⟩ := entry
      exact .cons (insertRow_inserted t key row) (ih (t.insertRow key row).2)

/-- Rows with some first fields, one after another, are stored under some keys when other keys are
taken before: each one under the first free key. -/
def StoredUnder : List Text → List Text → List Text → Prop
  | _, [], [] => True
  | taken, key :: keys, stored :: more =>
      FirstFree taken key stored ∧ StoredUnder (stored :: taken) keys more
  | _, _, _ => False

/-- Induction on the rows that are stored. -/
theorem StoredUnder.induction
    {motive : ∀ taken keys stored, StoredUnder taken keys stored → Prop}
    (nil : ∀ taken, motive taken [] [] trivial)
    (cons : ∀ taken key keys s more (hfirst : FirstFree taken key s)
      (hmore : StoredUnder (s :: taken) keys more), motive (s :: taken) keys more hmore →
      motive taken (key :: keys) (s :: more) ⟨hfirst, hmore⟩)
    {taken keys stored : List Text} (h : StoredUnder taken keys stored) :
    motive taken keys stored h := by
  induction keys generalizing taken stored with
  | nil =>
      cases stored with
      | nil => exact nil taken
      | cons s more => exact h.elim
  | cons key keys ih =>
      cases stored with
      | nil => exact h.elim
      | cons s more => exact cons taken key keys s more h.1 h.2 (ih h.2)

namespace StoredUnder

variable {taken keys stored : List Text}

theorem length_eq (h : StoredUnder taken keys stored) : stored.length = keys.length := by
  induction h using StoredUnder.induction with
  | nil => rfl
  | cons _ _ _ _ _ _ _ ih => rw [List.length_cons, List.length_cons, ih]

/-- No row is stored under a key that is taken before. -/
theorem not_mem (h : StoredUnder taken keys stored) : ∀ k ∈ stored, k ∉ taken := by
  induction h using StoredUnder.induction with
  | nil => exact List.forall_mem_nil _
  | cons taken key keys s more hfirst _ ih =>
      obtain ⟨n, -, hfree, -⟩ := hfirst
      refine List.forall_mem_cons.2 ⟨hfree, fun k hk hmem => ?_⟩
      exact ih k hk (List.mem_cons_of_mem _ hmem)

theorem nodup (h : StoredUnder taken keys stored) : stored.Nodup := by
  induction h using StoredUnder.induction with
  | nil => exact List.nodup_nil
  | cons taken key keys s more _ hmore ih =>
      exact List.nodup_cons.2 ⟨fun hmem => hmore.not_mem s hmem List.mem_cons_self, ih⟩

/-- A row is stored under its first field with underscores. -/
theorem underscored (h : StoredUnder taken keys stored) :
    ∀ pair ∈ keys.zip stored, ∃ n, pair.2 = Table.underscored pair.1 n := by
  induction h using StoredUnder.induction with
  | nil => exact List.forall_mem_nil _
  | cons taken key keys s more hfirst _ ih =>
      obtain ⟨n, hs, -, -⟩ := hfirst
      exact List.forall_mem_cons.2 ⟨⟨n, hs⟩, ih⟩

end StoredUnder

namespace Insertions

variable {t t' : Table} {rows : List (Text × Row)} {stored : List Text}

/-- The keys are given one after another, each of them the first one that is free by then. -/
theorem storedUnder {taken : List Text} (htaken : ∀ k, k ∈ t.keys ↔ k ∈ taken)
    (h : Insertions t rows stored t') : StoredUnder taken (rows.map (·.1)) stored := by
  induction h generalizing taken with
  | nil => exact trivial
  | cons hfirst _ ih =>
      refine ⟨hfirst.firstFree.congr htaken, ih fun k => ?_⟩
      rw [hfirst.mem_keys_iff, htaken, List.mem_cons]

theorem columns_eq (h : Insertions t rows stored t') : t'.columns = t.columns := by
  induction h with
  | nil => rfl
  | cons hfirst _ ih => exact ih.trans hfirst.columns_eq

theorem size_eq (h : Insertions t rows stored t') : t'.size = t.size + rows.length := by
  induction h with
  | nil => rfl
  | cons hfirst _ ih =>
      rw [ih, hfirst.size_eq, List.length_cons]
      omega

/-- Nothing changes under the keys that no row is given. -/
theorem get?_of_not_mem (h : Insertions t rows stored t') {k : Text} (hk : k ∉ stored) :
    t'.rows.get? k = t.rows.get? k := by
  induction h with
  | nil => rfl
  | cons hfirst _ ih =>
      rw [List.mem_cons, not_or] at hk
      exact (ih hk.2).trans (hfirst.get?_other k hk.1)

/-- Every row stays under its key to the end, since no later row is given that key. -/
theorem get?_stored (h : Insertions t rows stored t') :
    List.Forall₂ (fun key entry => t'.rows.get? key = some entry.2) stored rows := by
  induction h with
  | nil => exact .nil
  | @cons t t₁ t' key s row rest more hfirst hmore ih =>
      have hlater : s ∉ more := fun hmem =>
        (hmore.storedUnder fun _ => Iff.rfl).not_mem s hmem ((hfirst.mem_keys_iff s).2 (.inl rfl))
      exact .cons ((hmore.get?_of_not_mem hlater).trans hfirst.get?_stored) ih

end Insertions

/-- **Adding rows.** Rows are added to a table one after another, each under its key with the least
number of underscores for which it is free at that moment, and there are no more underscores than
rows by then. Each row makes the table one row longer and changes nothing under other keys. So the
keys are all different and different from those before, each of them gives its row at the end, and
every row that was there before is found as before. -/
theorem insertRows_keeps (t : Table) (rows : List (Text × Row)) :
    let stored := (t.insertRows rows).1
    let t' := (t.insertRows rows).2
    Insertions t rows stored t' ∧
      t'.columns = t.columns ∧ t'.size = t.size + rows.length ∧
      stored.Nodup ∧ (∀ k ∈ stored, k ∉ t.keys) ∧
      List.Forall₂ (fun key entry => t'.rows.get? key = some entry.2 ∧
        ∀ column, t'.get? key column = entry.2.get? column) stored rows ∧
      ∀ k ∈ t.keys, t'.rows.get? k = t.rows.get? k := by
  intro stored t'
  have h : Insertions t rows stored t' := insertRows_insertions t rows
  have hstored := h.storedUnder fun _ => Iff.rfl
  refine ⟨h, h.columns_eq, h.size_eq, hstored.nodup, hstored.not_mem,
    h.get?_stored.imp fun _ _ hget => ⟨hget, get?_of_row hget⟩, fun k hk => ?_⟩
  exact h.get?_of_not_mem fun hmem => hstored.not_mem k hmem hk

/-- A key that is taken twice over, one that was made for another row, and one that is free only
after both. -/
theorem insertRows_keeps_crossed :
    let t : Table := ⟨["k".toList, "n".toList],
      .ofList [("a".toList, .empty), ("a_".toList, .ofList [("n".toList, "old".toList)])]⟩
    let row := fun value : String => (Dict.ofList [("n".toList, value.toList)] : Row)
    let rows := [("a".toList, row "x"), ("a__".toList, row "y"), ("a".toList, row "z")]
    (t.insertRows rows).1 = ["a__".toList, "a___".toList, "a____".toList] ∧
      (t.insertRows rows).2.size = 5 ∧
      "a_".toList ∈ t.keys ∧
      (t.insertRows rows).2.rows.get? "a_".toList = t.rows.get? "a_".toList ∧
      List.Forall₂ (fun key entry => (t.insertRows rows).2.rows.get? key = some entry.2 ∧
        ∀ column, (t.insertRows rows).2.get? key column = entry.2.get? column)
        (t.insertRows rows).1 rows := by
  intro t row rows
  obtain ⟨-, -, hsize, -, -, hrows, hkept⟩ := insertRows_keeps t rows
  have hmem : "a_".toList ∈ t.keys := by decide +kernel
  exact ⟨by decide +kernel, hsize, hmem, hkept _ hmem, hrows⟩

end Unmangle.Table
