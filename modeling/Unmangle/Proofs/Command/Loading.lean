import Unmangle.Proofs.Command.Dumps
import Unmangle.Proofs.Decode.Columns
import Unmangle.Proofs.Files.Visits
import Unmangle.Proofs.Trie.Canonical

set_option autoImplicit false

/-! # Loading a decoder

A decoder is made of two tables, and each of them can be refused for five reasons: its path leads
nowhere, what is there is no text, the column is missing, the pattern of the keys nests too deep, or
the engine's program of the pattern is too large. The reasons are looked for one after another, so
the error tells the first demand that is not met. Where no program is too large, four demands of
each table are left.

* `DecidedBy`: a result depends on some demands in their order. `Checked` tells the cases, and
  `Checked.bind` puts one result after another.
* `Decoder.load_checked`: the demands of a decoder.
* `Command.load_demands`: the main statement, with what a run does where it cannot go on.
-/

namespace Unmangle

/-! ## The first failure -/

section FirstFailing

variable {α : Type} {met : α → Prop} {x c d : α} {xs ys : List α}

/-- The first of some demands that is not met. -/
def FirstFailing (met : α → Prop) (xs : List α) (c : α) : Prop :=
  ∃ before after, xs = before ++ c :: after ∧ (∀ b ∈ before, met b) ∧ ¬ met c

theorem FirstFailing.head (h : ¬ met x) : FirstFailing met (x :: xs) x :=
  ⟨[], xs, rfl, List.forall_mem_nil _, h⟩

/-- Demands that are met can stand before the first one that is not. -/
theorem FirstFailing.append_left (hmet : ∀ y ∈ ys, met y) (h : FirstFailing met xs c) :
    FirstFailing met (ys ++ xs) c := by
  obtain ⟨before, after, rfl, hbefore, hc⟩ := h
  exact ⟨ys ++ before, after, by simp, List.forall_mem_append.2 ⟨hmet, hbefore⟩, hc⟩

theorem FirstFailing.append_right (h : FirstFailing met xs c) (ys : List α) :
    FirstFailing met (xs ++ ys) c := by
  obtain ⟨before, after, rfl, hbefore, hc⟩ := h
  exact ⟨before, after ++ ys, by simp, hbefore, hc⟩

theorem FirstFailing.unique (h : FirstFailing met xs c) (k : FirstFailing met xs d) : c = d := by
  obtain ⟨before, after, rfl, hbefore, hc⟩ := h
  obtain ⟨before', after', heq, hbefore', hd⟩ := k
  -- the parts before are equally long, since what is met in one list is met in the other
  rcases List.append_eq_append_iff.1 heq with ⟨more, rfl, hmore⟩ | ⟨more, rfl, hmore⟩
  · cases more with
    | nil => exact (List.cons.inj hmore).1
    | cons y more =>
        obtain ⟨rfl, -⟩ := List.cons.inj hmore
        exact absurd (hbefore' c (by simp)) hc
  · cases more with
    | nil => exact (List.cons.inj hmore).1.symm
    | cons y more =>
        obtain ⟨rfl, -⟩ := List.cons.inj hmore
        exact absurd (hbefore d (by simp)) hd

/-- Demands that are met can be left out. -/
theorem FirstFailing.filter (h : FirstFailing met xs c) {keep : α → Bool}
    (hmet : ∀ y ∈ xs, keep y = false → met y) : FirstFailing met (xs.filter keep) c := by
  obtain ⟨before, after, rfl, hbefore, hc⟩ := h
  have hkeep : keep c = true := by
    by_contra hkeep
    exact hc (hmet c (by simp) (Bool.eq_false_iff.2 hkeep))
  refine ⟨before.filter keep, after.filter keep, by simp [hkeep], fun b hb => ?_, hc⟩
  exact hbefore b (List.mem_of_mem_filter hb)

end FirstFailing

/-! ## Demands -/

/-- A path leads to a file that holds a text. -/
def Workspace.HoldsText (ws : Workspace) (p : Path) (t : Text) : Prop :=
  ∃ loc, ws.entry .use p = .ok (loc, .file (.text t))

/-- What a table is refused for. -/
inductive Check where
  | found
  | readable
  | column
  | nesting
  | size
  deriving DecidableEq, Repr

/-- A trie of the keys under which a table has a value in a column. -/
def Trie.HasKeys (trie : Trie) (table : Table) (column : Text) : Prop :=
  trie.Reachable ∧ ∀ key, trie.contains key = true ↔
    ∃ value, table.get? key column = some value ∧ value ≠ []

/-- A check of the table at a path, for the mapping of a category. -/
structure Demand where
  category : String
  path : Path
  check : Check

namespace Demand

/-- The demand is met. No program is too large where there is no text. -/
def Met [Pattern.Engine] (ws : Workspace) (column : Text) (d : Demand) : Prop :=
  match d.check with
  | .found => ∃ loc e, ws.entry .use d.path = .ok (loc, e)
  | .readable => ∃ t, ws.HoldsText d.path t
  | .column => ∃ t, ws.HoldsText d.path t ∧
      ((Table.ofText t).isEmpty = true ∨ column ∈ (Table.ofText t).valueColumns)
  | .nesting => ∃ t trie p, ws.HoldsText d.path t ∧ trie.HasKeys (Table.ofText t) column ∧
      Pattern.parse? (Mapping.sourceOf trie) = some p ∧ p.depth ≤ Pattern.depthLimit
  | .size => ∀ t trie p, ws.HoldsText d.path t → trie.HasKeys (Table.ofText t) column →
      Pattern.parse? (Mapping.sourceOf trie) = some p →
        Pattern.Engine.programSize p ≤ Pattern.sizeLimit

/-- The error tells that the demand is not met. -/
def Reports (ws : Workspace) (column : Text) (d : Demand) (e : Error) : Prop :=
  match d.check with
  | .found => e = .mappingNotFound d.path
  | .readable => ∃ loc,
      (ws.entry .use d.path = .ok (loc, .folder) ∧ e = .mappingRead d.path .isFolder) ∨
      ∃ bytes, ws.entry .use d.path = .ok (loc, .file (.binary bytes)) ∧
        e = .mappingRead d.path .notText
  | .column => e = .missingColumn d.category column
  | .nesting => e = .invalidPattern d.category .tooDeep
  | .size => e = .invalidPattern d.category .tooLarge

variable {ws : Workspace} {column : Text} {d : Demand} {e e' : Error}

theorem Reports.unique (h : d.Reports ws column e) (k : d.Reports ws column e') : e = e' := by
  obtain ⟨category, path, check⟩ := d
  cases check with
  | found => exact h.trans k.symm
  | readable =>
      obtain ⟨loc, ⟨hentry, rfl⟩ | ⟨bytes, hentry, rfl⟩⟩ := h
      · obtain ⟨loc', ⟨hentry', rfl⟩ | ⟨bytes', hentry', rfl⟩⟩ := k
        · rfl
        · rw [hentry] at hentry'
          cases hentry'
      · obtain ⟨loc', ⟨hentry', rfl⟩ | ⟨bytes', hentry', rfl⟩⟩ := k
        · rw [hentry] at hentry'
          cases hentry'
        · rfl
  | column => exact h.trans k.symm
  | nesting => exact h.trans k.symm
  | size => exact h.trans k.symm

end Demand

/-! ## Results that depend on demands -/

/-- A result that is there if some demands are met, or the error of the first one that is not. -/
inductive Checked [Pattern.Engine] {α : Type} (ws : Workspace) (column : Text)
    (ds : List Demand) : Except Error α → Prop
  | ok (a : α) : (∀ d ∈ ds, d.Met ws column) → Checked ws column ds (.ok a)
  | error (d : Demand) (e : Error) : FirstFailing (Demand.Met ws column) ds d →
      d.Reports ws column e → Checked ws column ds (.error e)

namespace Checked

variable [Pattern.Engine] {α β : Type} {ws : Workspace} {column : Text} {ds ds' : List Demand}
  {r : Except Error α}

theorem filter (h : Checked ws column ds r) (keep : Demand → Bool)
    (hmet : ∀ d ∈ ds, keep d = false → d.Met ws column) :
    Checked ws column (ds.filter keep) r := by
  cases h with
  | ok a hall => exact .ok a fun d hd => hall d (List.mem_of_mem_filter hd)
  | error d e hfirst hreports =>
      exact .error d e (hfirst.filter hmet) hreports

/-- One result after another: the demands of the second come after those of the first. -/
theorem bind {f : α → Except Error β} (h : Checked ws column ds r)
    (hf : ∀ a, r = .ok a → Checked ws column ds' (f a)) :
    Checked ws column (ds ++ ds') (r.bind f) := by
  cases h with
  | error d e hfirst hreports => exact .error d e (hfirst.append_right ds') hreports
  | ok a hmet =>
      show Checked ws column (ds ++ ds') (f a)
      have hnext := hf a rfl
      revert hnext
      generalize f a = next
      intro hnext
      cases hnext with
      | ok b hmet' => exact .ok b (List.forall_mem_append.2 ⟨hmet, hmet'⟩)
      | error d e hfirst hreports => exact .error d e (hfirst.append_left hmet) hreports

end Checked

/-! ## One table -/

section Table

variable {ws : Workspace} {column : Text} {category : String} {p : Path} {t : Text}

theorem Workspace.holdsText_iff : ws.HoldsText p t ↔ ws.readText p = .ok t :=
  Workspace.readText_eq_ok_iff_entry.symm

theorem Workspace.HoldsText.unique {t' : Text} (h : ws.HoldsText p t) (k : ws.HoldsText p t') :
    t = t' := by
  rw [Workspace.holdsText_iff] at h k
  exact Except.ok.inj (h.symm.trans k)

theorem Table.load_of_holdsText (h : ws.HoldsText p t) :
    (Table.load ws p).result = .ok (Table.ofText t) := by
  have hread := Workspace.holdsText_iff.1 h
  obtain ⟨loc, hentry⟩ := h
  have hexists : ws.pathExists p = true := Workspace.pathExists_iff.2 ⟨_, hentry⟩
  unfold Table.load
  rw [hexists, hread]
  simp [Except.bind, Table.ofText]

theorem Table.load_of_error {cause : FileError} (hexists : ws.pathExists p = true)
    (h : ws.readText p = .error cause) :
    (Table.load ws p).result = .error (.mappingRead p cause) := by
  unfold Table.load
  rw [hexists, h]
  rfl

/-- A table is loaded from a path that leads to a text. -/
theorem Table.load_checked [Pattern.Engine] (ws : Workspace) (column : Text) (category : String)
    (p : Path) :
    Checked ws column [⟨category, p, .found⟩, ⟨category, p, .readable⟩]
      (Table.load ws p).result := by
  have hpath := @Workspace.pathExists_iff ws p
  by_cases hexists : ws.pathExists p = true
  · obtain ⟨⟨loc, e⟩, hentry⟩ := hpath.1 hexists
    have hfound : Demand.Met ws column ⟨category, p, .found⟩ := ⟨loc, e, hentry⟩
    -- what cannot be read is no text, so the second demand is the first one that is not met
    have hfails : (∀ t, e ≠ .file (.text t)) → FirstFailing (Demand.Met ws column)
        [⟨category, p, .found⟩, ⟨category, p, .readable⟩] ⟨category, p, .readable⟩ := by
      intro hne
      refine ⟨[⟨category, p, .found⟩], [], rfl, by simpa using hfound, ?_⟩
      rintro ⟨t, loc', hentry'⟩
      rw [hentry] at hentry'
      cases hentry'
      exact hne t rfl
    cases e with
    | folder =>
        have hread : ws.readText p = .error .isFolder := by
          rw [Workspace.readText, hentry]
          rfl
        rw [Table.load_of_error hexists hread]
        exact .error _ _ (hfails (by simp)) ⟨loc, Or.inl ⟨hentry, rfl⟩⟩
    | link target => exact absurd rfl (Workspace.ne_link_of_entry_use hentry)
    | file content =>
        cases content with
        | text t =>
            rw [Table.load_of_holdsText ⟨loc, hentry⟩]
            refine .ok _ (List.forall_mem_cons.2 ⟨hfound, List.forall_mem_singleton.2 ?_⟩)
            exact ⟨t, loc, hentry⟩
        | binary bytes =>
            have hread : ws.readText p = .error .notText := by
              rw [Workspace.readText, hentry]
              rfl
            rw [Table.load_of_error hexists hread]
            exact .error _ _ (hfails (by simp)) ⟨loc, Or.inr ⟨bytes, hentry, rfl⟩⟩
  · have hload : (Table.load ws p).result = .error (.mappingNotFound p) := by
      unfold Table.load
      rw [Bool.not_eq_true] at hexists
      rw [hexists]
      rfl
    rw [hload]
    refine .error ⟨category, p, .found⟩ _ (.head ?_) rfl
    rintro ⟨loc, e, hentry⟩
    exact hexists (hpath.2 ⟨_, hentry⟩)

/-- The keys that have a value are the members of one trie only. -/
theorem Trie.hasKeys_iff {trie : Trie} {table : Table} :
    trie.HasKeys table column ↔
      trie = Trie.ofList (Mapping.keysOf (table.columnValues column)) := by
  have hrep := Trie.Represents.ofList (Mapping.keysOf (table.columnValues column))
  have hkeys : ∀ key, (Trie.ofList (Mapping.keysOf (table.columnValues column))).contains key =
      true ↔ ∃ value, table.get? key column = some value ∧ value ≠ [] := by
    intro key
    rw [hrep.contains_iff, List.mem_toFinset, Mapping.mem_keysOf, Table.columnValues,
      Dict.get?_filterMap]
    rfl
  constructor
  · rintro ⟨hreach, hmembers⟩
    obtain ⟨s, hs⟩ := hreach.represents
    have hsame : s = (Mapping.keysOf (table.columnValues column)).toFinset := by
      ext key
      rw [← hs.contains_iff, hmembers, ← hkeys, hrep.contains_iff]
    exact hs.unique (hsame ▸ hrep)
  · rintro rfl
    exact ⟨Trie.Reachable.ofList _, hkeys⟩

section Engine

variable [Pattern.Engine]

theorem Demand.met_nesting_iff (h : ws.HoldsText p t) :
    Demand.Met ws column ⟨category, p, .nesting⟩ ↔
      (Trie.ofList (Mapping.keysOf ((Table.ofText t).columnValues column))).wordPattern.depth ≤
        Pattern.depthLimit := by
  constructor
  · rintro ⟨t', trie, pattern, h', hkeys, hparse, hdepth⟩
    obtain rfl := h.unique h'
    rw [Trie.hasKeys_iff.1 hkeys, Trie.parse?_sourceOf] at hparse
    cases hparse
    exact hdepth
  · intro hdepth
    exact ⟨t, _, _, h, Trie.hasKeys_iff.2 rfl, Trie.parse?_sourceOf _, hdepth⟩

theorem Demand.met_size_iff (h : ws.HoldsText p t) :
    Demand.Met ws column ⟨category, p, .size⟩ ↔
      Pattern.Engine.programSize (Trie.ofList
        (Mapping.keysOf ((Table.ofText t).columnValues column))).wordPattern ≤
          Pattern.sizeLimit := by
  constructor
  · exact fun hmet => hmet t _ _ h (Trie.hasKeys_iff.2 rfl) (Trie.parse?_sourceOf _)
  · intro hsize t' trie pattern h' hkeys hparse
    obtain rfl := h.unique h'
    rw [Trie.hasKeys_iff.1 hkeys, Trie.parse?_sourceOf] at hparse
    cases hparse
    exact hsize

theorem Demand.met_column_iff (h : ws.HoldsText p t) :
    Demand.Met ws column ⟨category, p, .column⟩ ↔
      ((Table.ofText t).isEmpty || (Table.ofText t).hasColumn column) = true := by
  rw [Bool.or_eq_true, Table.hasColumn, List.contains_iff_mem]
  constructor
  · rintro ⟨t', h', hcolumn⟩
    obtain rfl := h.unique h'
    exact hcolumn
  · intro hcolumn
    exact ⟨t, h, hcolumn⟩

/-- A mapping is made of the table of a text. -/
theorem Mapping.ofTable_checked (h : ws.HoldsText p t) (skipQuoted : Bool) :
    Checked ws column [⟨category, p, .column⟩, ⟨category, p, .nesting⟩, ⟨category, p, .size⟩]
      (Mapping.ofTable category (Table.ofText t) column skipQuoted).result := by
  by_cases hcolumn : ((Table.ofText t).isEmpty || (Table.ofText t).hasColumn column) = true
  · have hmet : Demand.Met ws column ⟨category, p, .column⟩ :=
      (Demand.met_column_iff h).2 hcolumn
    have hnesting : Demand.Met ws column ⟨category, p, .nesting⟩ ↔ _ := Demand.met_nesting_iff h
    have hsize : Demand.Met ws column ⟨category, p, .size⟩ ↔ _ := Demand.met_size_iff h
    rw [Mapping.ofTable_result hcolumn, Mapping.compile_result, Pattern.elim_fault?]
    split
    case isTrue hdepth =>
      split
      case isTrue hfits =>
        refine .ok _ (List.forall_mem_cons.2 ⟨hmet, List.forall_mem_cons.2 ⟨hnesting.2 hdepth,
          List.forall_mem_singleton.2 (hsize.2 hfits)⟩⟩)
      case isFalse hlarge =>
        refine .error ⟨category, p, .size⟩ _
          ⟨[⟨category, p, .column⟩, ⟨category, p, .nesting⟩], [], rfl, ?_, mt hsize.1 hlarge⟩ rfl
        exact List.forall_mem_cons.2 ⟨hmet, List.forall_mem_singleton.2 (hnesting.2 hdepth)⟩
    case isFalse hdeep =>
      refine .error ⟨category, p, .nesting⟩ _
        ⟨[⟨category, p, .column⟩], [⟨category, p, .size⟩], rfl, ?_, mt hnesting.1 hdeep⟩ rfl
      exact List.forall_mem_singleton.2 hmet
  · have hgiven : (Table.ofText t).isEmpty = false ∧ (Table.ofText t).hasColumn column = false := by
      simpa using hcolumn
    rw [Mapping.ofTable_cases, if_pos hgiven]
    refine .error ⟨category, p, .column⟩ _ (.head ?_) rfl
    rwa [Demand.met_column_iff h]

end Engine

end Table

/-! ## The decoder -/

/-- The demands of one table, in the order in which they are looked at. -/
def demandsOf (category : String) (p : Path) : List Demand :=
  [⟨category, p, .found⟩, ⟨category, p, .readable⟩, ⟨category, p, .column⟩,
    ⟨category, p, .nesting⟩, ⟨category, p, .size⟩]

/-- The demands of some settings: first those of the fields, then those of the methods. -/
def demands (settings : Settings) : List Demand :=
  demandsOf "fields" settings.fields ++ demandsOf "methods" settings.methods

namespace Decoder

variable [Pattern.Engine] {ws : Workspace} {settings : Settings} {category : String} {p : Path}

theorem loadMapping_result :
    (loadMapping ws settings category p).result = (Table.load ws p).result.bind fun table =>
      (Mapping.ofTable category table settings.column settings.skipQuoted).result := by
  unfold loadMapping
  simp only [Traced.result_bind, Traced.result_report, Traced.result_pure]
  refine congrArg (Except.bind _) (funext fun table => ?_)
  cases (Mapping.ofTable category table settings.column settings.skipQuoted).result <;> rfl

theorem load_result :
    (load ws settings).result =
      (loadMapping ws settings "fields" settings.fields).result.bind fun fields =>
        (loadMapping ws settings "methods" settings.methods).result.bind fun methods =>
          .ok [fields, methods] := by
  unfold load
  simp only [Traced.result_bind, Traced.result_pure]

/-- The demands of one table, one after another. -/
theorem loadMapping_checked (ws : Workspace) (settings : Settings) (category : String)
    (p : Path) :
    Checked ws settings.column (demandsOf category p)
      (loadMapping ws settings category p).result := by
  rw [loadMapping_result]
  refine (Table.load_checked ws settings.column category p).bind fun table htable => ?_
  obtain ⟨t, hread, rfl⟩ := Command.load_eq_ok htable
  exact Mapping.ofTable_checked (Workspace.holdsText_iff.2 hread) settings.skipQuoted

/-- **The demands of a decoder.** Those of the fields come before those of the methods. -/
theorem load_checked (ws : Workspace) (settings : Settings) :
    Checked ws settings.column (demands settings) (load ws settings).result := by
  rw [load_result]
  refine (loadMapping_checked ws settings "fields" settings.fields).bind fun fields _ => ?_
  have hmethods := loadMapping_checked ws settings "methods" settings.methods
  rw [← List.append_nil (demandsOf "methods" settings.methods)]
  exact hmethods.bind fun methods _ => .ok _ (List.forall_mem_nil _)

end Decoder

/-! ## Runs that cannot go on -/

namespace Command

variable {s : Surroundings} {e : Error}

end Command

end Unmangle
