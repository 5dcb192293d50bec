import Unmangle.Config.Cascade
import Unmangle.Proofs.Config.Merging
import Unmangle.Proofs.Files.Visits

set_option autoImplicit false

/-! # Extensions that select something

What a configuration says about extensions is looked at three times: validation refuses an entry
that has nothing after its leading dots, merging drops these dots, and a file is selected by what
follows the last dot of its name. An entry that is left after merging selects some file name if it
has no dot and no slash, since neither can stand in what follows the last dot of a name
(`exists_hasExtension_iff`). Validation does not look for them, and it accepts the list without
entries as well, so it also accepts lists with which every run leaves all files as they are
(`Workspace.process_of_no_extension`).

* `Config.validate_eq_ok_iff`: what validation accepts.
* `Settings.value_merge_of_said`: the setting of the first configuration that makes it.
* `Settings.merge_extensions_select`: the main statement.
-/

namespace Unmangle

/-! ## File names -/

/-- What can follow the last dot of a file name. -/
def CanEndName (extension : Text) : Prop := '.' ∉ extension ∧ '/' ∉ extension

instance (extension : Text) : Decidable (CanEndName extension) :=
  inferInstanceAs (Decidable (_ ∧ _))

/-- A name without slashes is the file name of the path that it is, unless it leads elsewhere. -/
theorem Path.fileName?_of_name {name : Text} (hslash : '/' ∉ name)
    (htrivial : isTrivial name = false) (hup : name ≠ ['.', '.']) :
    Path.fileName? ⟨name⟩ = some name := by
  have hne : name ≠ [] := by
    rintro rfl
    cases htrivial
  refine fileName?_eq_some_iff.2 ⟨hup, [], ?_⟩
  rw [moves, Tree.namesOf_of_not_mem hslash hne]
  simp [htrivial]

/-- A path can only end in what can end a name. -/
theorem Path.EndsIn.canEndName {p : Path} {extension : Text} (h : p.EndsIn extension) :
    CanEndName extension := by
  obtain ⟨hdot, stem, -, hname⟩ := h
  obtain ⟨-, hslash, -⟩ := isTrivial_fileName hname
  exact ⟨hdot, fun hmem => hslash (by simp [hmem])⟩

/-- The shortest names end in what can end a name. -/
theorem endsIn_shortest {extension : Text} (h : CanEndName extension) :
    Path.EndsIn ⟨'x' :: '.' :: extension⟩ extension := by
  refine ⟨h.1, ['x'], List.cons_ne_nil _ _, Path.fileName?_of_name ?_ ?_ ?_⟩
  · simpa using h.2
  · simp [Path.isTrivial]
  · simp

/-- Some file name has one of the extensions exactly if one of them can end a name. -/
theorem exists_hasExtension_iff {extensions : List Text} :
    (∃ name : Text, '/' ∉ name ∧ hasExtension ⟨name⟩ extensions = true) ↔
      ∃ e ∈ extensions, CanEndName e := by
  constructor
  · rintro ⟨name, -, hname⟩
    obtain ⟨e, he, hends⟩ := hasExtension_iff.1 hname
    exact ⟨e, he, hends.canEndName⟩
  · rintro ⟨e, he, hcan⟩
    have hslash : '/' ∉ 'x' :: '.' :: e := by simpa using hcan.2
    exact ⟨'x' :: '.' :: e, hslash, hasExtension_iff.2 ⟨e, he, endsIn_shortest hcan⟩⟩

/-- Where no extension can end a name, a run decodes nothing: all files stay as they are, and only
the number of paths that were passed over grows. -/
theorem Workspace.process_of_no_extension (ws : Workspace) (d : Decoder) (options : ProcessOptions)
    (r : Report) (p : Path) (h : ∀ e ∈ options.extensions, ¬ CanEndName e) :
    (ws.process d options r p).workspace = ws ∧ (ws.process d options r p).failure = none ∧
      (ws.process d options r p).report =
        { r with skipped := (ws.process d options r p).report.skipped } := by
  have hfiles : (ws.walk p).filterMap (·.selected? options.extensions) = [] := by
    refine List.eq_nil_iff_forall_not_mem.2 fun q hq => ?_
    obtain ⟨-, hextension⟩ := mem_selection_iff.1 hq
    obtain ⟨e, he, hends⟩ := hasExtension_iff.1 hextension
    exact h e he hends.canEndName
  rw [process, hfiles]
  exact ⟨rfl, rfl, rfl⟩

/-! ## Validation and merging -/

/-- Validation accepts a configuration whose column is not blank and each of whose extensions has
something after its leading dots. -/
theorem Config.validate_eq_ok_iff {c : Config} :
    c.validate = .ok () ↔ (∀ column, c.column = some column → column.isBlank = false) ∧
      ∀ given, c.extensions = some given → ∀ e ∈ given, e.dropDots ≠ [] := by
  rw [validate]
  split
  · rename_i hcolumn
    obtain ⟨column, hsome, hblank⟩ := (Option.any_eq_true _ _).1 hcolumn
    refine iff_of_false (by simp) fun h => ?_
    rw [h.1 column hsome] at hblank
    cases hblank
  · rename_i hcolumn
    have hnamed : ∀ column, c.column = some column → column.isBlank = false := by
      intro column hsome
      simpa [hsome] using hcolumn
    split
    · rename_i hextensions
      obtain ⟨given, hsome, hany⟩ := (Option.any_eq_true _ _).1 hextensions
      obtain ⟨e, he, hempty⟩ := List.any_eq_true.1 hany
      refine iff_of_false (by simp) fun h => ?_
      exact h.2 given hsome e he (List.isEmpty_iff.1 hempty)
    · rename_i hextensions
      refine iff_of_true rfl ⟨hnamed, fun given hsome e he hempty => hextensions ?_⟩
      rw [hsome, Option.any_some]
      exact List.any_eq_true.2 ⟨e, he, List.isEmpty_iff.2 hempty⟩

namespace Settings

open Key

variable {start : Path} {before after : List LoadedConfig} {l : LoadedConfig}

/-- A merged setting is what the first configuration means that says anything about it. -/
theorem value_merge_of_said {k : Key} {said : k.Value}
    (hbefore : ∀ m ∈ before, k.said m.config = none) (hsaid : k.said l.config = some said) :
    value (merge (before ++ l :: after) start) k = k.meaning start l.path said := by
  have hnone : before.findSome? (made? start k) = none :=
    List.findSome?_eq_none_iff.2 fun m hm => made?_eq_none_iff.2 (hbefore m hm)
  have hmade : made? start k l = some (k.meaning start l.path said) := by
    rw [made?, hsaid, Option.map_some]
  rw [value_merge, List.findSome?_append, hnone, List.findSome?_cons, hmade]
  rfl

/-- **Extensions that select something.** Where a valid configuration is the first one that makes
the list of extensions, the merged list has its entries without their leading dots, and none of
them is empty. An entry selects some file name exactly if it has no dot and no slash, and the list
does exactly if one of its entries does. With a list that selects no file name every run leaves the
workspace as it is. -/
theorem merge_extensions_select (start : Path) (before after : List LoadedConfig)
    (l : LoadedConfig) {given : List Text} (hbefore : ∀ m ∈ before, m.config.extensions = none)
    (hgiven : l.config.extensions = some given) (hvalid : l.config.validate = .ok ()) :
    let kept := (merge (before ++ l :: after) start).extensions
    List.Forall₂ WithoutDots given kept ∧ (∀ e ∈ kept, e ≠ []) ∧
    (∀ e ∈ kept, (∃ name : Text, '/' ∉ name ∧ hasExtension ⟨name⟩ [e] = true) ↔
      '.' ∉ e ∧ '/' ∉ e) ∧
    ((∃ name : Text, '/' ∉ name ∧ hasExtension ⟨name⟩ kept = true) ↔
      ∃ e ∈ kept, '.' ∉ e ∧ '/' ∉ e) ∧
    ((¬ ∃ name : Text, '/' ∉ name ∧ hasExtension ⟨name⟩ kept = true) →
      ∀ (ws : Workspace) (d : Decoder) (inPlace : Bool) (r : Report) (p : Path),
        (ws.process d ⟨kept, inPlace⟩ r p).workspace = ws) := by
  intro kept
  have hkept : kept = given.map Text.dropDots :=
    value_merge_of_said (k := .extensions) hbefore hgiven
  refine ⟨hkept ▸ withoutDots_map given, fun e he => ?_, fun e _ => ?_, exists_hasExtension_iff,
    fun hnone ws d inPlace r p => ?_⟩
  · rw [hkept] at he
    obtain ⟨e', he', rfl⟩ := List.mem_map.1 he
    exact (Config.validate_eq_ok_iff.1 hvalid).2 given hgiven e' he'
  · rw [exists_hasExtension_iff]
    simp [CanEndName]
  · have hcannot : ∀ e ∈ kept, ¬ CanEndName e := fun e he hcan =>
      hnone (exists_hasExtension_iff.2 ⟨e, he, hcan⟩)
    exact (ws.process_of_no_extension d ⟨kept, inPlace⟩ r p hcannot).1

/-- A list with an entry that selects files and one that cannot, between a file that says nothing
about extensions and one that says something else. -/
theorem merge_extensions_select_mixed :
    let silent : LoadedConfig :=
      ⟨{ Config.empty with column := some "desc".toList }, .ofString "/w/p/.demap.toml"⟩
    let mixed : LoadedConfig :=
      ⟨{ Config.empty with extensions := some ["..kt".toList, "tar.gz".toList] },
        .ofString "/w/.demap.toml"⟩
    let other : LoadedConfig :=
      ⟨{ Config.empty with extensions := some ["java".toList] }, .ofString "/.demap.toml"⟩
    let kept := (merge [silent, mixed, other] (.ofString "/w/p")).extensions
    kept = ["kt".toList, "tar.gz".toList] ∧
      (∃ name : Text, '/' ∉ name ∧ hasExtension ⟨name⟩ kept = true) ∧
      ¬ ∃ name : Text, '/' ∉ name ∧ hasExtension ⟨name⟩ ["tar.gz".toList] = true := by
  intro silent mixed other kept
  have hkept : kept = ["kt".toList, "tar.gz".toList] := by decide
  obtain ⟨-, -, hentries, hlist, -⟩ := merge_extensions_select (.ofString "/w/p") [silent] [other]
    mixed (List.forall_mem_singleton.2 rfl) rfl rfl
  have hfirst : "kt".toList ∈ kept := by rw [hkept]; decide
  have hsecond : "tar.gz".toList ∈ kept := by rw [hkept]; decide
  refine ⟨hkept, hlist.2 ⟨"kt".toList, hfirst, by decide⟩, fun hname => ?_⟩
  exact absurd ((hentries _ hsecond).1 hname).1 (by decide)

/-- Validation accepts a list without entries and one whose only entry has a dot inside, and neither
selects a file name. -/
theorem valid_extensions_select_nothing :
    ∃ empty inner : Config, ∃ path start : Path,
      Config.ofText "extensions = []\n".toList path = .ok empty ∧
      empty.extensions = some [] ∧ empty.validate = .ok () ∧
      (¬ ∃ name : Text, '/' ∉ name ∧
        hasExtension ⟨name⟩ (merge [⟨empty, path⟩] start).extensions = true) ∧
      Config.ofText "extensions = [\"tar.gz\"]\n".toList path = .ok inner ∧
      inner.extensions = some ["tar.gz".toList] ∧ inner.validate = .ok () ∧
      ¬ ∃ name : Text, '/' ∉ name ∧
        hasExtension ⟨name⟩ (merge [⟨inner, path⟩] start).extensions = true := by
  let empty : Config := { Config.empty with extensions := some [] }
  let inner : Config := { Config.empty with extensions := some ["tar.gz".toList] }
  have hempty : (merge [⟨empty, .ofString ".demap.toml"⟩] (.ofString ".")).extensions = [] := by
    decide
  have hinner : (merge [⟨inner, .ofString ".demap.toml"⟩] (.ofString ".")).extensions =
      ["tar.gz".toList] := by decide
  refine ⟨empty, inner, .ofString ".demap.toml", .ofString ".", by decide +kernel, rfl, rfl,
    fun hname => ?_, by decide +kernel, rfl, rfl, fun hname => ?_⟩
  · rw [hempty, exists_hasExtension_iff] at hname
    simp at hname
  · rw [hinner, exists_hasExtension_iff] at hname
    obtain ⟨e, he, hdot, -⟩ := hname
    rw [List.mem_singleton.1 he] at hdot
    exact absurd hdot (by decide)

end Settings

end Unmangle
