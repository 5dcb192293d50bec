import Mathlib.Data.List.Forall2
import Unmangle.Config.Settings

set_option autoImplicit false

/-! # Merged settings

Configurations are merged one after another, the most specific one first, and each of them makes
only the settings that are still missing. So a setting is what the first configuration says that
says anything about it, seen from the folder of its file, and the default if none does
(`Settings.IsFirst`).

The five settings are told by a type of keys, so that a fact about all of them is one statement:

* `Settings.Draft.made_add`: what one more configuration adds to a setting.
* `Settings.Draft.made_foldl`: what some configurations add to it.
* `Settings.value_merge`: a merged setting as the first thing that is said about it.
* `Settings.merge_firsts`: the main statement.
-/

namespace Unmangle

namespace Text

/-- Only the leading dots of a text are dropped, and all of them. -/
theorem dropDots_spec (t : Text) :
    ∃ n, t = List.replicate n '.' ++ t.dropDots ∧ t.dropDots.head? ≠ some '.' := by
  have hdots : t.takeWhile (· == '.') = List.replicate (t.takeWhile (· == '.')).length '.' := by
    refine List.eq_replicate_of_mem fun c hc => ?_
    simpa using List.all_eq_true.1 List.all_takeWhile c hc
  refine ⟨(t.takeWhile (· == '.')).length, ?_, fun hhead => ?_⟩
  · rw [← hdots]
    exact List.takeWhile_append_dropWhile.symm
  · have hnot := List.head?_dropWhile_not (· == '.') t
    rw [← dropDots, hhead] at hnot
    cases hnot

end Text

namespace Settings

/-! ## The five settings -/

/-- A setting that configurations can make. -/
inductive Key where
  | fields
  | methods
  | column
  | extensions
  | skipQuoted
  deriving DecidableEq

namespace Key

def Value : Key → Type
  | fields => Path
  | methods => Path
  | column => Text
  | extensions => List Text
  | skipQuoted => Bool

/-- What a configuration says about a setting. -/
def said : (k : Key) → Config → Option k.Value
  | fields, c => c.fields
  | methods, c => c.methods
  | column, c => c.column
  | extensions, c => c.extensions
  | skipQuoted, c => c.skipQuoted

def fallback (start : Path) : (k : Key) → k.Value
  | fields => start.join (.ofString "fields.csv")
  | methods => start.join (.ofString "methods.csv")
  | column => "name".toList
  | extensions => ["java".toList]
  | skipQuoted => true

def value (s : Settings) : (k : Key) → k.Value
  | fields => s.fields
  | methods => s.methods
  | column => s.column
  | extensions => s.extensions
  | skipQuoted => s.skipQuoted

/-- The path that a file names is seen from the folder of the file, or from the start folder if the
path of the file has no parent. An absolute path stays as it is. -/
def SeenFrom (start file p q : Path) : Prop :=
  q = if p.isAbsolute then p else (file.parent?.getD start).join p

def WithoutDots (t u : Text) : Prop := ∃ n, t = List.replicate n '.' ++ u ∧ u.head? ≠ some '.'

/-- What a file says about a setting means a value. -/
def Means (start file : Path) : (k : Key) → k.Value → k.Value → Prop
  | fields, p, q => SeenFrom start file p q
  | methods, p, q => SeenFrom start file p q
  | column, name, name' => name' = name
  | extensions, given, kept => List.Forall₂ WithoutDots given kept
  | skipQuoted, flag, flag' => flag' = flag

/-- The value that is made of what a file says about a setting. -/
def meaning (start file : Path) : (k : Key) → k.Value → k.Value
  | fields, p => (file.parent?.getD start).join p
  | methods, p => (file.parent?.getD start).join p
  | column, name => name
  | extensions, given => given.map Text.dropDots
  | skipQuoted, flag => flag

theorem seenFrom_join (start file p : Path) :
    SeenFrom start file p ((file.parent?.getD start).join p) := by
  unfold SeenFrom
  by_cases habsolute : p.isAbsolute = true
  · rw [Path.join, if_pos habsolute, if_pos habsolute]
  · rw [if_neg habsolute]

theorem withoutDots_map (given : List Text) :
    List.Forall₂ WithoutDots given (given.map Text.dropDots) := by
  rw [List.forall₂_map_right_iff, List.forall₂_same]
  exact fun t _ => Text.dropDots_spec t

theorem means_meaning (start file : Path) (k : Key) (said : k.Value) :
    k.Means start file said (k.meaning start file said) := by
  cases k with
  | fields => exact seenFrom_join start file said
  | methods => exact seenFrom_join start file said
  | column => rfl
  | extensions => exact withoutDots_map said
  | skipQuoted => rfl

end Key

open Key

variable {start : Path} {k : Key} {l : LoadedConfig} {configs more : List LoadedConfig}

/-- Settings are the five values and the files they come from. -/
theorem eq_of_value {s s' : Settings} (hvalue : ∀ k, value s k = value s' k)
    (hsources : s.sources = s'.sources) : s = s' := by
  obtain ⟨fields, methods, column, extensions, skipQuoted, sources⟩ := s
  obtain rfl := hvalue .fields
  obtain rfl := hvalue .methods
  obtain rfl := hvalue .column
  obtain rfl := hvalue .extensions
  obtain rfl := hvalue .skipQuoted
  obtain rfl := hsources
  rfl

/-! ## Merging -/

/-- The value that the file of a configuration gives to a setting, if it says anything about it. -/
def made? (start : Path) (k : Key) (l : LoadedConfig) : Option k.Value :=
  (k.said l.config).map (k.meaning start l.path)

namespace Draft

def made (d : Draft) : (k : Key) → Option k.Value
  | .fields => d.fields
  | .methods => d.methods
  | .column => d.column
  | .extensions => d.extensions.map (·.map Text.dropDots)
  | .skipQuoted => d.skipQuoted

/-- A configuration makes a setting that is missing, whatever it says about the others. -/
theorem made_add (start : Path) (d : Draft) (l : LoadedConfig) (k : Key) :
    (d.add start l).made k = (d.made k).or (made? start k l) := by
  cases k with
  | fields => rfl
  | methods => rfl
  | column =>
      show d.column.or l.config.column = d.column.or (l.config.column.map fun name => name)
      rw [Option.map_id']
  | extensions => exact Option.map_or
  | skipQuoted =>
      show d.skipQuoted.or l.config.skipQuoted =
        d.skipQuoted.or (l.config.skipQuoted.map fun flag => flag)
      rw [Option.map_id']

/-- Some configurations make a setting that is missing if one of them says anything about it: by
induction on the configurations, from any settings that are made before. -/
theorem made_foldl (start : Path) (d : Draft) (configs : List LoadedConfig) (k : Key) :
    (configs.foldl (add start) d).made k = (d.made k).or (configs.findSome? (made? start k)) := by
  induction configs generalizing d with
  | nil => simp
  | cons l configs ih =>
      rw [List.foldl_cons, ih, made_add, Option.or_assoc, List.findSome?_cons]
      cases made? start k l with
      | none => rfl
      | some value => rfl

theorem sources_foldl (start : Path) (d : Draft) (configs : List LoadedConfig) :
    (configs.foldl (add start) d).sources = d.sources ++ configs.map (·.path) := by
  induction configs generalizing d with
  | nil => simp
  | cons l configs ih =>
      rw [List.foldl_cons, ih, List.map_cons, List.append_cons]
      rfl

theorem value_complete (start : Path) (d : Draft) (k : Key) :
    value (d.complete start) k = (d.made k).getD (k.fallback start) := by
  cases k <;> rfl

end Draft

/-- A merged setting is the first value that a file gives it, or else the default. -/
theorem value_merge (configs : List LoadedConfig) (start : Path) (k : Key) :
    value (merge configs start) k =
      (configs.findSome? (made? start k)).getD (k.fallback start) := by
  have hempty : Draft.empty.made k = none := by cases k <;> rfl
  rw [merge, Draft.value_complete, Draft.made_foldl, hempty, Option.none_or]

theorem sources_merge (configs : List LoadedConfig) (start : Path) :
    (merge configs start).sources = configs.map (·.path) :=
  Draft.sources_foldl start .empty configs

/-- The value of a setting that the first of some configurations gives it, among those that say
anything about it; the default if none does. -/
def IsFirst (configs : List LoadedConfig) (start : Path) (k : Key) (v : k.Value) : Prop :=
  (∃ before l after said, configs = before ++ l :: after ∧
    (∀ m ∈ before, k.said m.config = none) ∧ k.said l.config = some said ∧
      k.Means start l.path said v) ∨
  (∀ l ∈ configs, k.said l.config = none) ∧ v = k.fallback start

theorem made?_eq_none_iff : made? start k l = none ↔ k.said l.config = none :=
  Option.map_eq_none_iff

theorem isFirst_merge (configs : List LoadedConfig) (start : Path) (k : Key) :
    IsFirst configs start k (value (merge configs start) k) := by
  rw [value_merge]
  cases hfirst : configs.findSome? (made? start k) with
  | none =>
      rw [List.findSome?_eq_none_iff] at hfirst
      exact .inr ⟨fun l hl => made?_eq_none_iff.1 (hfirst l hl), rfl⟩
  | some v =>
      obtain ⟨before, l, after, hconfigs, hl, hbefore⟩ := List.findSome?_eq_some_iff.1 hfirst
      obtain ⟨said, hsaid, rfl⟩ := Option.map_eq_some_iff.1 hl
      refine .inl ⟨before, l, after, said, hconfigs, ?_, hsaid, means_meaning _ _ k said⟩
      exact fun m hm => made?_eq_none_iff.1 (hbefore m hm)

/-! ## More configurations -/

def isSaid (configs : List LoadedConfig) (k : Key) : Bool :=
  configs.any fun l => (k.said l.config).isSome

theorem isSome_findSome?_made? (configs : List LoadedConfig) (start : Path) (k : Key) :
    (configs.findSome? (made? start k)).isSome = isSaid configs k := by
  rw [Bool.eq_iff_iff, List.findSome?_isSome_iff, isSaid, List.any_eq_true]
  simp only [made?, Option.isSome_map]

/-- What is said later counts only where nothing is said before. -/
theorem value_merge_append (configs more : List LoadedConfig) (start : Path) (k : Key) :
    value (merge (configs ++ more) start) k =
      if isSaid configs k then value (merge configs start) k else value (merge more start) k := by
  rw [value_merge, value_merge, value_merge, List.findSome?_append,
    ← isSome_findSome?_made? configs start k]
  cases configs.findSome? (made? start k) with
  | none => rfl
  | some v => rfl

theorem value_merge_of_not_isSaid (h : isSaid configs k = false) :
    value (merge configs start) k = k.fallback start := by
  rw [← isSome_findSome?_made? configs start k, Option.isSome_eq_false_iff,
    Option.isNone_iff_eq_none] at h
  rw [value_merge, h]
  rfl

/-- A configuration that is there already changes no setting. -/
theorem value_merge_concat (h : l ∈ configs) (k : Key) :
    value (merge (configs ++ [l]) start) k = value (merge configs start) k := by
  rw [value_merge_append]
  cases hsaid : isSaid configs k with
  | true => rfl
  | false =>
      -- it says nothing either, so both values are the default
      have hlast : isSaid [l] k = false := by
        rw [isSaid, List.any_eq_false] at hsaid ⊢
        exact List.forall_mem_singleton.2 (hsaid l h)
      rw [if_neg Bool.false_ne_true, value_merge_of_not_isSaid hlast,
        value_merge_of_not_isSaid hsaid]

/-- Files that say the same about one setting give it the same value, whatever they say about the
other ones. -/
theorem value_merge_congr
    (h : List.Forall₂ (fun l m => l.path = m.path ∧ k.said l.config = k.said m.config)
      configs more) : value (merge configs start) k = value (merge more start) k := by
  rw [value_merge, value_merge]
  congr 1
  induction h with
  | nil => rfl
  | cons hsame _ ih =>
      rw [List.findSome?_cons, List.findSome?_cons, ih, made?, made?, hsame.1, hsame.2]

/-- **Merged settings.** Each of the five settings is what the first configuration says that says
anything about it, whatever is said about the other settings, and the default if none does. So with
more configurations at the end it stays as it is where something was said about it, and is what
the others make it where nothing was. A configuration that is there already changes nothing but the
list of files, which has all of them in order. -/
theorem merge_firsts (configs : List LoadedConfig) (start : Path) :
    (∀ k, IsFirst configs start k (value (merge configs start) k)) ∧
    (merge configs start).sources = configs.map (·.path) ∧
    (∀ configs' k, List.Forall₂ (fun l m => l.path = m.path ∧ k.said l.config = k.said m.config)
      configs configs' → value (merge configs start) k = value (merge configs' start) k) ∧
    (∀ more k, value (merge (configs ++ more) start) k =
      if isSaid configs k then value (merge configs start) k
      else value (merge more start) k) ∧
    ∀ l ∈ configs, merge (configs ++ [l]) start =
      { merge configs start with sources := configs.map (·.path) ++ [l.path] } := by
  refine ⟨isFirst_merge configs start, sources_merge configs start,
    fun configs' k h => value_merge_congr h,
    fun more k => value_merge_append configs more start k, fun l hl => ?_⟩
  apply eq_of_value
  · intro k
    rw [value_merge_concat hl]
    cases k <;> rfl
  · rw [sources_merge, List.map_append]
    rfl

/-- A file without a folder, a second one that names an absolute path and a path beside it, and the
first one again. -/
theorem merge_firsts_three :
    let first : LoadedConfig :=
      ⟨{ Config.empty with column := some "desc".toList }, .ofString ""⟩
    let second : LoadedConfig :=
      ⟨{ Config.empty with
          fields := some (.ofString "/t/f.csv"), methods := some (.ofString "m.csv"),
          column := some "name".toList, extensions := some ["..kt".toList] },
        .ofString "/w/.demap.toml"⟩
    let other : LoadedConfig := { second with config := { second.config with fields := none } }
    let start := Path.ofString "/w/p"
    let merged := merge [first, second] start
    merged = ⟨.ofString "/t/f.csv", .ofString "/w/m.csv", "desc".toList, ["kt".toList], true,
        [.ofString "", .ofString "/w/.demap.toml"]⟩ ∧
      merged.methods = (merge [first, other] start).methods ∧
      merge [first, second, first] start =
        { merged with sources := [.ofString "", .ofString "/w/.demap.toml", .ofString ""] } := by
  intro first second other start merged
  obtain ⟨-, -, hcongr, -, hagain⟩ := merge_firsts [first, second] start
  have hsame : List.Forall₂ (fun l m => l.path = m.path ∧
      Key.said .methods l.config = Key.said .methods m.config) [first, second] [first, other] :=
    .cons ⟨rfl, rfl⟩ (.cons ⟨rfl, rfl⟩ .nil)
  exact ⟨by decide, hcongr [first, other] .methods hsame, hagain first List.mem_cons_self⟩

end Settings

end Unmangle
