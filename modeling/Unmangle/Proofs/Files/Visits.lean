import Mathlib.Data.List.TakeWhile
import Unmangle.Proofs.Files.Places
import Unmangle.Proofs.Files.Selection

set_option autoImplicit false

/-! # What a walk visits

The files that a walk visits can be told from the tree (`Workspace.Visits`): the one that the given
path leads to, or the ones below the folder that it leads to, through a link or not, as far as the
folders can be listed. A walk lists each of them once, in the order of their locations.

* `Workspace.opens_of_mem_listed`: a walk gets no further than a folder that is closed.
* `Workspace.mem_selection_iff`: the files that are decoded are those that are visited and have one
  of the extensions, which is what follows the last dot of their names (`hasExtension_iff`).
* `Workspace.selection_ascending`: they stand at ascending locations.
* `Workspace.length_selection_add`: with what is skipped they are all that is visited except
  folders, where each entry counts once (`Workspace.visitCount`), and each folder that is closed
  (`Workspace.closedCount`).
-/

namespace Unmangle

/-! ## Extensions -/

namespace Path

variable {p : Path} {name stem extension : Text}

/-- What follows the last dot of the file name, if the dot does not open the name. -/
def EndsIn (p : Path) (extension : Text) : Prop :=
  '.' ∉ extension ∧ ∃ stem, stem ≠ [] ∧ p.fileName? = some (stem ++ '.' :: extension)

theorem cutName_eq_some_iff (hup : name ≠ ['.', '.']) :
    cutName name = (stem, some extension) ↔
      '.' ∉ extension ∧ stem ≠ [] ∧ name = stem ++ '.' :: extension := by
  constructor
  · intro h
    obtain ⟨hstem, hname⟩ := cutName_eq h
    refine ⟨?_, hstem, hname⟩
    rw [cutName, if_neg hup] at h
    split at h
    · cases h
    split at h
    · cases h
    obtain ⟨-, rfl⟩ : _ ∧ (name.reverse.takeWhile (· != '.')).reverse = extension := by
      simpa using h
    intro hdot
    simpa using List.mem_takeWhile_imp (List.mem_reverse.1 hdot)
  · rintro ⟨hdot, hstem, rfl⟩
    have hplain : ∀ c ∈ extension.reverse, (c != '.') = true := by
      intro c hc
      simp only [bne_iff_ne]
      rintro rfl
      exact hdot (List.mem_reverse.1 hc)
    have hreverse : (stem ++ '.' :: extension).reverse =
        extension.reverse ++ '.' :: stem.reverse := by simp
    rw [cutName, if_neg hup, hreverse, List.dropWhile_append_of_pos hplain,
      List.takeWhile_append_of_pos hplain]
    simp [hstem]

theorem extension?_eq_some_iff : p.extension? = some extension ↔ p.EndsIn extension := by
  rw [extension?, EndsIn]
  cases hname : p.fileName? with
  | none => simp
  | some name =>
      have hup := (fileName?_eq_some_iff.1 hname).1
      constructor
      · intro h
        obtain ⟨hdot, hstem, heq⟩ := (cutName_eq_some_iff hup).1 (Prod.ext rfl h)
        exact ⟨hdot, _, hstem, congrArg some heq⟩
      · rintro ⟨hdot, stem, hstem, heq⟩
        have hcut := (cutName_eq_some_iff hup).2 ⟨hdot, hstem, Option.some.inj heq⟩
        exact congrArg Prod.snd hcut

end Path

theorem hasExtension_iff {p : Path} {extensions : List Text} :
    hasExtension p extensions = true ↔ ∃ extension ∈ extensions, p.EndsIn extension := by
  simp only [← Path.extension?_eq_some_iff, hasExtension]
  cases p.extension? with
  | none => simp
  | some extension => simp

/-! ## Below a location -/

namespace Tree

variable {t : Tree} {base loc names : Location} {e : Entry}

def isBelow (base loc : Location) : Bool := base.isPrefixOf loc && loc != base

theorem isBelow_iff : isBelow base loc = true ↔ ∃ names, names ≠ [] ∧ loc = base ++ names := by
  rw [isBelow, Bool.and_eq_true, List.isPrefixOf_iff_prefix, bne_iff_ne]
  constructor
  · rintro ⟨⟨names, rfl⟩, hne⟩
    refine ⟨names, ?_, rfl⟩
    rintro rfl
    exact hne (List.append_nil base)
  · rintro ⟨names, hne, rfl⟩
    exact ⟨List.prefix_append base names, fun h => hne (List.append_right_eq_self.1 h)⟩

/-- What is listed below a location is a part of the entries, in their order. -/
theorem map_below (t : Tree) (base : Location) :
    (t.below base).map (fun x => (base ++ x.1, x.2)) =
      t.entries.entries.filter (isBelow base ·.1) := by
  rw [below, List.map_filterMap, ← List.filterMap_eq_filter]
  congr 1
  funext x
  obtain ⟨loc, e⟩ := x
  by_cases hbelow : isBelow base loc = true
  · obtain ⟨names, hne, hloc⟩ := isBelow_iff.1 hbelow
    obtain ⟨n, names, rfl⟩ := List.exists_cons_of_ne_nil hne
    have hrelative : relative? base loc = some (n :: names) := relative?_eq_some_iff.2 hloc
    simp only [hrelative, Option.map_some, Option.guard, hbelow, if_true, ← hloc]
  · simp only [Option.guard, hbelow]
    cases hrelative : relative? base loc with
    | none => rfl
    | some names =>
        cases names with
        | nil => rfl
        | cons n names =>
            have hloc := relative?_eq_some_iff.1 hrelative
            exact absurd (isBelow_iff.2 ⟨n :: names, List.cons_ne_nil n names, hloc⟩) hbelow

theorem mem_below_iff :
    (names, e) ∈ t.below base ↔ names ≠ [] ∧ t.get? (base ++ names) = some e := by
  refine ⟨get?_of_mem_below, ?_⟩
  rintro ⟨hne, hget⟩
  have hnil : base ++ names ≠ [] := fun h => hne (List.append_eq_nil_iff.1 h).2
  rw [get?, if_neg hnil] at hget
  have hentry : (base ++ names, e) ∈ t.entries.entries.filter (isBelow base ·.1) :=
    List.mem_filter.2 ⟨Dict.get?_eq_some_iff.1 hget, isBelow_iff.2 ⟨names, hne, rfl⟩⟩
  rw [← map_below] at hentry
  obtain ⟨⟨names', e'⟩, hmem, heq⟩ := List.mem_map.1 hentry
  obtain ⟨rfl, rfl⟩ : names' = names ∧ e' = e := by simpa using heq
  exact hmem

/-- What is listed below a location stands at ascending locations. -/
theorem below_ascending (t : Tree) (base : Location) :
    (t.below base).Pairwise fun x y => compare (base ++ x.1) (base ++ y.1) = .lt := by
  have hmap := t.entries.ascending.filter (isBelow base ·.1)
  rw [← map_below] at hmap
  exact List.pairwise_map.1 hmap

/-! ## Links at the end of a way -/

/-- What is found through links is no link. -/
theorem Leads.ne_link {links : Nat} {here loc : Location} {steps : List Text} {target : Text}
    {f : Found} (h : t.Leads .use links here steps f) : f ≠ .entry loc (.link target) := by
  induction h with
  | arrive => simp
  | stay _ _ ih => exact ih
  | up _ ih => exact ih
  | enter _ _ _ _ ih => exact ih
  | file => simp
  | free => simp
  | inspect _ haccess _ => cases haccess
  | follow _ _ _ _ _ ih => exact ih

/-- Where something is found through links, something can be seen: a link is seen if it is the last
step. -/
theorem Leads.inspect_of_use {links : Nat} {here loc : Location} {steps : List Text}
    (h : t.Leads .use links here steps (.entry loc e)) :
    ∃ loc' e', t.Leads .inspect links here steps (.entry loc' e') := by
  generalize hfound : Found.entry loc e = found at h
  induction h with
  | arrive => exact ⟨_, _, .arrive⟩
  | stay hstay _ ih =>
      obtain ⟨loc', e', hleads⟩ := ih hfound
      exact ⟨loc', e', .stay hstay hleads⟩
  | up _ ih =>
      obtain ⟨loc', e', hleads⟩ := ih hfound
      exact ⟨loc', e', .up hleads⟩
  | enter hname _ hget _ ih =>
      obtain ⟨loc', e', hleads⟩ := ih hfound
      exact ⟨loc', e', .enter hname (by simp) hget hleads⟩
  | file hname hget => exact ⟨_, _, .file hname hget⟩
  | free => cases hfound
  | inspect _ haccess _ => cases haccess
  | @follow _ _ _ _ rest _ hname _ _ hget _ ih =>
      by_cases hrest : rest = []
      · subst hrest
        exact ⟨_, _, .inspect hname rfl hget⟩
      · obtain ⟨loc', e', hleads⟩ := ih hfound
        exact ⟨loc', e', .follow hname (by simp) (fun h => hrest h.2) hget hleads⟩

end Tree

/-- Whether something that a walk lists is no folder. -/
def Sighting.isPlain : Sighting → Bool
  | .folder _ => false
  | _ => true

theorem Entry.file_mem_sightings_iff {path q : Path} {e : Entry} :
    .file q ∈ e.sightings path ↔ (∃ content, e = .file content) ∧ path = q := by
  cases e with
  | file content => simp [sightings, eq_comm]
  | link target => simp [sightings]
  | folder =>
      rw [sightings, List.mem_cons]
      split <;> simp

/-! ## What is listed -/

namespace Path

variable {p : Path}

theorem along_append (p : Path) (names more : Location) :
    p.along (names ++ more) = (p.along names).along more := List.foldl_append

/-- A path gets longer along names. -/
theorem byteSize_along {names : Location} (hnames : ∀ name ∈ names, '/' ∉ name) (p : Path) :
    Text.byteSize p.text ≤ Text.byteSize (p.along names).text := by
  induction names generalizing p with
  | nil => exact Nat.le_refl _
  | cons name names ih =>
      obtain ⟨hname, hnames⟩ := List.forall_mem_cons.1 hnames
      refine Nat.le_trans ?_ (ih hnames (p.join ⟨name⟩))
      have hrelative : Path.isAbsolute ⟨name⟩ = false := by
        cases name with
        | nil => rfl
        | cons c name =>
            have hc : c ≠ '/' := fun h => hname (h ▸ List.mem_cons_self)
            simp [isAbsolute, hc]
      rw [join, hrelative, if_neg Bool.false_ne_true]
      split <;> rw [Text.byteSize_append] <;> exact Nat.le_add_right _ _

/-- Whether a walk lists what stands at a location, where the path leads to a folder: it stands
below, in a folder that can be listed. -/
def lists (p : Path) (base loc : Location) : Bool :=
  Tree.isBelow base loc && (p.along (loc.drop base.length).dropLast).opens

end Path

namespace Workspace

variable {ws : Workspace} {p : Path} {base names before : Location} {e : Entry}

theorem mem_listed_iff :
    (names, e) ∈ ws.listed base p ↔
      names ≠ [] ∧ ws.tree.get? (base ++ names) = some e ∧
        (p.along names.dropLast).opens = true := by
  rw [listed, List.mem_filter, Tree.mem_below_iff, and_assoc]

/-- What is listed stands below folders of which each one can be listed. -/
theorem opens_of_mem_listed (hws : ws.Proper) (h : (names, e) ∈ ws.listed base p)
    (hbefore : before <+: names) (hne : before ≠ names) : (p.along before).opens = true := by
  obtain ⟨-, hget, hopens⟩ := mem_listed_iff.1 h
  obtain ⟨more, rfl⟩ := hbefore
  have hmore : more ≠ [] := by
    rintro rfl
    exact hne (List.append_nil before).symm
  rw [List.dropLast_append_of_ne_nil hmore, Path.along_append, Path.opens, decide_eq_true_eq]
    at hopens
  rw [Path.opens, decide_eq_true_eq]
  refine Nat.lt_of_le_of_lt (Path.byteSize_along (fun name hname => ?_) _) hopens
  exact (hws.tree.name_of_mem hget (List.mem_append_right _ (List.mem_append_right _
    (List.dropLast_subset more hname)))).2

/-- What is listed is a part of the entries, in their order. -/
theorem map_listed (ws : Workspace) (base : Location) (p : Path) :
    (ws.listed base p).map (fun x => (base ++ x.1, x.2)) =
      ws.tree.entries.entries.filter (p.lists base ·.1) := by
  have hlists : ∀ x : Location × Entry, p.lists base x.1 =
      (Tree.isBelow base x.1 && (p.along (x.1.drop base.length).dropLast).opens) := fun _ => rfl
  simp only [hlists, Bool.and_comm (Tree.isBelow base _)]
  rw [← List.filter_filter, ← Tree.map_below, List.filter_map, listed]
  simp only [Function.comp_def, List.drop_left]

/-- Counting what is listed is counting entries. -/
theorem countP_listed (ws : Workspace) (base : Location) (p : Path)
    (test : Location → Entry → Bool) :
    (ws.listed base p).countP (fun x => test x.1 x.2) =
      ws.tree.entries.entries.countP fun x =>
        p.lists base x.1 && test (x.1.drop base.length) x.2 := by
  have hmap := congrArg (List.countP fun x => test (x.1.drop base.length) x.2)
    (map_listed ws base p)
  rw [List.countP_map, List.countP_filter] at hmap
  simpa only [Function.comp_def, List.drop_left, Bool.and_comm] using hmap

end Workspace

/-! ## Kinds of walks -/

namespace Workspace

variable {ws : Workspace} {p q : Path} {base loc names : Location} {e : Entry} {content : Content}
  {sightings : List Sighting} {extensions : List Text}

theorem ne_link_of_entry_use {target : Text} (h : ws.entry .use p = .ok (loc, e)) :
    e ≠ .link target := by
  rintro rfl
  obtain ⟨-, hleads⟩ := locate_eq_ok_iff.1 (entry_eq_ok_iff.1 h)
  exact hleads.ne_link rfl

theorem entry_inspect_of_use (h : ws.entry .use p = .ok (loc, e)) :
    ∃ loc' e', ws.entry .inspect p = .ok (loc', e') := by
  obtain ⟨hp, hleads⟩ := locate_eq_ok_iff.1 (entry_eq_ok_iff.1 h)
  obtain ⟨loc', e', hleads'⟩ := hleads.inspect_of_use
  exact ⟨loc', e', entry_eq_ok_iff.2 (locate_eq_ok_iff.2 ⟨hp, hleads'⟩)⟩

theorem entry_use_of_inspect (hlink : ∀ target, e ≠ .link target)
    (h : ws.entry .inspect p = .ok (loc, e)) : ws.entry .use p = .ok (loc, e) := by
  refine entry_eq_ok_iff.2 (locate_use ?_ (entry_eq_ok_iff.1 h))
  intro _ target heq
  exact hlink target (Found.entry.inj heq).2

/-- The location of the folder that a path leads to. -/
def folderAt? (ws : Workspace) (access : Tree.Access) (p : Path) : Option Location :=
  match ws.entry access p with
  | .ok (loc, .folder) => some loc
  | _ => none

theorem folderAt?_eq_some_iff {access : Tree.Access} :
    ws.folderAt? access p = some base ↔ ws.entry access p = .ok (base, .folder) := by
  rw [folderAt?]
  split
  · rename_i loc hentry
    simp [hentry]
  · rename_i hnot
    constructor
    · intro h
      cases h
    · intro h
      exact absurd h (hnot base)

/-- What a walk lists if the path leads to a file, to a folder, or to neither. A folder is listed as
one unless the path is a link to it. -/
inductive Walks (ws : Workspace) (p : Path) : List Sighting → Prop
  | file {loc : Location} {content : Content} :
      p.same inputMark = false → ws.entry .use p = .ok (loc, .file content) →
      Walks ws p [.file p]
  | folder {base : Location} :
      p.same inputMark = false → ws.entry .use p = .ok (base, .folder) →
      Walks ws p ((if (ws.folderAt? .inspect p).isSome then .folder p else .other p) ::
        ws.sightingsBelow base p)
  | nothing {s : Sighting} :
      p.same inputMark = true ∨ (∀ x, ws.entry .use p ≠ .ok x) →
      (∀ q, s ≠ .file q ∧ s ≠ .folder q) → Walks ws p [s]

/-- A walk is one of the three kinds. -/
theorem walks (ws : Workspace) (p : Path) : ws.Walks p (ws.walk p) := by
  rw [walk]
  cases hinspect : ws.entry .inspect p with
  | error cause =>
      refine .nothing (.inr fun x huse => ?_) (by simp)
      obtain ⟨loc', e', hsome⟩ := entry_inspect_of_use huse
      cases hinspect.symm.trans hsome
  | ok found =>
      obtain ⟨loc, e⟩ := found
      by_cases hmark : p.same inputMark = true
      · simp only [if_pos hmark]
        exact .nothing (.inl hmark) (by simp)
      simp only [if_neg hmark]
      replace hmark := Bool.eq_false_iff.2 hmark
      cases e with
      | file content => exact .file hmark (entry_use_of_inspect (by simp) hinspect)
      | folder =>
          have hfolder : (ws.folderAt? .inspect p).isSome = true := by
            rw [folderAt?_eq_some_iff.2 hinspect]
            rfl
          have hwalks := Walks.folder hmark (entry_use_of_inspect (by simp) hinspect)
          rwa [if_pos hfolder] at hwalks
      | link target =>
          have hfolder : ¬ (ws.folderAt? .inspect p).isSome = true := by
            simp [folderAt?, hinspect]
          cases huse : ws.entry .use p with
          | error cause =>
              exact .nothing (.inr fun x hx => by cases huse.symm.trans hx) (by simp)
          | ok found =>
              obtain ⟨loc, e⟩ := found
              cases e with
              | file content => exact .file hmark huse
              | folder =>
                  have hwalks := Walks.folder hmark huse
                  rwa [if_neg hfolder] at hwalks
              | link target => exact absurd rfl (ne_link_of_entry_use huse)

/-! ## The files that are visited -/

/-- A walk from the path `p` visits a file: its path, where it stands and what it holds. -/
inductive Visits (ws : Workspace) (p : Path) : Path → Location → Content → Prop
  /-- The path leads to the file, through links if it is one. -/
  | given {loc : Location} {content : Content} :
      p.same inputMark = false → ws.entry .use p = .ok (loc, .file content) →
      Visits ws p p loc content
  /-- The path leads to a folder, and the file itself, no link to it, is somewhere below, in a folder
  that can be listed. -/
  | below {base names : Location} {content : Content} :
      p.same inputMark = false → ws.entry .use p = .ok (base, .folder) → names ≠ [] →
      ws.tree.get? (base ++ names) = some (.file content) →
      (p.along names.dropLast).opens = true →
      Visits ws p (p.along names) (base ++ names) content

theorem mem_sightingsBelow_iff :
    .file q ∈ ws.sightingsBelow base p ↔ ∃ names content, names ≠ [] ∧
      ws.tree.get? (base ++ names) = some (.file content) ∧
      (p.along names.dropLast).opens = true ∧ p.along names = q := by
  rw [sightingsBelow, List.mem_flatMap]
  constructor
  · rintro ⟨⟨names, e⟩, hmem, hsighting⟩
    obtain ⟨hne, hget, hopens⟩ := mem_listed_iff.1 hmem
    obtain ⟨⟨content, rfl⟩, hpath⟩ := Entry.file_mem_sightings_iff.1 hsighting
    exact ⟨names, content, hne, hget, hopens, hpath⟩
  · rintro ⟨names, content, hne, hget, hopens, hpath⟩
    exact ⟨(names, .file content), mem_listed_iff.2 ⟨hne, hget, hopens⟩,
      Entry.file_mem_sightings_iff.2 ⟨⟨content, rfl⟩, hpath⟩⟩

theorem mem_walk_iff : .file q ∈ ws.walk p ↔ ∃ loc content, ws.Visits p q loc content := by
  have hwalks := ws.walks p
  generalize ws.walk p = sightings at hwalks ⊢
  cases hwalks with
  | @file loc content hmark huse =>
      rw [List.mem_singleton]
      constructor
      · intro h
        obtain rfl := Sighting.file.inj h
        exact ⟨loc, content, .given hmark huse⟩
      · rintro ⟨_, _, hvisits⟩
        cases hvisits with
        | given => rfl
        | below _ hfolder => cases huse.symm.trans hfolder
  | @folder base hmark huse =>
      have hfirst : ∀ b : Bool, Sighting.file q ≠ if b then .folder p else .other p := by
        intro b
        cases b <;> simp
      rw [List.mem_cons, or_iff_right (hfirst _), mem_sightingsBelow_iff]
      constructor
      · rintro ⟨names, content, hne, hget, hopens, rfl⟩
        exact ⟨_, content, .below hmark huse hne hget hopens⟩
      · rintro ⟨_, content, hvisits⟩
        cases hvisits with
        | given _ hfile => cases huse.symm.trans hfile
        | @below base' names _ _ hfolder hne hget hopens =>
            obtain rfl : base = base' := by
              simpa using Except.ok.inj (huse.symm.trans hfolder)
            exact ⟨names, content, hne, hget, hopens, rfl⟩
  | nothing hnothing hplain =>
      rw [List.mem_singleton]
      constructor
      · intro h
        exact absurd h.symm (hplain q).1
      · rintro ⟨_, _, hvisits⟩
        have hfound : p.same inputMark = false ∧ ∃ x, ws.entry .use p = .ok x := by
          cases hvisits with
          | given hmark huse => exact ⟨hmark, _, huse⟩
          | below hmark huse => exact ⟨hmark, _, huse⟩
        obtain ⟨hmark, x, huse⟩ := hfound
        rcases hnothing with hnothing | hnothing
        · rw [hmark] at hnothing
          cases hnothing
        · exact absurd huse (hnothing x)

/-- The files that are decoded for a path are those that a walk visits and that have one of the
extensions. -/
theorem mem_selection_iff :
    q ∈ ws.selection extensions p ↔
      (∃ loc content, ws.Visits p q loc content) ∧ hasExtension q extensions = true := by
  rw [← mem_walk_iff, selection, List.mem_filterMap]
  constructor
  · rintro ⟨s, hs, hselected⟩
    obtain ⟨rfl, hextension⟩ := selected?_eq_some_iff.1 hselected
    exact ⟨hs, hextension⟩
  · rintro ⟨hs, hextension⟩
    exact ⟨_, hs, selected?_eq_some_iff.2 ⟨rfl, hextension⟩⟩

theorem Visits.get? (hws : ws.Proper) (h : ws.Visits p q loc content) :
    ws.tree.get? loc = some (.file content) := by
  cases h with
  | given _ huse => exact (hws.entry_use_eq_ok_iff.1 huse).2
  | below _ _ _ hget _ => exact hget

/-- The path of a file below a folder has its location as its place, unless it is too long. -/
theorem place?_below (hws : ws.Proper) (hfolder : ws.entry .use p = .ok (base, .folder))
    (hne : names ≠ []) (hget : ws.tree.get? (base ++ names) = some (.file content))
    (hplace : ws.place? (p.along names) = some loc) :
    loc = base ++ names := by
  rcases entry_below hws hfolder (Tree.mem_below_iff.2 ⟨hne, hget⟩) .use with hentry | hlong
  · have hplace' := (hws.entry_use_eq_ok_iff.1 hentry).1
    exact Option.some.inj (hplace.symm.trans hplace')
  · exact absurd hlong (Nat.not_le.2 (byteSize_lt_of_place? hplace))

theorem Visits.loc_eq {place : Location} (hws : ws.Proper) (h : ws.Visits p q loc content)
    (hplace : ws.place? q = some place) : loc = place := by
  cases h with
  | given _ huse =>
      exact Option.some.inj ((hws.entry_use_eq_ok_iff.1 huse).1.symm.trans hplace)
  | below _ hfolder hne hget _ => exact (place?_below hws hfolder hne hget hplace).symm

/-- A file that is visited is settled. -/
theorem Visits.settled (hws : ws.Proper) (h : ws.Visits p q loc content) : ws.Settled q := by
  cases h with
  | given _ huse => exact .inl ⟨loc, content, huse⟩
  | below _ hfolder hne hget _ =>
      have hbelow := entry_below hws hfolder (Tree.mem_below_iff.2 ⟨hne, hget⟩) .use
      exact hbelow.imp_left fun hentry => ⟨_, content, hentry⟩

/-- A selected file is settled and has a file name. -/
theorem of_mem_selection (hws : ws.Proper) (h : q ∈ ws.selection extensions p) :
    ws.Settled q ∧ q.fileName?.isSome := by
  obtain ⟨⟨loc, content, hvisits⟩, hextension⟩ := mem_selection_iff.1 h
  obtain ⟨extension, -, -, stem, -, hname⟩ := hasExtension_iff.1 hextension
  exact ⟨hvisits.settled hws, Option.isSome_iff_exists.2 ⟨_, hname⟩⟩

/-! ## The order of a walk -/

theorem file_of_selected? {path : Path} {s : Sighting} (hs : s ∈ e.sightings path)
    (h : s.selected? extensions = some q) : (∃ content, e = .file content) ∧ path = q := by
  obtain ⟨rfl, -⟩ := selected?_eq_some_iff.1 h
  exact Entry.file_mem_sightings_iff.1 hs

/-- Nothing is selected for an entry twice. -/
theorem pairwise_sightings {related : Path → Path → Prop} (path : Path) (e : Entry) :
    (e.sightings path).Pairwise fun s s' => ∀ a, s.selected? extensions = some a →
      ∀ b, s'.selected? extensions = some b → related a b := by
  cases e with
  | file content => exact List.pairwise_singleton _ _
  | link target => exact List.pairwise_singleton _ _
  | folder =>
      refine List.pairwise_cons.2 ⟨fun s _ a ha => ?_, ?_⟩
      · cases ha
      · split <;> simp

/-- The files that are decoded for a path stand at ascending locations. -/
theorem selection_ascending (hws : ws.Proper) :
    (ws.selection extensions p).Pairwise fun a b => ∀ la lb, ws.place? a = some la →
      ws.place? b = some lb → compare la lb = .lt := by
  have hwalks := ws.walks p
  rw [selection]
  generalize ws.walk p = sightings at hwalks ⊢
  rw [List.pairwise_filterMap]
  cases hwalks with
  | file => exact List.pairwise_singleton _ _
  | nothing => exact List.pairwise_singleton _ _
  | @folder base hmark huse =>
      refine List.pairwise_cons.2 ⟨fun s _ a hfirst => ?_, ?_⟩
      · obtain ⟨hfile, -⟩ := selected?_eq_some_iff.1 hfirst
        split at hfile <;> cases hfile
      · have hascending := (Tree.below_ascending ws.tree base).filter
          fun x => (p.along x.1.dropLast).opens
        refine List.pairwise_flatMap.2 ⟨fun x _ => pairwise_sightings _ x.2, ?_⟩
        refine hascending.imp_of_mem ?_
        -- two files stand at locations that are in the order of their names
        rintro ⟨names, e⟩ ⟨names', e'⟩ hmem hmem' hlt s hs s' hs' a ha b hb la lb hla hlb
        obtain ⟨hne, hget, -⟩ := mem_listed_iff.1 hmem
        obtain ⟨hne', hget', -⟩ := mem_listed_iff.1 hmem'
        obtain ⟨⟨content, rfl⟩, rfl⟩ := file_of_selected? hs ha
        obtain ⟨⟨content', rfl⟩, rfl⟩ := file_of_selected? hs' hb
        rw [place?_below hws huse hne hget hla, place?_below hws huse hne' hget' hlb]
        exact hlt

/-! ## The number of visits -/

/-- The number of entries that a walk lists below a location and that are no folders. -/
def plainBelow (ws : Workspace) (base : Location) (p : Path) : Nat :=
  ws.tree.entries.entries.countP fun x => p.lists base x.1 && x.2 != .folder

/-- The number of folders that a walk lists below a location and that are closed to it. -/
def closedBelow (ws : Workspace) (base : Location) (p : Path) : Nat :=
  ws.tree.entries.entries.countP fun x =>
    p.lists base x.1 && (x.2 == .folder && !(p.along (x.1.drop base.length)).opens)

/-- The number of entries that a walk from a path visits, folders not counted: the given path itself
and what stands below it. A path to nothing counts as one entry, and so does the one that stands for
the standard input. -/
def visitCount (ws : Workspace) (p : Path) : Nat :=
  if p.same inputMark then 1
  else (if (ws.folderAt? .inspect p).isSome then 0 else 1) +
    ((ws.folderAt? .use p).map (ws.plainBelow · p)).getD 0

/-- The number of folders that a walk from a path meets and cannot list. -/
def closedCount (ws : Workspace) (p : Path) : Nat :=
  if p.same inputMark then 0 else ((ws.folderAt? .use p).map (ws.closedBelow · p)).getD 0

/-- Each entry that a walk lists is either selected or skipped, unless it is a folder. -/
theorem length_selected_add (sightings : List Sighting) (extensions : List Text) :
    (sightings.filterMap (·.selected? extensions)).length +
      sightings.countP (·.isSkipped extensions) = sightings.countP (·.isPlain) := by
  induction sightings with
  | nil => rfl
  | cons s sightings ih =>
      rw [List.countP_cons, List.countP_cons, ← ih]
      cases s with
      | file q =>
          cases hextension : hasExtension q extensions with
          | true =>
              have hskipped : ((Sighting.file q).isSkipped extensions) = false := by
                rw [Sighting.isSkipped, hextension]
                rfl
              have hselected := selected?_eq_some_iff.2 ⟨rfl, hextension⟩
              rw [List.filterMap_cons_some hselected, hskipped, List.length_cons]
              exact Nat.add_right_comm _ 1 _
          | false =>
              have hskipped : ((Sighting.file q).isSkipped extensions) = true := by
                rw [Sighting.isSkipped, hextension]
                rfl
              have hselected : (Sighting.file q).selected? extensions = none := by
                simp [Sighting.selected?, hextension]
              rw [List.filterMap_cons_none hselected, hskipped]
              exact (Nat.add_assoc _ _ _).symm
      | folder q => rfl
      | other q => exact (Nat.add_assoc _ _ _).symm
      | failed q cause => exact (Nat.add_assoc _ _ _).symm

/-- Below a folder, a walk meets what is no folder, and fails at the folders that are closed. -/
theorem countP_sightingsBelow (ws : Workspace) (base : Location) (p : Path) :
    (ws.sightingsBelow base p).countP (·.isPlain) =
      ws.plainBelow base p + ws.closedBelow base p := by
  have hplain := ws.countP_listed base p fun _ e => e != .folder
  have hclosed := ws.countP_listed base p fun names e => e == .folder && !(p.along names).opens
  rw [plainBelow, closedBelow, ← hplain, ← hclosed, sightingsBelow]
  induction ws.listed base p with
  | nil => rfl
  | cons x listed ih =>
      -- an entry counts once, but a folder only if it is closed
      obtain ⟨names, e⟩ := x
      rw [List.flatMap_cons, List.countP_append, List.countP_cons, List.countP_cons, ih]
      cases e with
      | file content =>
          simp [Entry.sightings, Sighting.isPlain]
          omega
      | link target =>
          simp [Entry.sightings, Sighting.isPlain]
          omega
      | folder =>
          cases hopens : (p.along names).opens <;>
            simp [Entry.sightings, Sighting.isPlain, hopens]
          omega

theorem folderAt?_use (h : ws.folderAt? .use p = none) : ws.folderAt? .inspect p = none := by
  refine Option.eq_none_iff_forall_ne_some.2 fun base hbase => ?_
  have huse := entry_use_of_inspect (by simp) (folderAt?_eq_some_iff.1 hbase)
  rw [folderAt?_eq_some_iff.2 huse] at h
  cases h

/-- What a walk meets is what it visits, except folders, and where it fails. -/
theorem countP_walk (ws : Workspace) (p : Path) :
    (ws.walk p).countP (·.isPlain) = ws.visitCount p + ws.closedCount p := by
  have hwalks := ws.walks p
  generalize ws.walk p = sightings at hwalks ⊢
  rw [visitCount, closedCount]
  cases hwalks with
  | file hmark huse =>
      have hnone : ws.folderAt? .use p = none := by simp [folderAt?, huse]
      rw [hmark, hnone, folderAt?_use hnone]
      rfl
  | @folder base hmark huse =>
      rw [hmark, folderAt?_eq_some_iff.2 huse, List.countP_cons, countP_sightingsBelow]
      cases ws.folderAt? .inspect p with
      | none => simp [Sighting.isPlain, Nat.add_comm, Nat.add_left_comm]
      | some base' => simp [Sighting.isPlain]
  | @nothing s hnothing hplain =>
      have hone : [s].countP (·.isPlain) = 1 := by
        cases s with
        | folder q => exact absurd rfl (hplain q).2
        | file q => rfl
        | other q => rfl
        | failed q cause => rfl
      rw [hone]
      by_cases hmark : p.same inputMark = true
      · rw [if_pos hmark, if_pos hmark]
      · have hnone : ws.folderAt? .use p = none := by
          refine Option.eq_none_iff_forall_ne_some.2 fun base hbase => ?_
          exact (hnothing.resolve_left hmark) _ (folderAt?_eq_some_iff.1 hbase)
        rw [if_neg hmark, if_neg hmark, hnone, folderAt?_use hnone]
        rfl

/-- What is selected for a path and what is skipped are together all entries that a walk visits and
all folders that it cannot list. -/
theorem length_selection_add (ws : Workspace) (extensions : List Text) (p : Path) :
    (ws.selection extensions p).length + (ws.walk p).countP (·.isSkipped extensions) =
      ws.visitCount p + ws.closedCount p :=
  (length_selected_add (ws.walk p) extensions).trans (countP_walk ws p)

end Workspace

end Unmangle
