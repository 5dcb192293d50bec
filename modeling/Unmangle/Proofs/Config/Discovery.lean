import Unmangle.Config.Cascade
import Unmangle.Proofs.Files.Parents
import Unmangle.Proofs.Files.Places

set_option autoImplicit false

/-! # The search for configurations

A search looks for a configuration file in the start folder and in one parent after another, stops
after the first root, and adds the file in the home folder if it is not among those. It is told by
the files that count (`Config.countedFiles`): each one is loaded, or the first one that cannot be is
the error.

* `Config.result_discover`: the search loads the files that count.
* `Config.pairwise_countedFiles`: no two of them are the same path.
* `Config.discover_congr`: workspaces that show the same files up to a root and in the home folder
  give the same.
* `Config.discover_files`: the main statement.
-/

namespace Unmangle

namespace Config

variable {ws ws' : Workspace} {start home folder path : Path}
  {folders below above paths : List Path} {configs : List LoadedConfig} {e : Error}

/-! ## The files that count -/

def filesIn (ws : Workspace) (folders : List Path) : List Path :=
  (folders.map (·.join fileName)).filter ws.pathExists

/-- Whether a configuration file declares itself the root. -/
def declaresRoot (ws : Workspace) (path : Path) : Bool :=
  match load ws path with
  | .ok config => config.root
  | .error _ => false

/-- Some configuration files up to the first one that is a root. -/
def upToRoot (ws : Workspace) (paths : List Path) : List Path :=
  paths.take (paths.findIdx (declaresRoot ws) + 1)

/-- The configuration file in the home folder, if it is there and not among some others. -/
def userFile (ws : Workspace) (home : Path) (found : List Path) : List Path :=
  if ws.pathExists (userPath home) && !found.any (·.same (userPath home)) then [userPath home]
  else []

/-- The configuration files that count for a start folder, in order. -/
def countedFiles (ws : Workspace) (start home : Path) : List Path :=
  let found := upToRoot ws (filesIn ws start.ancestors)
  found ++ userFile ws home found

def loadAt (ws : Workspace) (path : Path) : Except Error LoadedConfig :=
  (load ws path).map (⟨·, path⟩)

theorem upToRoot_cons (path : Path) (paths : List Path) :
    upToRoot ws (path :: paths) =
      path :: if declaresRoot ws path then [] else upToRoot ws paths := by
  rw [upToRoot, List.findIdx_cons, List.take_succ_cons]
  cases declaresRoot ws path with
  | true => rfl
  | false => rfl

/-! ## What is loaded -/

/-- All files are loaded, or the first one that cannot be loaded is the error. -/
theorem mapM_loadAt_cons (path : Path) (paths : List Path) :
    (path :: paths).mapM (loadAt ws) =
      (load ws path).bind fun config =>
        (paths.mapM (loadAt ws)).map (⟨config, path⟩ :: ·) := by
  rw [List.mapM_cons, loadAt]
  cases load ws path with
  | error e => rfl
  | ok config =>
      cases paths.mapM (loadAt ws) with
      | error e => rfl
      | ok configs => rfl

/-- Files are loaded if each one can be. -/
theorem mapM_loadAt_eq_ok_iff :
    paths.mapM (loadAt ws) = .ok configs ↔
      configs.map (·.path) = paths ∧ ∀ l ∈ configs, load ws l.path = .ok l.config := by
  induction paths generalizing configs with
  | nil =>
      rw [List.mapM_nil, List.map_eq_nil_iff]
      constructor
      · intro h
        obtain rfl : [] = configs := Except.ok.inj h
        exact ⟨rfl, by simp⟩
      · rintro ⟨rfl, -⟩
        rfl
  | cons path paths ih =>
      rw [mapM_loadAt_cons]
      constructor
      · intro h
        cases hload : load ws path with
        | error e => simp [hload, Except.bind] at h
        | ok config =>
            rw [hload] at h
            cases hrest : paths.mapM (loadAt ws) with
            | error e => simp [hrest, Except.bind, Except.map] at h
            | ok rest =>
                rw [hrest] at h
                obtain rfl : ⟨config, path⟩ :: rest = configs := Except.ok.inj h
                obtain ⟨hpaths, hloaded⟩ := ih.1 hrest
                exact ⟨congrArg (path :: ·) hpaths, List.forall_mem_cons.2 ⟨hload, hloaded⟩⟩
      · rintro ⟨hpaths, hloaded⟩
        obtain ⟨l, rest, rfl, rfl, hrest⟩ := List.map_eq_cons_iff.1 hpaths
        obtain ⟨hload, hloaded⟩ := List.forall_mem_cons.1 hloaded
        rw [hload, ih.2 ⟨hrest, hloaded⟩]
        rfl

/-- The first file that cannot be loaded makes the error. -/
theorem mapM_loadAt_eq_error_iff :
    paths.mapM (loadAt ws) = .error e ↔
      ∃ before path after, paths = before ++ path :: after ∧
        (∀ q ∈ before, ∃ config, load ws q = .ok config) ∧ load ws path = .error e := by
  induction paths with
  | nil =>
      constructor
      · intro h
        cases h
      · rintro ⟨before, path, after, hpaths, -⟩
        simp at hpaths
  | cons path paths ih =>
      rw [mapM_loadAt_cons]
      constructor
      · intro h
        cases hload : load ws path with
        | error cause =>
            rw [hload] at h
            obtain rfl : cause = e := Except.error.inj h
            exact ⟨[], path, paths, rfl, by simp, hload⟩
        | ok config =>
            have hrest : paths.mapM (loadAt ws) = .error e := by
              rw [hload] at h
              cases hrest : paths.mapM (loadAt ws) with
              | error cause => rw [hrest] at h; exact h
              | ok rest => rw [hrest] at h; cases h
            obtain ⟨before, bad, after, rfl, hbefore, hbad⟩ := ih.1 hrest
            exact ⟨path :: before, bad, after, rfl,
              List.forall_mem_cons.2 ⟨⟨config, hload⟩, hbefore⟩, hbad⟩
      · rintro ⟨before, bad, after, hpaths, hbefore, hbad⟩
        cases before with
        | nil =>
            obtain ⟨rfl, rfl⟩ := List.cons_eq_cons.1 hpaths
            rw [hbad]
            rfl
        | cons first before =>
            obtain ⟨rfl, rfl⟩ := List.cons_eq_cons.1 hpaths
            obtain ⟨⟨config, hload⟩, hbefore⟩ := List.forall_mem_cons.1 hbefore
            rw [hload, ih.2 ⟨before, bad, after, rfl, hbefore, hbad⟩]
            rfl

/-- The search through some folders loads their files up to the first root. -/
theorem result_loadUpward (ws : Workspace) (folders : List Path) :
    (loadUpward ws folders).result = (upToRoot ws (filesIn ws folders)).mapM (loadAt ws) := by
  induction folders with
  | nil => rfl
  | cons folder folders ih =>
      rw [loadUpward, filesIn, List.map_cons]
      by_cases hexists : ws.pathExists (folder.join fileName)
      · rw [List.filter_cons_of_pos hexists, if_pos hexists, upToRoot_cons, mapM_loadAt_cons,
          Traced.result_bind, Traced.result_of, declaresRoot, ← filesIn]
        cases hload : load ws (folder.join fileName) with
        | error e => rfl
        | ok config =>
            simp only [Except.bind, Traced.result_bind, Traced.result_report]
            by_cases hroot : config.root = true
            · rw [if_pos hroot, if_pos hroot]
              rfl
            · rw [if_neg hroot, if_neg hroot, Traced.result_bind, ih]
              cases (upToRoot ws (filesIn ws folders)).mapM (loadAt ws) <;> rfl
      · rw [List.filter_cons_of_neg hexists, if_neg hexists]
        exact ih

theorem result_loadUser (ws : Workspace) (home : Path) (found : List LoadedConfig) :
    (loadUser ws home found).result =
      (userFile ws home (found.map (·.path))).mapM (loadAt ws) := by
  rw [loadUser, userFile, List.any_map, Function.comp_def]
  by_cases hcounts : (ws.pathExists (userPath home) &&
      !found.any (·.path.same (userPath home))) = true
  · rw [if_pos hcounts, if_pos hcounts, mapM_loadAt_cons, Traced.result_bind, Traced.result_of]
    cases load ws (userPath home) <;> rfl
  · rw [if_neg hcounts, if_neg hcounts]
    rfl

/-- The search loads the files that count, one after another. -/
theorem result_discover (ws : Workspace) (start home : Path) :
    (discover ws start home).result = (countedFiles ws start home).mapM (loadAt ws) := by
  rw [discover, countedFiles, Traced.result_bind, result_loadUpward, List.mapM_append]
  cases hfound : (upToRoot ws (filesIn ws start.ancestors)).mapM (loadAt ws) with
  | error e => rfl
  | ok found =>
      have hpaths : found.map (·.path) = upToRoot ws (filesIn ws start.ancestors) :=
        (mapM_loadAt_eq_ok_iff.1 hfound).1
      rw [← hpaths]
      simp only [Except.bind, Traced.result_bind, result_loadUser]
      cases (userFile ws home (found.map (·.path))).mapM (loadAt ws) <;> rfl

/-! ## No file comes twice -/

theorem fileName_spec : '/' ∉ fileName.text ∧ Path.isTrivial fileName.text = false := by
  decide

theorem upToRoot_sublist (ws : Workspace) (paths : List Path) :
    (upToRoot ws paths).Sublist paths :=
  List.take_sublist _ _

/-- No two of the files in a folder and its parents are the same. -/
theorem pairwise_filesIn (ws : Workspace) (h : start.Rises folders) :
    (filesIn ws folders).Pairwise fun p q => p.same q = false := by
  refine List.Pairwise.filter _ (List.pairwise_map.2 (h.pairwise_length.imp fun {a b} hlt => ?_))
  refine Bool.eq_false_iff.2 fun hsame => ?_
  have hparts : (a.join fileName).parts = (b.join fileName).parts := by
    simpa [Path.same] using hsame
  have hlength := congrArg List.length hparts
  obtain ⟨hslash, htrivial⟩ := fileName_spec
  rw [show fileName = ⟨fileName.text⟩ from rfl, Path.parts_join hslash htrivial,
    Path.parts_join hslash htrivial, List.length_append, List.length_append] at hlength
  omega

theorem pairwise_countedFiles (ws : Workspace) (start home : Path) :
    (countedFiles ws start home).Pairwise fun p q => p.same q = false := by
  have hfound := (pairwise_filesIn ws start.rises_ancestors).sublist
    (upToRoot_sublist ws (filesIn ws start.ancestors))
  rw [countedFiles, List.pairwise_append]
  refine ⟨hfound, ?_, fun p hp q hq => ?_⟩
  · unfold userFile
    split
    · exact List.pairwise_singleton _ _
    · exact .nil
  · rw [userFile] at hq
    split at hq
    · rename_i hcounts
      obtain rfl := List.mem_singleton.1 hq
      simp at hcounts
      exact Bool.eq_false_iff.2 (by simpa using hcounts.2 p hp)
    · cases hq

/-! ## Two searches -/

/-- A path shows the same configuration in two workspaces, or none in both. -/
def ShowsSame (ws ws' : Workspace) (path : Path) : Prop :=
  ws'.pathExists path = ws.pathExists path ∧
    (ws.pathExists path = true → load ws' path = load ws path)

theorem pathExists_of_load {config : Config} (h : load ws path = .ok config) :
    ws.pathExists path = true := by
  rw [load] at h
  split at h
  · cases h
  · rename_i t hread
    obtain ⟨loc, hentry⟩ := Workspace.readText_eq_ok_iff_entry.1 hread
    exact Workspace.pathExists_iff.2 ⟨_, hentry⟩

/-- A search comes to its end at a root, whatever is above. -/
theorem loadUpward_root {config : Config} (hload : load ws (folder.join fileName) = .ok config)
    (hroot : config.root = true) (above : List Path) :
    loadUpward ws (folder :: above) =
      ⟨.ok [⟨config, folder.join fileName⟩], [.configLoaded (folder.join fileName)]⟩ := by
  rw [loadUpward, if_pos (pathExists_of_load hload), hload]
  simp only [bind, Traced.andThen, Traced.of, Traced.report, if_pos hroot]
  rfl

theorem loadUpward_congr (hroot : declaresRoot ws (folder.join fileName) = true)
    (hsame : ∀ path ∈ (below ++ [folder]).map (·.join fileName), ShowsSame ws ws' path)
    (above : List Path) :
    loadUpward ws' (below ++ folder :: above) = loadUpward ws (below ++ folder :: above) := by
  induction below with
  | nil =>
      obtain ⟨-, hload⟩ := hsame (folder.join fileName) (by simp)
      rw [declaresRoot] at hroot
      split at hroot
      · rename_i config hconfig
        have hconfig' := (hload (pathExists_of_load hconfig)).trans hconfig
        rw [List.nil_append, loadUpward_root hconfig hroot, loadUpward_root hconfig' hroot]
      · cases hroot
  | cons first below ih =>
      obtain ⟨⟨hexists, hload⟩, hbelow⟩ := List.forall_mem_cons.1 hsame
      rw [List.cons_append, loadUpward, loadUpward, ih hbelow, hexists]
      by_cases hthere : ws.pathExists (first.join fileName) = true
      · rw [hload hthere]
      · rw [if_neg hthere, if_neg hthere]

theorem loadUser_congr (hsame : ShowsSame ws ws' (userPath home)) (found : List LoadedConfig) :
    loadUser ws' home found = loadUser ws home found := by
  obtain ⟨hexists, hload⟩ := hsame
  rw [loadUser, loadUser, hexists]
  by_cases hcounts : (ws.pathExists (userPath home) &&
      !found.any (·.path.same (userPath home))) = true
  · obtain ⟨hthere, -⟩ := Bool.and_eq_true_iff.1 hcounts
    rw [if_pos hcounts, if_pos hcounts, hload hthere]
  · rw [if_neg hcounts, if_neg hcounts]

/-- What the search finds depends on the files up to a root and in the home folder only. -/
theorem discover_congr (hroot : declaresRoot ws (folder.join fileName) = true)
    (hfolders : start.ancestors = below ++ folder :: above)
    (hsame : ∀ path ∈ userPath home :: (below ++ [folder]).map (·.join fileName),
      ShowsSame ws ws' path) :
    discover ws' start home = discover ws start home := by
  obtain ⟨huser, hproject⟩ := List.forall_mem_cons.1 hsame
  rw [discover, discover, hfolders, loadUpward_congr hroot hproject]
  simp only [loadUser_congr huser]

/-- A path shows the same in workspaces that differ in files only, if what stands at its place is
the same. -/
theorem showsSame_of_alike (hws : ws.Proper) (hws' : ws'.Proper) (halike : ws.Alike ws')
    (hplace : ∀ loc ∈ ws.place? path, ws'.tree.get? loc = ws.tree.get? loc) :
    ShowsSame ws ws' path := by
  have hentry : ∀ x, ws'.entry .use path = .ok x ↔ ws.entry .use path = .ok x := by
    rintro ⟨loc, e⟩
    rw [hws.entry_use_eq_ok_iff, hws'.entry_use_eq_ok_iff, halike.place?_eq]
    exact and_congr_right fun h => by rw [hplace loc h]
  constructor
  · rw [Bool.eq_iff_iff, Workspace.pathExists_iff, Workspace.pathExists_iff]
    exact exists_congr hentry
  · intro hexists
    obtain ⟨x, hx⟩ := Workspace.pathExists_iff.1 hexists
    rw [load, load, Workspace.readText, Workspace.readText, hx, (hentry x).2 hx]

/-- **The search for configurations.** The folders are the start folder and its parents. A search
succeeds with the configurations of all files that count, or fails with the error of the first one
that cannot be loaded. No file comes twice. If a file declares itself the root, the outcome is the
same in every workspace that shows the same up to there and in the home folder; so no change of
files at other places matters, above the root or elsewhere. -/
theorem discover_files (ws : Workspace) (start home : Path) :
    let files := countedFiles ws start home
    Path.Rises start start.ancestors ∧
    (∀ configs, (discover ws start home).result = .ok configs ↔
      configs.map (·.path) = files ∧ ∀ l ∈ configs, load ws l.path = .ok l.config) ∧
    (∀ e, (discover ws start home).result = .error e ↔
      ∃ before path after, files = before ++ path :: after ∧
        (∀ q ∈ before, ∃ config, load ws q = .ok config) ∧ load ws path = .error e) ∧
    files.Pairwise (fun p q => p.same q = false) ∧
    ∀ below folder above, start.ancestors = below ++ folder :: above →
      declaresRoot ws (folder.join fileName) = true →
      let decisive := userPath home :: (below ++ [folder]).map (·.join fileName)
      (∀ ws', (∀ path ∈ decisive, ShowsSame ws ws' path) →
        discover ws' start home = discover ws start home) ∧
      ∀ ws', ws.Proper → ws'.Proper → ws.Alike ws' →
        (∀ path ∈ decisive, ∀ loc ∈ ws.place? path, ws'.tree.get? loc = ws.tree.get? loc) →
        discover ws' start home = discover ws start home := by
  intro files
  refine ⟨start.rises_ancestors, fun configs => ?_, fun e => ?_,
    pairwise_countedFiles ws start home, ?_⟩
  · rw [result_discover]
    exact mapM_loadAt_eq_ok_iff
  · rw [result_discover]
    exact mapM_loadAt_eq_error_iff
  · intro below folder above hfolders hroot decisive
    constructor
    · intro ws' hsame
      exact discover_congr hroot hfolders hsame
    · intro ws' hws hws' halike hplace
      refine discover_congr hroot hfolders fun path hpath => ?_
      exact showsSame_of_alike hws hws' halike (hplace path hpath)

/-- A root below a configuration, which is made unreadable, and one in the home folder. -/
theorem discover_files_rooted :
    let ws : Workspace := ⟨⟨Dict.ofList [(["w".toList], .folder),
      (["w".toList, ".demap.toml".toList], .file (.text "column = \"desc\"\n".toList)),
      (["w".toList, "a".toList], .folder),
      (["w".toList, "a".toList, ".demap.toml".toList], .file (.text "root = true\n".toList)),
      (["w".toList, "a".toList, "b".toList], .folder), (["h".toList], .folder),
      (["h".toList, ".demap.toml".toList], .file (.text "skip-quoted = false\n".toList))]⟩,
      ["w".toList, "a".toList, "b".toList]⟩
    let ws' : Workspace :=
      { ws with tree := ws.tree.put ["w".toList, ".demap.toml".toList] (.file (.text "[".toList)) }
    let start := ws.herePath
    let home := Path.ofString "/h"
    load ws' (.ofString "/w/.demap.toml") =
        .error (.configParse (.ofString "/w/.demap.toml") .malformed) ∧
      discover ws' start home = discover ws start home ∧
      ((discover ws start home).result.map fun configs => configs.map (·.path.toString)) =
        .ok ["/w/a/.demap.toml", "/h/.demap.toml"] := by
  intro ws ws' start home
  have hws : ws.Proper := by decide +kernel
  have hws' : ws'.Proper := by decide +kernel
  have hfile : ws.tree.get? ["w".toList, ".demap.toml".toList] =
      some (.file (.text "column = \"desc\"\n".toList)) := by decide +kernel
  have halike : ws.Alike ws' :=
    ⟨rfl, Tree.alike_put fun e he => ⟨_, Option.some.inj (he.symm.trans hfile)⟩⟩
  obtain ⟨-, -, -, -, hroot⟩ := discover_files ws start home
  refine ⟨by decide +kernel, ?_, by decide +kernel⟩
  exact (hroot [.ofString "/w/a/b"] (.ofString "/w/a") [.ofString "/w", .ofString "/"]
    (by decide +kernel) (by decide +kernel)).2 ws' hws hws' halike (by decide +kernel)

end Config

end Unmangle
