import Mathlib.Order.Monotone.Basic
import Unmangle.Proofs.Files.Siblings
import Unmangle.Proofs.Files.Visits

set_option autoImplicit false

/-! # Paths with more and more dots

The search for the path of a copy adds one dot after another to the file name. The first dot may
change what kind of name it is, since a name without an extension gets an empty one; from then on
the dots pile up before the extension, which stays as it is (`Path.Dots`).

All these paths stand in one folder, and an existing one has the name of an entry there
(`Workspace.mem_namesBeside`). Their names are all different, so the search looks at no more than
one path more than there are entries.

* `Path.dots`: the names of a path with more and more dots.
* `Workspace.siblingPath_dots`: the main statement.
-/

namespace Unmangle

/-! ## Names -/

namespace Path

variable {p up : Path} {name stem extension : Text}

/-- A dot is put before the last dot of a name. -/
theorem dottedName_of_extension (hname : p.fileName? = some (stem ++ '.' :: extension))
    (hstem : stem ≠ []) (hdot : '.' ∉ extension) :
    dottedName p = stem ++ '.' :: '.' :: extension := by
  have hup := (fileName?_eq_some_iff.1 hname).1
  have hcut := (cutName_eq_some_iff hup).2 ⟨hdot, hstem, rfl⟩
  have hextension : p.extension? = some extension :=
    extension?_eq_some_iff.2 ⟨hdot, stem, hstem, hname⟩
  have hstem : p.stem? = some stem := by
    rw [stem?, hname, Option.map_some, hcut]
  rw [dottedName, hstem, hextension]
  simp

/-- A dot is put at the end of a name without an extension. -/
theorem dottedName_of_extension?_eq_none (hname : p.fileName? = some name)
    (hnone : p.extension? = none) : dottedName p = name ++ ['.'] := by
  rw [dottedName, hnone, hname]
  cases p.stem? <;> rfl

theorem byteSize_dottedName (hname : p.fileName? = some name) :
    Text.byteSize (dottedName p) = Text.byteSize name + 1 := by
  obtain ⟨stem, last, -, rfl, hdotted⟩ := dottedName_eq hname
  have hdot : Text.byteSize ('.' :: last) = 1 + Text.byteSize last := rfl
  rw [hdotted, Text.byteSize_append, Text.byteSize_append, hdot]
  omega

/-- Dots pile up before an extension: by induction, with the dots so far as a part of the stem. -/
theorem fileName?_iterate_of_extension (hname : p.fileName? = some (stem ++ '.' :: extension))
    (hstem : stem ≠ []) (hdot : '.' ∉ extension) (k : Nat) :
    (addDot^[k] p).fileName? = some (stem ++ List.replicate k '.' ++ '.' :: extension) := by
  induction k with
  | zero => rwa [List.replicate_zero, List.append_nil]
  | succ k ih =>
      have hne : stem ++ List.replicate k '.' ≠ [] := fun h => hstem (List.append_eq_nil_iff.1 h).1
      rw [Function.iterate_succ_apply', (fileName?_addDot ih).1,
        dottedName_of_extension ih hne hdot, List.replicate_succ']
      simp

/-- Dots pile up at the end of a name without an extension. -/
theorem fileName?_iterate_of_extension?_eq_none (hname : p.fileName? = some name)
    (hnone : p.extension? = none) (k : Nat) :
    (addDot^[k] p).fileName? = some (name ++ List.replicate k '.') := by
  cases k with
  | zero => rwa [List.replicate_zero, List.append_nil]
  | succ k =>
      have hne : name ≠ [] := by
        rintro rfl
        cases (isTrivial_fileName hname).1
      -- the first dot makes an empty extension
      have hfirst : p.addDot.fileName? = some (name ++ '.' :: []) := by
        rw [(fileName?_addDot hname).1, dottedName_of_extension?_eq_none hname hnone]
      rw [Function.iterate_succ_apply, fileName?_iterate_of_extension hfirst hne List.not_mem_nil,
        List.replicate_succ', List.append_assoc]

theorem parent?_addDot (hname : p.fileName? = some name) (hparent : p.parent? = some up) :
    ∃ up', p.addDot.parent? = some up' ∧ up'.parts = up.parts := by
  obtain ⟨up₁, hparent₁, hfront₁, hmoves₁, hjoin⟩ := withFileName_eq hname
  obtain rfl := Option.some.inj (hparent₁.symm.trans hparent)
  obtain ⟨hdotted, -⟩ := fileName?_addDot hname
  obtain ⟨htrivial, hslash, -⟩ := isTrivial_fileName hdotted
  obtain ⟨up', hparent', hfront', hmoves'⟩ := parent?_of_moves
    (p := p.addDot) ((congrArg moves (hjoin _)).trans (moves_join hslash htrivial up₁))
  refine ⟨up', hparent', ?_⟩
  rw [parts_eq, parts_eq, hmoves', hfront', addDot, hjoin, front_join hslash htrivial]

theorem parent?_iterate_addDot (hname : p.fileName? = some name) (hparent : p.parent? = some up)
    (k : Nat) : ∃ up', (addDot^[k] p).parent? = some up' ∧ up'.parts = up.parts := by
  induction k with
  | zero => exact ⟨up, hparent, rfl⟩
  | succ k ih =>
      obtain ⟨up', hparent', hparts⟩ := ih
      obtain ⟨new, hnew, -⟩ := fileName?_iterate_addDot hname k
      obtain ⟨up'', hparent'', hparts'⟩ := parent?_addDot hnew hparent'
      rw [Function.iterate_succ_apply']
      exact ⟨up'', hparent'', hparts'.trans hparts⟩

/-- The names of a path with more and more dots. -/
structure Dots (p : Path) (names : Nat → Text) : Prop where
  fileName? : ∀ k, (addDot^[k] p).fileName? = some (names k)
  /-- The paths stay in one folder. -/
  parent? : ∃ up, p.parent? = some up ∧
    ∀ k, ∃ up', (addDot^[k] p).parent? = some up' ∧ up'.same up = true
  byteSize : ∀ k, Text.byteSize (names (k + 1)) = Text.byteSize (names k) + 1
  /-- The dots pile up before the extension, which stays. -/
  extended : ∀ stem extension, names 0 = stem ++ '.' :: extension → stem ≠ [] → '.' ∉ extension →
    ∀ k, names k = stem ++ List.replicate (k + 1) '.' ++ extension ∧
      (addDot^[k] p).extension? = some extension
  /-- Without an extension, they pile up at the end. -/
  plain : p.extension? = none → ∀ k, names k = names 0 ++ List.replicate k '.'

/-- Every path with a file name has such names. -/
theorem dots (hname : p.fileName? = some name) : ∃ names, names 0 = name ∧ p.Dots names := by
  have hall : ∀ k, ∃ new, (addDot^[k] p).fileName? = some new := by
    intro k
    obtain ⟨new, hnew, -⟩ := fileName?_iterate_addDot hname k
    exact ⟨new, hnew⟩
  choose names hnames using hall
  have hfirst : names 0 = name := Option.some.inj ((hnames 0).symm.trans hname)
  refine ⟨names, hfirst, hnames, ?_, fun k => ?_, ?_, ?_⟩
  · obtain ⟨up, hparent, -⟩ := withFileName_eq hname
    refine ⟨up, hparent, fun k => ?_⟩
    obtain ⟨up', hparent', hparts⟩ := parent?_iterate_addDot hname hparent k
    exact ⟨up', hparent', by rw [same, hparts, beq_self_eq_true]⟩
  · have hnext := hnames (k + 1)
    rw [Function.iterate_succ_apply', (fileName?_addDot (hnames k)).1, Option.some.injEq] at hnext
    rw [← hnext, byteSize_dottedName (hnames k)]
  · intro stem extension heq hstem hdot k
    have hform : names k = stem ++ List.replicate k '.' ++ '.' :: extension :=
      Option.some.inj ((hnames k).symm.trans
        (fileName?_iterate_of_extension ((hnames 0).trans (congrArg some heq)) hstem hdot k))
    refine ⟨?_, extension?_eq_some_iff.2 ⟨hdot, stem ++ List.replicate k '.', ?_, ?_⟩⟩
    · rw [hform, List.replicate_succ']
      simp
    · exact fun h => hstem (List.append_eq_nil_iff.1 h).1
    · rw [hnames k, hform]
  · intro hnone k
    rw [hfirst]
    exact Option.some.inj ((hnames k).symm.trans
      (fileName?_iterate_of_extension?_eq_none hname hnone k))

/-- The names are all different, since each of them is longer than those before. -/
theorem Dots.injective {names : Nat → Text} (h : p.Dots names) : Function.Injective names := by
  have hmono : StrictMono fun k => Text.byteSize (names k) := by
    refine strictMono_nat_of_lt_succ fun k => ?_
    rw [h.byteSize k]
    exact Nat.lt_succ_self _
  intro k l heq
  exact hmono.injective (congrArg Text.byteSize heq)

end Path

/-! ## The folder of a path -/

/-- The names of what stands in a folder. -/
def Tree.namesIn (t : Tree) (folder : Location) : List Text :=
  (t.below folder).filterMap fun entry =>
    match entry.1 with
    | [name] => some name
    | _ => none

theorem Tree.mem_namesIn_iff {t : Tree} {folder : Location} {name : Text} :
    name ∈ t.namesIn folder ↔ ∃ e, t.get? (folder ++ [name]) = some e := by
  rw [namesIn, List.mem_filterMap]
  constructor
  · rintro ⟨⟨names, e⟩, hmem, hname⟩
    split at hname
    · rename_i only heq
      obtain rfl : names = [only] := heq
      obtain rfl : only = name := by simpa using hname
      exact ⟨e, (mem_below_iff.1 hmem).2⟩
    · cases hname
  · rintro ⟨e, hget⟩
    exact ⟨([name], e), mem_below_iff.2 ⟨List.cons_ne_nil _ _, hget⟩, rfl⟩

namespace Workspace

variable {ws : Workspace} {p q up : Path} {name : Text} {folder : Location}

/-- The folder in which the file name of a path is looked up. -/
def folderOf? (ws : Workspace) (p : Path) : Option Location :=
  match ws.tree.walkLinks .use Tree.linkLimit (if p.isAbsolute then [] else ws.here)
      p.moves.dropLast with
  | .ok (.entry folder .folder) => some folder
  | _ => none

/-- The names of what stands in the folder of a path. -/
def namesBeside (ws : Workspace) (p : Path) : List Text :=
  match ws.folderOf? p with
  | some folder => ws.tree.namesIn folder
  | none => []

theorem folderOf?_eq_some_iff :
    ws.folderOf? p = some folder ↔
      ws.tree.Leads .use Tree.linkLimit (if p.isAbsolute then [] else ws.here) p.moves.dropLast
        (.entry folder .folder) := by
  rw [folderOf?, ← Tree.walkLinks_eq_ok_iff]
  split
  · rename_i folder' hwalk
    simp [hwalk]
  · rename_i hno
    exact iff_of_false (by simp) (hno folder)

/-- What the parent of a path leads to is its folder; a path without a parent to look up is seen
from the folder of the workspace. -/
theorem folderOf?_of_parent (hname : p.fileName? = some name) (hparent : p.parent? = some up)
    (hfolder : (if up.text = [] then some ws.here else ws.folderAt? .use up) = some folder) :
    ws.folderOf? p = some folder := by
  obtain ⟨up', hparent', hfront, hmoves, -⟩ := Path.withFileName_eq hname
  obtain rfl := Option.some.inj (hparent'.symm.trans hparent)
  have habsolute : p.isAbsolute = up'.isAbsolute := by
    rw [Bool.eq_iff_iff, ← Path.root_mem_front_iff, ← Path.root_mem_front_iff, hfront]
  rw [folderOf?_eq_some_iff, hmoves, List.dropLast_concat, habsolute]
  split at hfolder
  · rename_i hempty
    obtain rfl := Option.some.inj hfolder
    have hup : up' = ⟨[]⟩ := congrArg Path.mk hempty
    rw [hup]
    exact .arrive
  · obtain ⟨-, hleads⟩ :=
      locate_eq_ok_iff.1 (entry_eq_ok_iff.1 (folderAt?_eq_some_iff.1 hfolder))
    have hthin := hleads.thin (Tree.thin_filter _)
    rwa [Path.filter_stepsOf] at hthin

theorem folderOf?_beside (h : p.Beside q) : ws.folderOf? q = ws.folderOf? p := by
  obtain ⟨before, old, new, -, -, hp, hq⟩ := h.moves
  rw [folderOf?, folderOf?, hp, hq, h.isAbsolute, List.dropLast_concat, List.dropLast_concat]

theorem namesBeside_beside (h : p.Beside q) : ws.namesBeside q = ws.namesBeside p := by
  rw [namesBeside, namesBeside, folderOf?_beside h]

/-- The file name of a path that leads to something is the name of an entry in its folder, which may
be a link. -/
theorem mem_namesBeside (hname : p.fileName? = some name) (hexists : ws.pathExists p = true) :
    name ∈ ws.namesBeside p := by
  obtain ⟨⟨loc, e⟩, hentry⟩ := pathExists_iff.1 hexists
  obtain ⟨-, hleads⟩ := locate_eq_ok_iff.1 (entry_eq_ok_iff.1 hentry)
  obtain ⟨hup, before, hmoves⟩ := Path.fileName?_eq_some_iff.1 hname
  have hthin := hleads.thin (Tree.thin_filter _)
  rw [Path.filter_stepsOf, hmoves] at hthin
  obtain ⟨left, folder, hto, hfrom⟩ := hthin.split (List.cons_ne_nil name [])
  have hfolder : ws.folderOf? p = some folder := by
    rw [folderOf?_eq_some_iff, hmoves, List.dropLast_concat]
    exact hto
  rw [namesBeside, hfolder]
  refine Tree.mem_namesIn_iff.2 ?_
  -- only a step by name leads from the folder to something
  cases hfrom with
  | stay hstay => simp [(Path.isTrivial_fileName hname).1] at hstay
  | up => exact absurd rfl hup
  | enter _ _ hget => exact ⟨_, hget⟩
  | file _ hget => exact ⟨_, hget⟩
  | inspect _ haccess => cases haccess
  | follow _ _ _ hget => exact ⟨_, hget⟩

/-! ## The search -/

/-- **Free paths.** For every path with a file name, the search for the path of a copy gives the
first one, among the path and those with more and more dots in the name, that leads to nothing; it
ends by itself, so that more attempts give the same path. All these paths stand in the folder of the
given one, each name is one byte longer than the one before, and the dots pile up before the
extension. The paths that the search passes over have names of entries in the folder, so there are
no more of them than entries. -/
theorem siblingPath_dots (ws : Workspace) {p : Path} {name : Text}
    (hname : p.fileName? = some name) :
    ∃ names, names 0 = name ∧ p.Dots names ∧
      (∀ up folder, p.parent? = some up →
        (if up.text = [] then some ws.here else ws.folderAt? .use up) = some folder →
        ws.namesBeside p = ws.tree.namesIn folder) ∧
      ∃ n ≤ (ws.namesBeside p).length,
        ws.siblingPath p = Path.addDot^[n] p ∧
        (∀ attempts, n ≤ attempts → ws.freePathWithin attempts p = Path.addDot^[n] p) ∧
        ws.pathExists (Path.addDot^[n] p) = false ∧
        ∀ k < n, ws.pathExists (Path.addDot^[k] p) = true ∧ names k ∈ ws.namesBeside p := by
  obtain ⟨names, hfirst, hdots⟩ := Path.dots hname
  obtain ⟨n, hpath, hfree, hbefore⟩ := @siblingPath_spec ws p name hname
  have hmem : ∀ k < n, names k ∈ ws.namesBeside p := by
    intro k hk
    rw [← namesBeside_beside (Path.beside_iterate_addDot hname k)]
    exact mem_namesBeside (hdots.fileName? k) (hbefore k hk)
  refine ⟨names, hfirst, hdots, fun up folder hparent hfolder => ?_, n,
    le_length_of_injective hdots.injective hmem, hpath, fun attempts hle => ?_, hfree,
    fun k hk => ⟨hbefore k hk, hmem k hk⟩⟩
  · rw [namesBeside, folderOf?_of_parent hname hparent hfolder]
  · exact (tries_freePathWithin ws).eq_of_le hfree hbefore hle

/-- A source beside a link to it and a link to nothing: the link to nothing is free, so it is the
path of the copy. -/
theorem siblingPath_dots_dangling :
    let ws : Workspace := ⟨⟨.ofList [
      (["w".toList], .folder),
      (["w".toList, "A.java".toList], .file (.text [])),
      (["w".toList, "A..java".toList], .link "A.java".toList),
      (["w".toList, "A...java".toList], .link "gone".toList)]⟩, ["w".toList]⟩
    let p := Path.ofString "A.java"
    p.fileName? = some "A.java".toList ∧ ws.siblingPath p = .ofString "A...java" ∧
      (∃ n ≤ 3, ws.siblingPath p = Path.addDot^[n] p) ∧
      ∀ k, (Path.addDot^[k] p).fileName? =
        some ("A".toList ++ List.replicate (k + 1) '.' ++ "java".toList) := by
  intro ws p
  have hname : p.fileName? = some "A.java".toList := by decide
  obtain ⟨names, hfirst, hdots, -, n, hn, hpath, -⟩ := ws.siblingPath_dots hname
  have hlength : (ws.namesBeside p).length = 3 := by decide +kernel
  refine ⟨hname, by decide +kernel, ⟨n, hlength ▸ hn, hpath⟩, fun k => ?_⟩
  rw [hdots.fileName? k, (hdots.extended "A".toList "java".toList hfirst (by decide) (by decide) k).1]

end Workspace

end Unmangle
