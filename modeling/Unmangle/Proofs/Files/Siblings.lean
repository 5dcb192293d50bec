import Unmangle.Proofs.Candidates
import Unmangle.Proofs.Files.Parents
import Unmangle.Proofs.Files.Places

set_option autoImplicit false

/-! # Paths beside each other

The path of a copy differs from that of its source in the file name only (`Path.Beside`): the rest
of the way is the same, up to slashes and single dots. So both lead to the same folder, and then to
what has the two names there, unless a link has one of them.

* `Path.beside_withFileName`: another file name gives a path beside.
* `Tree.Leads.split`: a way is one to a folder and one from there.
* `Workspace.loc_of_beside`: where the path of a copy leads, given where its source stands.
* `Workspace.siblingPath_spec`: the search for the path of a copy finds the first free one.
-/

namespace Unmangle

/-! ## Other file names -/

namespace Path

variable {p q r : Path} {name old new : Text}

/-- Paths that differ in their file names only. -/
structure Beside (p q : Path) : Prop where
  isAbsolute : q.isAbsolute = p.isAbsolute
  moves : ∃ before old new, p.fileName? = some old ∧ q.fileName? = some new ∧
    p.moves = before ++ [old] ∧ q.moves = before ++ [new]

theorem Beside.refl (h : p.fileName? = some name) : p.Beside p := by
  obtain ⟨-, before, hmoves⟩ := fileName?_eq_some_iff.1 h
  exact ⟨rfl, before, name, name, h, h, hmoves, hmoves⟩

theorem Beside.trans (h : p.Beside q) (h' : q.Beside r) : p.Beside r := by
  obtain ⟨before, old, new, hold, hnew, hp, hq⟩ := h.moves
  obtain ⟨before', new', last, -, hlast, hq', hr⟩ := h'.moves
  obtain ⟨rfl, -⟩ := List.append_inj' (hq.symm.trans hq') rfl
  exact ⟨h'.isAbsolute.trans h.isAbsolute, before, old, last, hold, hlast, hp, hr⟩

/-- A file name is put in the place of another one by joining it to the parent. -/
theorem withFileName_eq (hold : p.fileName? = some old) :
    ∃ up, p.parent? = some up ∧ up.front = p.front ∧ p.moves = up.moves ++ [old] ∧
      ∀ new, p.withFileName new = up.join ⟨new⟩ := by
  obtain ⟨-, before, hmoves⟩ := fileName?_eq_some_iff.1 hold
  obtain ⟨up, hparent, hfront, hbefore⟩ := parent?_of_moves hmoves
  refine ⟨up, hparent, hfront, hbefore ▸ hmoves, fun new => ?_⟩
  rw [withFileName, hold, hparent]
  rfl

/-- A file name in the place of another one. -/
theorem beside_withFileName (hold : p.fileName? = some old) (hslash : '/' ∉ new)
    (hnew : isTrivial new = false) (hup : new ≠ ['.', '.']) : p.Beside (p.withFileName new) := by
  obtain ⟨up, -, hfront, hmoves, hjoin⟩ := withFileName_eq hold
  rw [hjoin]
  refine ⟨?_, up.moves, old, new, hold, fileName?_join hslash hnew hup up, hmoves,
    moves_join hslash hnew up⟩
  rw [Bool.eq_iff_iff, ← root_mem_front_iff, ← root_mem_front_iff, front_join hslash hnew, hfront]

theorem beside_addDot (h : p.fileName? = some name) : p.Beside p.addDot := by
  obtain ⟨hdotted, -⟩ := fileName?_addDot h
  obtain ⟨hup, -⟩ := fileName?_eq_some_iff.1 hdotted
  obtain ⟨htrivial, hslash, -⟩ := isTrivial_fileName hdotted
  exact beside_withFileName h hslash htrivial hup

/-- Dots that are added one after another make the file name longer. -/
theorem fileName?_iterate_addDot (h : p.fileName? = some name) (n : Nat) :
    ∃ new, (addDot^[n] p).fileName? = some new ∧ new.length = name.length + n := by
  induction n with
  | zero => exact ⟨name, h, rfl⟩
  | succ n ih =>
      obtain ⟨new, hnew, hlength⟩ := ih
      obtain ⟨hnext, hlonger⟩ := fileName?_addDot hnew
      rw [Function.iterate_succ_apply']
      exact ⟨_, hnext, by omega⟩

theorem beside_iterate_addDot (h : p.fileName? = some name) (n : Nat) :
    p.Beside (addDot^[n] p) := by
  induction n with
  | zero => exact .refl h
  | succ n ih =>
      obtain ⟨new, hnew, -⟩ := fileName?_iterate_addDot h n
      rw [Function.iterate_succ_apply']
      exact ih.trans (beside_addDot hnew)

end Path

/-! ## The folder of what a path leads to -/

namespace Tree

variable {t : Tree} {access : Access} {links : Nat} {here loc : Location} {step : Text}
  {front last steps : List Text} {content : Content} {f g : Found}

theorem Leads.unique (h : t.Leads access links here steps f)
    (h' : t.Leads access links here steps g) : f = g :=
  Except.ok.inj (h.walkLinks_eq.symm.trans h'.walkLinks_eq)

/-- Steps lead to a folder and on from there, wherever they are parted: by induction on the way,
which may be parted before its first step. -/
theorem Leads.split (hlast : last ≠ []) (h : t.Leads access links here (front ++ last) f) :
    ∃ left folder, t.Leads .use links here front (.entry folder .folder) ∧
      t.Leads access left folder last f := by
  have hone : ∀ {front : List Text} {step},
      front ++ last = [step] → front = [] ∧ last = [step] := by
    intro front step hsteps
    rcases List.append_eq_singleton_iff.1 hsteps with hfront | ⟨-, hnil⟩
    · exact hfront
    · exact absurd hnil hlast
  generalize hsteps : front ++ last = steps at h
  induction h generalizing front with
  | arrive => exact absurd (List.append_eq_nil_iff.1 hsteps).2 hlast
  | stay hstay hrest ih =>
      cases front with
      | nil =>
          obtain rfl : last = _ := hsteps
          exact ⟨_, _, .arrive, .stay hstay hrest⟩
      | cons step front =>
          obtain ⟨rfl, hfront⟩ := List.cons_eq_cons.1 hsteps
          obtain ⟨left, folder, hto, hfrom⟩ := ih hfront
          exact ⟨left, folder, .stay hstay hto, hfrom⟩
  | up hrest ih =>
      cases front with
      | nil =>
          obtain rfl : last = _ := hsteps
          exact ⟨_, _, .arrive, .up hrest⟩
      | cons step front =>
          obtain ⟨rfl, hfront⟩ := List.cons_eq_cons.1 hsteps
          obtain ⟨left, folder, hto, hfrom⟩ := ih hfront
          exact ⟨left, folder, .up hto, hfrom⟩
  | enter hname hwrite hget hrest ih =>
      cases front with
      | nil =>
          obtain rfl : last = _ := hsteps
          exact ⟨_, _, .arrive, .enter hname hwrite hget hrest⟩
      | cons step front =>
          obtain ⟨rfl, hfront⟩ := List.cons_eq_cons.1 hsteps
          obtain ⟨left, folder, hto, hfrom⟩ := ih hfront
          exact ⟨left, folder, .enter hname (by simp) hget hto, hfrom⟩
  | file hname hget =>
      obtain ⟨rfl, rfl⟩ := hone hsteps
      exact ⟨0, _, .arrive, .file hname hget⟩
  | free hname hget =>
      obtain ⟨rfl, rfl⟩ := hone hsteps
      exact ⟨0, _, .arrive, .free hname hget⟩
  | inspect hname haccess hget =>
      obtain ⟨rfl, rfl⟩ := hone hsteps
      exact ⟨0, _, .arrive, .inspect hname haccess hget⟩
  | follow hname hwrite hinspect hget hrest ih =>
      cases front with
      | nil =>
          obtain rfl : last = _ := hsteps
          exact ⟨_, _, .arrive, .follow hname hwrite hinspect hget hrest⟩
      | cons step front =>
          -- the steps of the target come before the rest of the first part
          obtain ⟨rfl, rfl⟩ := List.cons_eq_cons.1 hsteps
          obtain ⟨left, folder, hto, hfrom⟩ := ih (List.append_assoc _ front last)
          exact ⟨left, folder, .follow hname (by simp) (by simp) hget hto, hfrom⟩

/-- A name leads to what has it in the folder, unless that is a link. -/
theorem Leads.loc_of_name (htrivial : Path.isTrivial step = false) (hup : step ≠ ['.', '.'])
    (h : t.Leads access links here [step] f) :
    f.loc = here ++ [step] ∨ ∃ target, t.get? (here ++ [step]) = some (.link target) := by
  cases h with
  | stay hstay => simp [htrivial] at hstay
  | up => exact absurd rfl hup
  | enter _ _ _ hrest =>
      cases hrest
      exact .inl rfl
  | file => exact .inl rfl
  | free => exact .inl rfl
  | inspect => exact .inl rfl
  | follow _ _ _ hget _ => exact .inr ⟨_, hget⟩

/-- A file that is found without following a link at the end of the way has the last step as its
name. -/
theorem Leads.inspect_file (h : t.Leads .inspect links here steps (.entry loc (.file content))) :
    ∃ front step folder, steps = front ++ [step] ∧ IsName step ∧ loc = folder ++ [step] ∧
      t.Leads .use links here front (.entry folder .folder) := by
  rcases List.eq_nil_or_concat' steps with rfl | ⟨front, step, rfl⟩
  · cases h
  obtain ⟨left, folder, hto, hfrom⟩ := h.split (List.cons_ne_nil step [])
  refine ⟨front, step, folder, rfl, ?_⟩
  cases hfrom with
  | stay _ hrest => cases hrest
  | up hrest => cases hrest
  | enter _ _ _ hrest => cases hrest
  | file hname => exact ⟨hname, rfl, hto⟩
  | follow _ _ hinspect => exact absurd ⟨rfl, rfl⟩ hinspect

end Tree

namespace Workspace

variable {ws : Workspace} {p q : Path} {loc : Location} {content : Content} {f : Found}

/-- A path beside one that leads to a file, which is no link, leads to the same folder, and there to
what has its file name or on through a link with this name. -/
theorem loc_of_beside (hp : ws.entry .inspect p = .ok (loc, .file content)) (hbeside : p.Beside q)
    (hq : ws.locate .use q = .ok f) :
    ∃ name, q.fileName? = some name ∧ (f.loc = loc.dropLast ++ [name] ∨
      ∃ target, ws.tree.get? (loc.dropLast ++ [name]) = some (.link target)) := by
  obtain ⟨before, old, new, -, hnew, hmoves, hmoves'⟩ := hbeside.moves
  obtain ⟨-, hleads⟩ := locate_eq_ok_iff.1 (entry_eq_ok_iff.1 hp)
  obtain ⟨front, step, folder, hsteps, hname, rfl, hto⟩ := hleads.inspect_file
  -- without the steps that stay in a folder, both ways are the same before the file names
  have hbefore : front.filter (!Path.isTrivial ·) = before := by
    have hfilter := p.filter_stepsOf
    rw [hsteps, hmoves, List.filter_append,
      List.filter_cons_of_pos (by simp [hname.not_trivial])] at hfilter
    exact (List.append_inj' hfilter rfl).1
  have hto' := hto.thin (Tree.thin_filter front)
  rw [hbefore] at hto'
  obtain ⟨-, hleads'⟩ := locate_eq_ok_iff.1 hq
  have hway := hleads'.thin (Tree.thin_filter _)
  rw [Path.filter_stepsOf, hmoves', hbeside.isAbsolute] at hway
  obtain ⟨left, folder', hto'', hfrom⟩ := hway.split (List.cons_ne_nil new [])
  obtain ⟨rfl, -⟩ := Found.entry.inj (hto'.unique hto'')
  refine ⟨new, hnew, ?_⟩
  rw [List.dropLast_concat]
  exact hfrom.loc_of_name (Path.isTrivial_fileName hnew).1 (Path.fileName?_eq_some_iff.1 hnew).1

/-! ## Free paths -/

theorem tries_freePathWithin (ws : Workspace) :
    Tries ws.pathExists Path.addDot ws.freePathWithin :=
  ⟨fun _ => rfl, fun _ _ => rfl⟩

theorem length_lt_of_pathExists (h : ws.pathExists p = true) : p.text.length < Tree.pathLimit := by
  obtain ⟨⟨loc, e⟩, hentry⟩ := pathExists_iff.1 h
  obtain ⟨⟨-, hshort⟩, -⟩ := locate_eq_ok_iff.1 (entry_eq_ok_iff.1 hentry)
  exact Nat.lt_of_le_of_lt (Text.length_le_byteSize p.text) hshort

/-- The search for a free path finds the first one: every attempt makes the file name longer, and a
path with too long a name leads nowhere. -/
theorem siblingPath_spec {name : Text} (hname : p.fileName? = some name) :
    ∃ n, ws.siblingPath p = Path.addDot^[n] p ∧ ws.pathExists (Path.addDot^[n] p) = false ∧
      ∀ k < n, ws.pathExists (Path.addDot^[k] p) = true := by
  refine (tries_freePathWithin ws).finds fun n hexists => ?_
  obtain ⟨new, hnew, hlength⟩ := Path.fileName?_iterate_addDot hname n
  have hshort := length_lt_of_pathExists (hexists n (Nat.le_refl n))
  have hle := (Path.isTrivial_fileName hnew).2.2
  omega

theorem siblingPath_free (hname : p.fileName?.isSome) :
    ws.pathExists (ws.siblingPath p) = false := by
  obtain ⟨name, hname⟩ := Option.isSome_iff_exists.1 hname
  obtain ⟨n, hpath, hfree, -⟩ := siblingPath_spec hname
  rwa [hpath]

/-- The path of a copy is beside that of its source: every attempt changes the file name only. -/
theorem beside_siblingPath (h : p.fileName?.isSome) : p.Beside (ws.siblingPath p) := by
  obtain ⟨name, hname⟩ := Option.isSome_iff_exists.1 h
  obtain ⟨n, hpath, -⟩ := siblingPath_spec hname
  rw [hpath]
  exact Path.beside_iterate_addDot hname n

end Workspace

end Unmangle
