import Unmangle.Proofs.Files.Lookup

set_option autoImplicit false

/-! # Places of paths

A text that is written to a path makes a file where none is, or takes the place of what a file held.
Folders and links stay, so every path leads to the same location as before. The location is the
place of the path (`Workspace.place?`), and the tree before and the tree after are alike
(`Workspace.Alike`), which is an equivalence.

* `Workspace.Alike.place?_eq`: places are the same in workspaces that are alike.
* `Workspace.Proper.entry_use_eq_ok_iff`: a path leads to what stands at its place.
* `Workspace.Proper.readText_eq_ok_iff`: a read gives the text of the file at the place.
* `Workspace.Proper.writeText_spec`: a write puts a file at the place, and changes nothing else.
-/

namespace Unmangle

def Found.loc : Found → Location
  | .entry loc _ => loc
  | .vacant loc => loc

namespace Tree

variable {t t' t'' : Tree} {access : Access} {links : Nat} {here loc : Location} {step : Text}
  {steps : List Text} {f : Found} {content : Content}

def FileOrFree (t : Tree) (loc : Location) : Prop :=
  ∀ e ∈ t.get? loc, ∃ content, e = .file content

/-- Trees that differ in files only. -/
def Alike (t t' : Tree) : Prop :=
  ∀ loc, t'.get? loc = t.get? loc ∨ t.FileOrFree loc ∧ t'.FileOrFree loc

theorem Alike.refl (t : Tree) : t.Alike t := fun _ => .inl rfl

theorem Alike.symm (h : t.Alike t') : t'.Alike t := by
  intro loc
  rcases h loc with heq | ⟨hold, hnew⟩
  · exact .inl heq.symm
  · exact .inr ⟨hnew, hold⟩

theorem Alike.fileOrFree (h : t.Alike t') (hold : t.FileOrFree loc) : t'.FileOrFree loc := by
  rcases h loc with heq | ⟨_, hnew⟩
  · rw [FileOrFree, heq]
    exact hold
  · exact hnew

theorem Alike.trans (h : t.Alike t') (h' : t'.Alike t'') : t.Alike t'' := by
  intro loc
  rcases h loc with heq | ⟨hold, hnew⟩
  · rcases h' loc with heq' | ⟨hold', hnew'⟩
    · exact .inl (heq'.trans heq)
    · exact .inr ⟨h.symm.fileOrFree hold', hnew'⟩
  · exact .inr ⟨hold, h'.fileOrFree hnew⟩

theorem Alike.folder (h : t.Alike t') (hget : t.get? loc = some .folder) :
    t'.get? loc = some .folder := by
  rcases h loc with heq | ⟨hold, _⟩
  · exact heq.trans hget
  · obtain ⟨content, hfile⟩ := hold _ hget
    cases hfile

theorem Alike.link {target : Text} (h : t.Alike t') (hget : t.get? loc = some (.link target)) :
    t'.get? loc = some (.link target) := by
  rcases h loc with heq | ⟨hold, _⟩
  · exact heq.trans hget
  · obtain ⟨content, hfile⟩ := hold _ hget
    cases hfile

theorem ne_nil_of_fileOrFree (h : t.FileOrFree loc) : loc ≠ [] := by
  rintro rfl
  obtain ⟨content, hfile⟩ := h .folder (by simp [get?])
  cases hfile

theorem alike_put (h : t.FileOrFree loc) : t.Alike (t.put loc (.file content)) := by
  intro other
  by_cases heq : other = loc
  · subst heq
    refine .inr ⟨h, ?_⟩
    rw [FileOrFree, get?_put_self (ne_nil_of_fileOrFree h)]
    simp
  · exact .inl (get?_put_of_ne heq)

/-- A tree stays proper when a file is put where a file or nothing was. -/
theorem Proper.put_file (ht : t.Proper) (h : t.FileOrFree loc) (hloc : t.ProperAt loc) :
    (t.put loc (.file content)).Proper := by
  have halike : t.Alike (t.put loc (.file content)) := alike_put h
  have hstays : ∀ {other}, t.ProperAt other → (t.put loc (.file content)).ProperAt other :=
    fun hat name hname => ⟨(hat name hname).1, halike.folder (hat name hname).2⟩
  intro other hother
  by_cases heq : other = loc
  · exact heq ▸ hstays hloc
  · obtain ⟨e, he⟩ := Dict.mem_keys_iff.1 hother
    have hold : t.entries.get? other = some e :=
      (Dict.get?_insert_of_ne (d := t.entries) (Ne.symm heq) (.file content)).symm.trans he
    exact hstays (ht other (Dict.mem_keys_iff.2 ⟨e, hold⟩))

/-- What a look-up finds in a tree that is alike. -/
def seenAgain (t : Tree) : Found → Found
  | .entry loc .folder => .entry loc .folder
  | .entry loc (.link target) => .entry loc (.link target)
  | .entry loc (.file _) => t.seen (.vacant loc)
  | .vacant loc => t.seen (.vacant loc)

theorem loc_seenAgain (t : Tree) (f : Found) : (t.seenAgain f).loc = f.loc := by
  have hseen : ∀ loc, (t.seen (.vacant loc)).loc = loc := by
    intro loc
    rw [seen]
    split <;> rfl
  cases f with
  | entry loc e =>
      cases e with
      | file content => exact hseen loc
      | link target => rfl
      | folder => rfl
  | vacant loc => exact hseen loc

theorem FileOrFree.leads (h : t.FileOrFree (here ++ [step])) (hname : IsName step) :
    t.Leads access links here [step] (t.seen (.vacant (here ++ [step]))) := by
  rw [seen]
  cases hget : t.get? (here ++ [step]) with
  | none => exact .free hname hget
  | some e =>
      obtain ⟨content, rfl⟩ := h e hget
      exact .file hname hget

/-- A look-up takes the same way through trees that are alike. -/
theorem Leads.alike (halike : t.Alike t') (h : t.Leads access links here steps f) :
    t'.Leads access links here steps (t'.seenAgain f) := by
  induction h with
  | arrive => exact .arrive
  | stay hstay _ ih => exact .stay hstay ih
  | up _ ih => exact .up ih
  | enter hname hwrite hget _ ih => exact .enter hname hwrite (halike.folder hget) ih
  | file hname hget =>
      exact (halike.fileOrFree (by simp [FileOrFree, hget])).leads hname
  | free hname hget =>
      exact (halike.fileOrFree (by simp [FileOrFree, hget])).leads hname
  | inspect hname haccess hget => exact .inspect hname haccess (halike.link hget)
  | follow hname hwrite hinspect hget _ ih =>
      exact .follow hname hwrite hinspect (halike.link hget) ih

end Tree

namespace Workspace

variable {ws ws' ws'' : Workspace} {access : Tree.Access} {p q : Path} {loc : Location} {t : Text}
  {f : Found}

/-- Workspaces that differ in files only. -/
structure Alike (ws ws' : Workspace) : Prop where
  here : ws'.here = ws.here
  tree : ws.tree.Alike ws'.tree

theorem Alike.refl (ws : Workspace) : ws.Alike ws := ⟨rfl, .refl _⟩

theorem Alike.symm (h : ws.Alike ws') : ws'.Alike ws := ⟨h.here.symm, h.tree.symm⟩

theorem Alike.trans (h : ws.Alike ws') (h' : ws'.Alike ws'') : ws.Alike ws'' :=
  ⟨h'.here.trans h.here, h.tree.trans h'.tree⟩

theorem Alike.locate (halike : ws.Alike ws') (h : ws.locate access p = .ok f) :
    ws'.locate access p = .ok (ws'.tree.seenAgain f) := by
  obtain ⟨hp, hleads⟩ := locate_eq_ok_iff.1 h
  rw [← halike.here] at hleads
  exact locate_eq_ok_iff.2 ⟨hp, hleads.alike halike.tree⟩

/-- The location that a path leads to through links, with something there or free. -/
def place? (ws : Workspace) (p : Path) : Option Location :=
  match ws.locate .use p with
  | .ok f => some f.loc
  | .error _ => none

theorem place?_eq_some_iff :
    ws.place? p = some loc ↔ ∃ f, ws.locate .use p = .ok f ∧ f.loc = loc := by
  rw [place?]
  cases ws.locate .use p with
  | error cause => simp
  | ok f => simp

theorem byteSize_lt_of_place? (h : ws.place? p = some loc) :
    Text.byteSize p.text < Tree.pathLimit := by
  obtain ⟨f, hlocate, -⟩ := place?_eq_some_iff.1 h
  exact (locate_eq_ok_iff.1 hlocate).1.2

theorem Alike.place?_eq (halike : ws.Alike ws') (p : Path) : ws'.place? p = ws.place? p := by
  have hone : ∀ {ws ws' : Workspace}, ws.Alike ws' → ∀ loc, ws.place? p = some loc →
      ws'.place? p = some loc := by
    intro ws ws' halike loc h
    obtain ⟨f, hlocate, hloc⟩ := place?_eq_some_iff.1 h
    exact place?_eq_some_iff.2 ⟨_, halike.locate hlocate, (Tree.loc_seenAgain _ f).trans hloc⟩
  exact Option.ext fun loc => ⟨hone halike.symm loc, hone halike loc⟩

theorem readText_eq_ok_iff_entry :
    ws.readText p = .ok t ↔ ∃ loc, ws.entry .use p = .ok (loc, .file (.text t)) := by
  rw [readText]
  constructor
  · intro h
    cases hentry : ws.entry .use p with
    | error cause => simp [hentry, bind, Except.bind] at h
    | ok x =>
        simp only [hentry, bind, Except.bind] at h
        split at h
        · rename_i loc _
          obtain rfl := Except.ok.inj h
          exact ⟨loc, rfl⟩
        all_goals cases h
  · rintro ⟨loc, hentry⟩
    rw [hentry]
    rfl

namespace Proper

/-- A path leads to what stands at its place. -/
theorem entry_use_eq_ok_iff {e : Entry} (hws : ws.Proper) :
    ws.entry .use p = .ok (loc, e) ↔ ws.place? p = some loc ∧ ws.tree.get? loc = some e := by
  rw [entry_eq_ok_iff, place?_eq_some_iff]
  constructor
  · intro h
    exact ⟨⟨_, h, rfl⟩, hws.fits h⟩
  · rintro ⟨⟨f, hlocate, rfl⟩, hget⟩
    have hfits := hws.fits hlocate
    cases f with
    | entry loc e' =>
        obtain rfl := Option.some.inj (hfits.symm.trans hget)
        exact hlocate
    | vacant loc =>
        obtain ⟨_, _, _, hnone, _⟩ := hfits
        cases hnone.symm.trans hget

/-- A path leads to nothing if nothing stands at its place. -/
theorem pathExists_eq_false_iff (hws : ws.Proper) (hplace : ws.place? p = some loc) :
    ws.pathExists p = false ↔ ws.tree.get? loc = none := by
  rw [← Bool.not_eq_true, pathExists_iff, Option.eq_none_iff_forall_ne_some]
  constructor
  · intro hfree e hget
    exact hfree ⟨_, hws.entry_use_eq_ok_iff.2 ⟨hplace, hget⟩⟩
  · rintro hnone ⟨⟨loc', e⟩, hentry⟩
    obtain ⟨hplace', hget⟩ := hws.entry_use_eq_ok_iff.1 hentry
    obtain rfl := Option.some.inj (hplace.symm.trans hplace')
    exact hnone e hget

/-- A path can be read if a text stands at its place. -/
theorem readText_eq_ok_iff (hws : ws.Proper) :
    ws.readText p = .ok t ↔
      ∃ loc, ws.place? p = some loc ∧ ws.tree.get? loc = some (.file (.text t)) := by
  simp only [readText_eq_ok_iff_entry, hws.entry_use_eq_ok_iff]

/-- A text that is written to a path stands in a file at the place of the path, and there is no
other change. -/
theorem writeText_spec (hws : ws.Proper) (h : ws.writeText p t = .ok ws') :
    ∃ loc, ws.place? p = some loc ∧ ws.tree.FileOrFree loc ∧
      ws' = { ws with tree := ws.tree.put loc (.file (.text t)) } ∧ ws'.Proper ∧ ws.Alike ws' := by
  have hfound : ∃ f, ws.locate .write p = .ok f ∧ (∀ e, f = .entry f.loc e → ∃ content,
      e = .file content) ∧ ws' = { ws with tree := ws.tree.put f.loc (.file (.text t)) } := by
    rw [writeText] at h
    cases hlocate : ws.locate .write p with
    | error cause => simp [hlocate, bind, Except.bind] at h
    | ok f =>
        rw [hlocate] at h
        cases f with
        | vacant loc => exact ⟨_, rfl, nofun, (Except.ok.inj h).symm⟩
        | entry loc e =>
            cases e with
            | file content =>
                refine ⟨_, rfl, fun e he => ⟨content, ?_⟩, (Except.ok.inj h).symm⟩
                exact (Found.entry.inj he).2.symm
            | link target => cases h
            | folder => cases h
  obtain ⟨f, hlocate, hfile, rfl⟩ := hfound
  have hlink : ∀ loc target, f ≠ .entry loc (.link target) := by
    rintro loc target rfl
    obtain ⟨content, hcontent⟩ := hfile _ rfl
    cases hcontent
  have hfits := hws.fits hlocate
  have hplain : ws.tree.FileOrFree f.loc ∧ ws.tree.ProperAt f.loc := by
    cases f with
    | entry loc e =>
        obtain ⟨content, rfl⟩ := hfile e rfl
        have hget : ws.tree.get? loc = some (.file content) := hfits
        exact ⟨by simp [Tree.FileOrFree, Found.loc, hget], hws.tree.properAt hget⟩
    | vacant loc =>
        obtain ⟨base, name, rfl, hnone, hbase, hname, hslash⟩ := hfits
        refine ⟨by simp [Tree.FileOrFree, Found.loc, hnone], fun last hlast => ?_⟩
        obtain rfl : name = last := by simpa [Found.loc] using hlast
        rw [Found.loc, List.dropLast_concat]
        exact ⟨⟨hname, hslash⟩, hbase⟩
  have halike : ws.Alike { ws with tree := ws.tree.put f.loc (.file (.text t)) } :=
    ⟨rfl, Tree.alike_put hplain.1⟩
  exact ⟨f.loc, place?_eq_some_iff.2 ⟨f, locate_use hlink hlocate, rfl⟩, hplain.1, rfl,
    ⟨hws.tree.put_file hplain.1 hplain.2, halike.tree.folder hws.here⟩, halike⟩

end Proper

end Workspace

end Unmangle
