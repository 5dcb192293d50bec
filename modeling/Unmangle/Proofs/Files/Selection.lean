import Unmangle.Files.Process
import Unmangle.Proofs.Files.Lookup

set_option autoImplicit false

/-! # The files that a walk selects

A walk lists paths, and the files behind them are read one after another, when others have been
written. This does no harm, since a path that a walk lists as a file leads to a file from the start
(`Workspace.entry_below`), or is too long to lead anywhere (`Workspace.Settled`), and so it leads to
the same in a workspace with more files (`Workspace.Settled.entry_eq`).
-/

namespace Unmangle

namespace Tree

variable {t : Tree} {base loc names : Location} {name : Text} {e : Entry}

theorem relative?_eq_some_iff : relative? base loc = some names ↔ loc = base ++ names := by
  induction base generalizing loc with
  | nil => simp [relative?]
  | cons n base ih =>
      cases loc with
      | nil => simp [relative?]
      | cons m loc =>
          rw [relative?]
          by_cases hnm : n = m
          · rw [if_pos hnm, ih, hnm]
            simp
          · simp [hnm, Ne.symm hnm]

/-- What is listed below a location stands there, under at least one name. -/
theorem get?_of_mem_below (h : (names, e) ∈ t.below base) :
    names ≠ [] ∧ t.get? (base ++ names) = some e := by
  obtain ⟨⟨loc, e'⟩, hmem, hpick⟩ := List.mem_filterMap.1 h
  simp only at hpick
  split at hpick
  · rename_i n rest hrelative
    obtain ⟨rfl, rfl⟩ : n :: rest = names ∧ e' = e := by simpa using hpick
    have hloc := relative?_eq_some_iff.1 hrelative
    rw [← hloc, get?, if_neg (by simp [hloc])]
    exact ⟨List.cons_ne_nil n rest, Dict.get?_eq_some_iff.2 hmem⟩
  · cases hpick

/-- The names on the way to what stands in a proper tree are names. -/
theorem Proper.name_of_mem (ht : t.Proper) (hget : t.get? loc = some e) (hname : name ∈ loc) :
    IsName name ∧ '/' ∉ name := by
  induction loc using List.reverseRecOn generalizing e with
  | nil => cases hname
  | append_singleton base last ih =>
      obtain ⟨hlast, hbase⟩ := ht.concat hget
      rcases List.mem_append.1 hname with hname | hname
      · exact ih hbase hname
      · rwa [List.mem_singleton.1 hname]

theorem thin_namesOf (t : Text) : Thin (stepsOf t) (namesOf t) := by
  have htail : Thin (if t.getLast? = some '/' then [[]] else []) [] := by
    split
    · exact .drop rfl .nil
    · exact .nil
  simpa [stepsOf] using htail.append_left (namesOf t)

end Tree

namespace Workspace

variable {ws ws' : Workspace} {p q : Path} {loc names : Location} {content : Content}

/-- A path that leads to a file, or is too long to lead anywhere. -/
def Settled (ws : Workspace) (p : Path) : Prop :=
  (∃ loc content, ws.entry .use p = .ok (loc, .file content)) ∨
    Tree.pathLimit ≤ Text.byteSize p.text

theorem entry_of_long {access : Tree.Access} (hlong : Tree.pathLimit ≤ Text.byteSize p.text) :
    ws.entry access p = .error .nameTooLong := by
  have hempty : p.text.isEmpty = false := by
    cases htext : p.text with
    | nil =>
        rw [htext] at hlong
        exact absurd hlong (by decide)
    | cons c text => rfl
  rw [entry, locate, hempty, if_neg Bool.false_ne_true, if_pos hlong]
  rfl

/-- What a settled path leads to is the same when there are more files. -/
theorem Settled.entry_eq (h : ws.Settled p) (hmore : ws.MoreFiles ws') :
    ws'.entry .use p = ws.entry .use p := by
  rcases h with ⟨loc, content, hentry⟩ | hlong
  · rw [hentry, hmore.entry hentry]
  · rw [entry_of_long hlong, entry_of_long hlong]

/-! ## What a walk lists -/

/-- The path of a file below a folder leads to it for every use, unless it is too long. -/
theorem entry_below (hws : ws.Proper) (hfolder : ws.entry .use p = .ok (loc, .folder))
    (hbelow : (names, .file content) ∈ ws.tree.below loc) (access : Tree.Access) :
    ws.entry access (p.along names) = .ok (loc ++ names, .file content) ∨
      Tree.pathLimit ≤ Text.byteSize (p.along names).text := by
  obtain ⟨hne, hget⟩ := Tree.get?_of_mem_below hbelow
  obtain ⟨⟨hp, _⟩, hleads⟩ := locate_eq_ok_iff.1 (entry_eq_ok_iff.1 hfolder)
  have hproper : ∀ name ∈ names, '/' ∉ name ∧ name ≠ [] := by
    intro name hname
    obtain ⟨hisName, hslash⟩ := hws.tree.name_of_mem hget (List.mem_append_right loc hname)
    refine ⟨hslash, ?_⟩
    rintro rfl
    cases hisName.not_trivial
  have hnot : names ≠ [[]] := by
    rintro rfl
    exact (hproper [] List.mem_cons_self).2 rfl
  obtain ⟨hne', habsolute, hsteps⟩ := Path.stepsOf_along hne hproper hp
  have hnames : ∀ links,
      ws.tree.Leads access links loc names (.entry (loc ++ names) (.file content)) :=
    fun links => hws.tree.leads hget links hne
  -- a slash at the end of the path is no step of the longer path
  have hway := (hleads.thin (Tree.thin_namesOf _)).append hnames hne hnot
  rw [← hsteps, ← habsolute] at hway
  rcases Nat.lt_or_ge (Text.byteSize (p.along names).text) Tree.pathLimit with hshort | hlong
  · exact .inl (entry_eq_ok_iff.2 (locate_eq_ok_iff.2 ⟨⟨hne', hshort⟩, hway⟩))
  · exact .inr hlong

/-! ## Selection -/

/-- The files that are decoded for a path. -/
def selection (ws : Workspace) (extensions : List Text) (p : Path) : List Path :=
  (ws.walk p).filterMap (·.selected? extensions)

theorem selected?_eq_some_iff {extensions : List Text} {s : Sighting} :
    s.selected? extensions = some q ↔ s = .file q ∧ hasExtension q extensions = true := by
  cases s with
  | file p =>
      rw [Sighting.selected?, Option.ite_none_right_eq_some]
      constructor
      · rintro ⟨hp, ⟨⟩⟩
        exact ⟨rfl, hp⟩
      · rintro ⟨⟨⟩, hp⟩
        exact ⟨hp, rfl⟩
  | folder p => simp [Sighting.selected?]
  | other p => simp [Sighting.selected?]
  | failed p cause => simp [Sighting.selected?]

end Workspace

end Unmangle
