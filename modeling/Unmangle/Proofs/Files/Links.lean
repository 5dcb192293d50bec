import Unmangle.Proofs.Files.Copies

set_option autoImplicit false

/-! # Links and the files that a call writes

A walk lists links as skipped and decodes none of them, so a call changes regular files at or below
the given path, or makes files beside them. Links still have an effect at two places. The given path
may be a link: it stands for the file that it leads to, or for the content of the folder. And the
path of a copy may be a link to nothing, which counts as free and is written through.

* `Workspace.decodeFiles_changed`: the locations that decoding some files changes.
* `Workspace.process_links`: the main statement, for a given path that is no link.
* `Workspace.process_follows_links`: calls that write through links at these two places.
-/

namespace Unmangle

def Entry.isLink : Entry → Bool
  | .link _ => true
  | _ => false

namespace Workspace

variable {ws ws' : Workspace} {d : Decoder} {inPlace : Bool} {p q w : Path} {base loc : Location}
  {e : Entry} {r : Report} {extensions : List Text} {files : List Path}

/-- Whether a path leads to a link, if the link itself is not followed. -/
def isLink (ws : Workspace) (p : Path) : Bool :=
  match ws.entry .inspect p with
  | .ok (_, e) => e.isLink
  | .error _ => false

/-! ## What decoding files changes -/

theorem skipped_decodeFiles :
    (ws.decodeFiles d inPlace r files).report.skipped = r.skipped := by
  induction files generalizing ws r with
  | nil => rfl
  | cons p rest ih =>
      rw [decodeFiles]
      split
      · rfl
      · exact ih

/-- The output for a file was written at a location, through the path `w`. -/
structure Wrote (ws : Workspace) (inPlace : Bool) (q w : Path) (loc : Location) : Prop where
  source : (ws.place? q).isSome
  place : ws.place? w = some loc
  beside : q.Beside w
  same : inPlace = true → w = q

theorem Wrote.alike (h : ws'.Wrote inPlace q w loc) (halike : ws.Alike ws') :
    ws.Wrote inPlace q w loc := by
  refine ⟨?_, ?_, h.beside, h.same⟩
  · rw [← halike.place?_eq]
    exact h.source
  · rw [← halike.place?_eq]
    exact h.place

theorem decodeFile_wrote {target : Path} {stats : Stats} (hws : ws.Proper)
    (hname : q.fileName?.isSome)
    (h : (ws.decodeFile d inPlace q).result = .ok (ws', target, stats)) :
    ∃ loc t, ws.Wrote inPlace q target loc ∧ ws'.Proper ∧ ws.Alike ws' ∧
      ws'.tree.get? loc = some (.file (.text t)) ∧
      ∀ other, other ≠ loc → ws'.tree.get? other = ws.tree.get? other := by
  obtain ⟨x, rfl, rfl, -, hproper, houtputs⟩ := decodeFile_outputs hws hname h
  have hx : x ∈ [x] := List.mem_cons_self
  obtain ⟨source, hsource, -⟩ := hws.readText_eq_ok_iff.1 (houtputs.read x hx)
  refine ⟨x.loc, x.decoded.1, ⟨by rw [hsource]; rfl, houtputs.place x hx, ?_, ?_⟩, hproper,
    houtputs.alike, houtputs.content x hx, fun other hne => ?_⟩
  · cases hmode : inPlace with
    | true =>
        obtain ⟨name, hname⟩ := Option.isSome_iff_exists.1 hname
        rw [(houtputs.place?_source hmode hx).1]
        exact .refl hname
    | false => exact (houtputs.free hmode hx).2
  · intro hmode
    exact (houtputs.place?_source hmode hx).1
  · exact houtputs.other other (by simpa using hne)

/-- What decoding some files changes, in place or beside them: by induction on the files. The places
of paths stay the same while files are written, so they can be told from the start. -/
theorem decodeFiles_changed (hws : ws.Proper) (hfiles : ∀ q ∈ files, q.fileName?.isSome) :
    let run := ws.decodeFiles d inPlace r files
    ∃ made : List (Path × Path),
      made.map (·.1) <+: files ∧ (run.failure = none → made.map (·.1) = files) ∧
      run.report.written = r.written ++ made.map (·.2) ∧
      ∀ loc, run.workspace.tree.get? loc ≠ ws.tree.get? loc →
        (∃ t, run.workspace.tree.get? loc = some (.file (.text t))) ∧
          ∃ x ∈ made, ws.Wrote inPlace x.1 x.2 loc := by
  induction files generalizing ws r with
  | nil =>
      exact ⟨[], List.nil_prefix, fun _ => rfl, (List.append_nil _).symm,
        fun loc hchanged => absurd rfl hchanged⟩
  | cons q rest ih =>
      obtain ⟨hname, hrest⟩ := List.forall_mem_cons.1 hfiles
      cases hstep : (ws.decodeFile d inPlace q).result with
      | error e =>
          simp only [decodeFiles, hstep]
          exact ⟨[], List.nil_prefix, fun hok => absurd hok (by simp), (List.append_nil _).symm,
            fun loc hchanged => absurd rfl hchanged⟩
      | ok out =>
          obtain ⟨ws', target, stats⟩ := out
          obtain ⟨place, t, hwrote, hws', halike, hget, hother⟩ := decodeFile_wrote hws hname hstep
          simp only [decodeFiles, hstep]
          obtain ⟨made, hprefix, hall, hwritten, hchanges⟩ := @ih ws' { r with
            processed := r.processed + 1
            written := r.written ++ [target]
            stats := r.stats + stats } hws' hrest
          refine ⟨(q, target) :: made, List.cons_prefix_cons.2 ⟨rfl, hprefix⟩, ?_, ?_, ?_⟩
          · intro hok
            rw [List.map_cons, hall hok]
          · rw [hwritten, List.append_assoc]
            rfl
          intro loc hchanged
          by_cases hlater : (ws'.decodeFiles d inPlace { r with
              processed := r.processed + 1
              written := r.written ++ [target]
              stats := r.stats + stats } rest).workspace.tree.get? loc = ws'.tree.get? loc
          · -- the first file changed it
            have hloc : loc = place := by
              by_contra hne
              exact hchanged (hlater.trans (hother loc hne))
            subst hloc
            exact ⟨⟨t, hlater.trans hget⟩, (q, target), List.mem_cons_self, hwrote⟩
          · obtain ⟨hfile, x, hx, hwrote'⟩ := hchanges loc hlater
            exact ⟨hfile, x, List.mem_cons_of_mem _ hx, hwrote'.alike halike⟩

/-! ## What a walk does with links -/

theorem entry_inspect_of_not_isLink (hp : ws.isLink p = false)
    (huse : ws.entry .use p = .ok (base, e)) : ws.entry .inspect p = .ok (base, e) := by
  obtain ⟨loc, seen, hinspect⟩ := entry_inspect_of_use huse
  rw [isLink, hinspect] at hp
  have hlink : ∀ target, seen ≠ .link target := by
    rintro target rfl
    cases hp
  rw [hinspect, ← entry_use_of_inspect hlink hinspect, huse]

/-- What a call selects for a path that is no link stands at or below it, and is no link. A path
below it may be too long to lead anywhere. -/
theorem entry_of_mem_selection (hws : ws.Proper) (hp : ws.isLink p = false)
    (hq : q ∈ ws.selection extensions p) :
    ∃ base e, ws.entry .inspect p = .ok (base, e) ∧
      ((∃ names content, ws.entry .inspect q = .ok (base ++ names, .file content)) ∨
        Tree.pathLimit ≤ Text.byteSize q.text) := by
  obtain ⟨⟨loc, content, hvisits⟩, -⟩ := mem_selection_iff.1 hq
  cases hvisits with
  | given _ huse =>
      have hinspect := entry_inspect_of_not_isLink hp huse
      exact ⟨loc, _, hinspect, .inl ⟨[], content, by rw [hinspect, List.append_nil]⟩⟩
  | @below base names _ _ huse hne hget _ =>
      refine ⟨base, _, entry_inspect_of_not_isLink hp huse, ?_⟩
      have hbelow := entry_below hws huse (Tree.mem_below_iff.2 ⟨hne, hget⟩) .inspect
      exact hbelow.imp_left fun h => ⟨names, content, h⟩

theorem countP_isLink_sightingsBelow :
    (ws.listed base p).countP (·.2.isLink) ≤
      (ws.sightingsBelow base p).countP (·.isSkipped extensions) := by
  rw [sightingsBelow]
  induction ws.listed base p with
  | nil => exact Nat.le_refl _
  | cons found rest ih =>
      obtain ⟨names, e⟩ := found
      rw [List.countP_cons, List.flatMap_cons, List.countP_append, Nat.add_comm]
      have hone : (if e.isLink then 1 else 0) ≤
          (e.sightings (p.along names)).countP (·.isSkipped extensions) := by
        cases e with
        | link target => exact Nat.le_refl _
        | file content => exact Nat.zero_le _
        | folder => exact Nat.zero_le _
      exact Nat.add_le_add hone ih

/-- The links that a walk lists below the given path are counted as skipped. -/
theorem countP_isLink_le (hws : ws.Proper) (hentry : ws.entry .inspect p = .ok (base, e))
    (hp : ws.isLink p = false) (hmark : p.same inputMark = false) :
    (ws.listed base p).countP (·.2.isLink) ≤ (ws.walk p).countP (·.isSkipped extensions) := by
  rw [isLink, hentry] at hp
  cases e with
  | link target => cases hp
  | file content =>
      -- nothing stands below a file
      have hlisted : ws.listed base p = [] := by
        refine List.eq_nil_iff_forall_not_mem.2 fun found hmem => ?_
        obtain ⟨hne, hget, -⟩ := mem_listed_iff.1 hmem
        have hfolder := hws.tree.folder_above hne hget
        have hfile := hws.get?_of_entry hentry
        rw [hfolder] at hfile
        cases hfile
      rw [hlisted]
      exact Nat.zero_le _
  | folder =>
      have hwalk : ws.walk p = .folder p :: ws.sightingsBelow base p := by
        simp [walk, hentry, hmark]
      rw [hwalk, List.countP_cons]
      exact Nat.le_add_right_of_le countP_isLink_sightingsBelow

/-! ## Calls -/

/-- Where the output for a file may stand: it is the file itself, or stands beside it under the name
of the path that was written, unless a link has this name. -/
def OutputAt (ws : Workspace) (inPlace : Bool) (source : Location) (w : Path) (loc : Location) :
    Prop :=
  if inPlace then loc = source
  else ∃ name, w.fileName? = some name ∧ (loc = source.dropLast ++ [name] ∨
    ∃ target, ws.tree.get? (source.dropLast ++ [name]) = some (.link target))

theorem Wrote.outputAt {source : Location} {content : Content} (h : ws.Wrote inPlace q w loc)
    (hq : ws.entry .inspect q = .ok (source, .file content)) :
    ws.OutputAt inPlace source w loc := by
  obtain ⟨f, hf, rfl⟩ := place?_eq_some_iff.1 h.place
  cases inPlace with
  | true =>
      obtain rfl := h.same rfl
      have huse := locate_use (by simp) (entry_eq_ok_iff.1 hq)
      obtain rfl := Except.ok.inj (hf.symm.trans huse)
      rfl
  | false => exact loc_of_beside hq h.beside hf

/-- **Links.** A call for a path that is no link selects no link and counts each link that it lists
below the path as skipped. It decodes the first files that it selected, and all of them if it does
not fail. What it changes are regular files then: a file at the given path or below it which was
decoded in place, or the copy of such a file. A copy stands beside its source under the name that
was reported, unless a link has this name. -/
theorem process_links (ws : Workspace) (hws : ws.Proper) (d : Decoder) (options : ProcessOptions)
    (r : Report) (p : Path) (hp : ws.isLink p = false) :
    let run := ws.process d options r p
    let files := ws.selection options.extensions p
    (∀ q ∈ files, ws.isLink q = false) ∧
    (∀ base e, ws.entry .inspect p = .ok (base, e) → p.same inputMark = false →
      r.skipped + (ws.listed base p).countP (·.2.isLink) ≤ run.report.skipped) ∧
    ∃ made : List (Path × Path),
      made.map (·.1) <+: files ∧ (run.failure = none → made.map (·.1) = files) ∧
      run.report.written = r.written ++ made.map (·.2) ∧
      ∀ loc, run.workspace.tree.get? loc ≠ ws.tree.get? loc →
        (∃ t, run.workspace.tree.get? loc = some (.file (.text t))) ∧
        ∃ x ∈ made, ∃ base e names content,
          ws.entry .inspect p = .ok (base, e) ∧
          ws.entry .inspect x.1 = .ok (base ++ names, .file content) ∧
          ws.OutputAt options.inPlace (base ++ names) x.2 loc := by
  intro run files
  refine ⟨fun q hq => ?_, fun base e hentry hmark => ?_, ?_⟩
  · obtain ⟨base, e, -, ⟨names, content, hentry⟩ | hlong⟩ := entry_of_mem_selection hws hp hq
    · rw [isLink, hentry]
      rfl
    · rw [isLink, entry_of_long hlong]
  · have hskipped : run.report.skipped =
        r.skipped + (ws.walk p).countP (·.isSkipped options.extensions) := skipped_decodeFiles
    rw [hskipped]
    exact Nat.add_le_add_left (countP_isLink_le hws hentry hp hmark) _
  · have hfiles : ∀ q ∈ files, q.fileName?.isSome := fun q hq => (of_mem_selection hws hq).2
    obtain ⟨made, hprefix, hall, hwritten, hchanges⟩ := decodeFiles_changed (d := d) (r := { r with
      skipped := r.skipped + (ws.walk p).countP (·.isSkipped options.extensions) }) hws hfiles
    refine ⟨made, hprefix, hall, hwritten, fun loc hchanged => ?_⟩
    obtain ⟨hfile, x, hx, hwrote⟩ := hchanges loc hchanged
    have hsource : x.1 ∈ files := hprefix.subset (List.mem_map_of_mem hx)
    refine ⟨hfile, x, hx, ?_⟩
    obtain ⟨base, e, hentry, ⟨names, content, hfound⟩ | hlong⟩ :=
      entry_of_mem_selection hws hp hsource
    · exact ⟨base, e, names, content, hentry, hfound, hwrote.outputAt hfound⟩
    · -- a path that is too long was not read
      obtain ⟨source, hplace⟩ := Option.isSome_iff_exists.1 hwrote.source
      exact absurd hlong (Nat.not_le.2 (byteSize_lt_of_place? hplace))

/-- A folder with a file, a link to it, a link out of the folder and one to nothing. -/
theorem process_links_folder :
    ∃ (ws : Workspace) (d : Decoder) (options : ProcessOptions),
      ws.Proper ∧ ws.isLink (.ofString "src") = false ∧
      let run := ws.process d options .empty (.ofString "src")
      3 ≤ run.report.skipped ∧
      (∀ loc, run.workspace.tree.get? loc ≠ ws.tree.get? loc →
        ∃ t, run.workspace.tree.get? loc = some (.file (.text t))) ∧
      run.workspace.tree.get? ["src".toList, "A.java".toList] =
        some (.file (.text "v".toList)) := by
  let ws : Workspace := ⟨⟨Dict.ofList [(["src".toList], .folder),
    (["src".toList, "A.java".toList], .file (.text "k".toList)),
    (["src".toList, "B.java".toList], .link "A.java".toList),
    (["src".toList, "C".toList], .link "..".toList),
    (["src".toList, "D.java".toList], .link "gone".toList)]⟩, []⟩
  let d : Decoder := (Mapping.compile "fields" (Dict.ofList [("k".toList, "v".toList)])
    true).result.toOption.toList
  let options : ProcessOptions := ⟨["java".toList], true⟩
  have hws : ws.Proper := by decide +kernel
  have hlink : ws.isLink (.ofString "src") = false := by decide +kernel
  obtain ⟨-, hskipped, made, -, -, -, hchanged⟩ :=
    process_links ws hws d options .empty (.ofString "src") hlink
  refine ⟨ws, d, options, hws, hlink, ?_, fun loc hloc => (hchanged loc hloc).1, by decide +kernel⟩
  have hcount := hskipped ["src".toList] .folder (by decide +kernel) (by decide +kernel)
  have hthree : (ws.listed ["src".toList] (.ofString "src")).countP (·.2.isLink) = 3 := by
    decide +kernel
  rwa [hthree] at hcount

/-- A given path that is a link is decoded in place, and the file behind it changes. The copy of a
file is written through a link to nothing that has its name. Neither link is counted as skipped. -/
theorem process_follows_links :
    ∃ (ws : Workspace) (d : Decoder) (extensions : List Text),
      ws.Proper ∧ ws.isLink (.ofString "link.java") = true ∧
      ws.isLink (.ofString "src/A..java") = true ∧
      ws.tree.get? ["real.java".toList] = some (.file (.text "k".toList)) ∧
      ws.tree.get? ["out.txt".toList] = none ∧
      let decoded := ws.process d ⟨extensions, true⟩ .empty (.ofString "link.java")
      decoded.report.processed = 1 ∧ decoded.report.skipped = 0 ∧
      decoded.workspace.tree.get? ["real.java".toList] = some (.file (.text "v".toList)) ∧
      let copied := ws.process d ⟨extensions, false⟩ .empty (.ofString "src/A.java")
      copied.report.written = [.ofString "src/A..java"] ∧ copied.report.skipped = 0 ∧
      copied.workspace.tree.get? ["out.txt".toList] = some (.file (.text "v".toList)) := by
  let ws : Workspace := ⟨⟨Dict.ofList [(["real.java".toList], .file (.text "k".toList)),
    (["link.java".toList], .link "real.java".toList), (["src".toList], .folder),
    (["src".toList, "A.java".toList], .file (.text "k".toList)),
    (["src".toList, "A..java".toList], .link "../out.txt".toList)]⟩, []⟩
  let d : Decoder := (Mapping.compile "fields" (Dict.ofList [("k".toList, "v".toList)])
    true).result.toOption.toList
  exact ⟨ws, d, ["java".toList], by decide +kernel, by decide +kernel, by decide +kernel,
    by decide +kernel, by decide +kernel, by decide +kernel⟩

end Workspace

end Unmangle
