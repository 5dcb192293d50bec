import Unmangle.Proofs.Decode.Words
import Unmangle.Proofs.Files.Siblings
import Unmangle.Proofs.Files.Visits

set_option autoImplicit false

/-! # The outputs of a run

Files are decoded one after another, in place or into copies beside them, until one fails. What was
done at the end is told by the outputs (`Workspace.Outputs`), in both modes: each one holds the
decoded text that its source had before the first file was written, no two stand at one location,
and everything else is as it was. The reason is that no output is written where another file of the
run stands (`Workspace.Sources`).

* `Workspace.decodeFile_outputs`: what one file does.
* `Workspace.Outputs.cons`: what a file does and the ones after it.
* `Workspace.decodeFiles_outputs`: what some files do, up to the one that fails.
-/

namespace Unmangle

/-- A file that was decoded: the path of the source and the one that was written, where the output
stands, the text that was read and what decoding it gave. -/
structure Output where
  source : Path
  target : Path
  loc : Location
  text : Text
  decoded : Text × Stats

/-- Where the output for a file goes: to the file itself, or to a place without an entry that the
path of a copy beside it leads to. -/
def Output.Goes (x : Output) (ws : Workspace) (inPlace : Bool) : Prop :=
  if inPlace then x.target = x.source
  else ws.tree.get? x.loc = none ∧ x.source.Beside x.target

namespace Workspace

variable {ws ws' ws'' : Workspace} {d : Decoder} {inPlace : Bool} {p q target : Path}
  {loc : Location} {stats : Stats} {files left : List Path} {x : Output} {done : List Output}
  {extensions : List Text}

/-! ## Sources -/

/-- Files that a run can decode: they have names, where their paths lead there is something, and no
two of them are one file. -/
structure Sources (ws : Workspace) (files : List Path) : Prop where
  named : ∀ q ∈ files, q.fileName?.isSome
  stand : ∀ q ∈ files, ∀ loc, ws.place? q = some loc → ∃ e, ws.tree.get? loc = some e
  apart : files.Pairwise fun a b => ∀ la lb, ws.place? a = some la → ws.place? b = some lb →
    la ≠ lb

/-- The files that are decoded for a path. -/
theorem sources_selection (hws : ws.Proper) : ws.Sources (ws.selection extensions p) := by
  constructor
  case named => exact fun q hq => (of_mem_selection hws hq).2
  case stand =>
    intro q hq loc hplace
    obtain ⟨⟨place, content, hvisits⟩, -⟩ := mem_selection_iff.1 hq
    obtain rfl := hvisits.loc_eq hws hplace
    exact ⟨_, hvisits.get? hws⟩
  case apart =>
    refine (selection_ascending hws).imp fun {a b} hlt la lb ha hb heq => ?_
    have hself := hlt la lb ha hb
    rw [heq, Std.ReflOrd.compare_self] at hself
    cases hself

theorem Sources.tail (h : ws.Sources (q :: files)) : ws.Sources files :=
  ⟨(List.forall_mem_cons.1 h.named).2, (List.forall_mem_cons.1 h.stand).2,
    (List.pairwise_cons.1 h.apart).2⟩

/-- The later files of a run are still what they were when the earlier ones have been written. -/
theorem Sources.alike (h : ws.Sources files) (halike : ws.Alike ws')
    (hmore : ∀ loc e, ws.tree.get? loc = some e → ∃ e', ws'.tree.get? loc = some e') :
    ws'.Sources files := by
  constructor
  case named => exact h.named
  case stand =>
    intro q hq loc hplace
    rw [halike.place?_eq] at hplace
    obtain ⟨e, hget⟩ := h.stand q hq loc hplace
    exact hmore loc e hget
  case apart =>
    refine h.apart.imp fun {a b} hne la lb ha hb => ?_
    rw [halike.place?_eq] at ha hb
    exact hne la lb ha hb

/-! ## Outputs -/

/-- What some outputs do to a workspace. Each one holds what decoding the text of its source gave, a
text from before, and there is no other change. -/
structure Outputs (d : Decoder) (inPlace : Bool) (ws ws' : Workspace) (done : List Output) :
    Prop where
  alike : ws.Alike ws'
  read : ∀ x ∈ done, ws.readText x.source = .ok x.text
  decoded : ∀ x ∈ done, x.decoded = d.decode x.text
  place : ∀ x ∈ done, ws.place? x.target = some x.loc
  goes : ∀ x ∈ done, x.Goes ws inPlace
  content : ∀ x ∈ done, ws'.tree.get? x.loc = some (.file (.text x.decoded.1))
  distinct : (done.map (·.loc)).Nodup
  other : ∀ loc, loc ∉ done.map (·.loc) → ws'.tree.get? loc = ws.tree.get? loc

namespace Outputs

theorem nil (d : Decoder) (inPlace : Bool) (ws : Workspace) : Outputs d inPlace ws ws [] :=
  ⟨.refl ws, by simp, by simp, by simp, by simp, by simp, List.nodup_nil, fun _ _ => rfl⟩

/-- In place, an output stands where its source does. -/
theorem place?_source (h : Outputs d inPlace ws ws' done) (hmode : inPlace = true) (hx : x ∈ done) :
    x.target = x.source ∧ ws.place? x.source = some x.loc := by
  have hgoes := h.goes x hx
  rw [Output.Goes, if_pos hmode] at hgoes
  refine ⟨hgoes, ?_⟩
  rw [← hgoes]
  exact h.place x hx

/-- A copy stands where nothing was, and its path is beside that of its source. -/
theorem free (h : Outputs d inPlace ws ws' done) (hmode : inPlace = false) (hx : x ∈ done) :
    ws.tree.get? x.loc = none ∧ x.source.Beside x.target := by
  have hgoes := h.goes x hx
  rwa [Output.Goes, hmode, if_neg Bool.false_ne_true] at hgoes

/-- No output stands where another file of the run does. -/
theorem place?_ne (h : Outputs d inPlace ws ws' done)
    (hsources : ws.Sources (done.map (·.source) ++ left)) :
    ∀ x ∈ done, ∀ q ∈ left, ws.place? q ≠ some x.loc := by
  intro x hx q hq hplace
  cases hmode : inPlace with
  | true =>
      obtain ⟨-, hself⟩ := h.place?_source hmode hx
      have hapart := (List.pairwise_append.1 hsources.apart).2.2
      exact hapart x.source (List.mem_map_of_mem hx) q hq x.loc x.loc hself hplace rfl
  | false =>
      obtain ⟨e, hget⟩ := hsources.stand q (List.mem_append_right _ hq) x.loc hplace
      rw [(h.free hmode hx).1] at hget
      cases hget

/-- What stood anywhere before has something in its place. -/
theorem stays (h : Outputs d inPlace ws ws' done) {e : Entry}
    (hget : ws.tree.get? loc = some e) : ∃ e', ws'.tree.get? loc = some e' := by
  by_cases hloc : loc ∈ done.map (·.loc)
  · obtain ⟨x, hx, rfl⟩ := List.mem_map.1 hloc
    exact ⟨_, h.content x hx⟩
  · exact ⟨e, (h.other loc hloc).trans hget⟩

/-- An output and the ones after it, whose sources stand elsewhere. -/
theorem cons (hws : ws.Proper) (hws' : ws'.Proper) (hfirst : Outputs d inPlace ws ws' [x])
    (hsources : ∀ c ∈ done, ws.place? c.source ≠ some x.loc)
    (h : Outputs d inPlace ws' ws'' done) : Outputs d inPlace ws ws'' (x :: done) := by
  have hself : ws'.tree.get? x.loc = some (.file (.text x.decoded.1)) :=
    hfirst.content x List.mem_cons_self
  have hother : ∀ {loc}, loc ≠ x.loc → ws'.tree.get? loc = ws.tree.get? loc := by
    intro loc hne
    exact hfirst.other loc (by simpa using hne)
  have hplace : ∀ q, ws'.place? q = ws.place? q := hfirst.alike.place?_eq
  have hne : ∀ c ∈ done, c.loc ≠ x.loc := by
    intro c hc heq
    cases hmode : inPlace with
    | true =>
        obtain ⟨-, hloc⟩ := h.place?_source hmode hc
        rw [hplace, heq] at hloc
        exact hsources c hc hloc
    | false =>
        have hfree := (h.free hmode hc).1
        rw [heq, hself] at hfree
        cases hfree
  have hnot : x.loc ∉ done.map (·.loc) := by
    intro hmem
    obtain ⟨c, hc, heq⟩ := List.mem_map.1 hmem
    exact hne c hc heq
  constructor
  case alike => exact hfirst.alike.trans h.alike
  case read =>
    refine List.forall_mem_cons.2 ⟨hfirst.read x List.mem_cons_self, fun c hc => ?_⟩
    -- what a later source holds after this output it held before
    obtain ⟨loc, hloc, hget⟩ := hws'.readText_eq_ok_iff.1 (h.read c hc)
    rw [hplace] at hloc
    have hneLoc : loc ≠ x.loc := by
      rintro rfl
      exact hsources c hc hloc
    rw [hother hneLoc] at hget
    exact hws.readText_eq_ok_iff.2 ⟨loc, hloc, hget⟩
  case decoded =>
    exact List.forall_mem_cons.2 ⟨hfirst.decoded x List.mem_cons_self, h.decoded⟩
  case place =>
    refine List.forall_mem_cons.2 ⟨hfirst.place x List.mem_cons_self, fun c hc => ?_⟩
    rw [← hplace]
    exact h.place c hc
  case goes =>
    refine List.forall_mem_cons.2 ⟨hfirst.goes x List.mem_cons_self, fun c hc => ?_⟩
    have hgoes := h.goes c hc
    rwa [Output.Goes, hother (hne c hc)] at hgoes
  case content =>
    exact List.forall_mem_cons.2 ⟨(h.other x.loc hnot).trans hself, h.content⟩
  case distinct => exact List.nodup_cons.2 ⟨hnot, h.distinct⟩
  case other =>
    intro loc hloc
    rw [List.map_cons, List.mem_cons, not_or] at hloc
    rw [h.other loc hloc.2, hother hloc.1]

/-- The path of an output leads to it. -/
theorem readText_target (hws' : ws'.Proper) (h : Outputs d inPlace ws ws' done) (hx : x ∈ done) :
    ws'.readText x.target = .ok x.decoded.1 := by
  refine hws'.readText_eq_ok_iff.2 ⟨x.loc, ?_, h.content x hx⟩
  rw [h.alike.place?_eq]
  exact h.place x hx

/-- In place, an output takes the place of the text that was decoded. -/
theorem get?_source (hws : ws.Proper) (h : Outputs d inPlace ws ws' done) (hmode : inPlace = true)
    (hx : x ∈ done) : ws.tree.get? x.loc = some (.file (.text x.text)) := by
  obtain ⟨loc, hloc, hget⟩ := hws.readText_eq_ok_iff.1 (h.read x hx)
  obtain ⟨-, hplace⟩ := h.place?_source hmode hx
  obtain rfl : loc = x.loc := Option.some.inj (hloc.symm.trans hplace)
  exact hget

/-- The path of a copy led to nothing. -/
theorem pathExists_target (hws : ws.Proper) (h : Outputs d inPlace ws ws' done)
    (hmode : inPlace = false) (hx : x ∈ done) : ws.pathExists x.target = false :=
  (hws.pathExists_eq_false_iff (h.place x hx)).2 (h.free hmode hx).1

/-- A file keeps its text while copies are made. -/
theorem readText_of_copies {t : Text} (hws : ws.Proper) (hws' : ws'.Proper)
    (h : Outputs d inPlace ws ws' done) (hmode : inPlace = false) (hread : ws.readText q = .ok t) :
    ws'.readText q = .ok t := by
  obtain ⟨loc, hloc, hget⟩ := hws.readText_eq_ok_iff.1 hread
  refine hws'.readText_eq_ok_iff.2 ⟨loc, (h.alike.place?_eq q).trans hloc, ?_⟩
  rw [h.other loc ?_, hget]
  intro hmem
  obtain ⟨x, hx, rfl⟩ := List.mem_map.1 hmem
  rw [(h.free hmode hx).1] at hget
  cases hget

end Outputs

/-! ## One file -/

/-- Why decoding a file fails: it cannot be read, or its output cannot be written. -/
def FailsOn (ws : Workspace) (d : Decoder) (inPlace : Bool) (q : Path) (e : Error) : Prop :=
  (∃ cause, ws.readText q = .error cause ∧ e = .sourceRead q cause) ∨
    ∃ t w cause, ws.readText q = .ok t ∧ w = (if inPlace then q else ws.siblingPath q) ∧
      ws.writeText w (d.decode t).1 = .error cause ∧ e = .sourceWrite w cause

/-- A file is read and its decoded text is written, or one of the two fails. -/
theorem decodeFile_cases (ws : Workspace) (d : Decoder) (inPlace : Bool) (q : Path) :
    let target := if inPlace then q else ws.siblingPath q
    (∃ t ws', ws.readText q = .ok t ∧ ws.writeText target (d.decode t).1 = .ok ws' ∧
      (ws.decodeFile d inPlace q).result = .ok (ws', target, (d.decode t).2)) ∨
    ∃ e, ws.FailsOn d inPlace q e ∧ (ws.decodeFile d inPlace q).result = .error e := by
  rw [decodeFile, Traced.result_bind, Traced.result_report]
  simp only [Except.bind]
  cases hread : ws.readText q with
  | error cause => exact .inr ⟨_, .inl ⟨cause, hread, rfl⟩, rfl⟩
  | ok t =>
      cases hwrite : ws.writeText (if inPlace then q else ws.siblingPath q) (d.decode t).1 with
      | error cause =>
          refine .inr ⟨_, .inr ⟨t, _, cause, hread, rfl, hwrite, rfl⟩, ?_⟩
          simp only [hwrite, Traced.result_fail]
      | ok ws' =>
          refine .inl ⟨t, ws', rfl, hwrite, ?_⟩
          simp only [hwrite, Traced.result_bind, Traced.result_report, Traced.result_pure,
            Except.bind]

/-- What one file does. -/
theorem decodeFile_outputs (hws : ws.Proper) (hname : q.fileName?.isSome)
    (h : (ws.decodeFile d inPlace q).result = .ok (ws', target, stats)) :
    ∃ x : Output, x.source = q ∧ x.target = target ∧ x.decoded.2 = stats ∧ ws'.Proper ∧
      Outputs d inPlace ws ws' [x] := by
  obtain ⟨t, next, hread, hwrite, hresult⟩ | ⟨e, -, hresult⟩ := decodeFile_cases ws d inPlace q
  swap
  · rw [hresult] at h
    cases h
  obtain ⟨rfl, htarget, hstats⟩ : next = ws' ∧
      (if inPlace then q else ws.siblingPath q) = target ∧ (d.decode t).2 = stats := by
    simpa using Except.ok.inj (hresult.symm.trans h)
  rw [htarget] at hwrite
  obtain ⟨loc, hplace, hfree, hput, hproper, halike⟩ := hws.writeText_spec hwrite
  refine ⟨⟨q, target, loc, t, d.decode t⟩, rfl, rfl, hstats, hproper, ?_⟩
  constructor
  case alike => exact halike
  case read => simpa using hread
  case decoded => simp
  case place => simpa using hplace
  case goes =>
    refine List.forall_mem_singleton.2 ?_
    rw [Output.Goes]
    split
    · rename_i hinPlace
      rw [← htarget, if_pos hinPlace]
    · rename_i hcopy
      rw [if_neg hcopy] at htarget
      subst htarget
      exact ⟨(hws.pathExists_eq_false_iff hplace).1 (siblingPath_free hname),
        beside_siblingPath hname⟩
  case content =>
    refine List.forall_mem_singleton.2 ?_
    rw [hput]
    exact Tree.get?_put_self (Tree.ne_nil_of_fileOrFree hfree)
  case distinct => exact List.nodup_singleton loc
  case other =>
    intro other hne
    rw [hput]
    exact Tree.get?_put_of_ne (by simpa using hne)

/-! ## Some files -/

/-- **The outputs of a run.** Of the files to decode the first ones have outputs, and the run ends
at the first one that fails. The report has grown by what was done. -/
theorem decodeFiles_outputs (hws : ws.Proper) (hsources : ws.Sources files) (d : Decoder)
    (inPlace : Bool) (r : Report) :
    let run := ws.decodeFiles d inPlace r files
    ∃ (done : List Output) (left : List Path),
      files = done.map (·.source) ++ left ∧
      run.workspace.Proper ∧ Outputs d inPlace ws run.workspace done ∧
      run.report = { r with
        processed := r.processed + done.length
        written := r.written ++ done.map (·.target)
        stats := r.stats + (done.map (·.decoded.2)).sum } ∧
      (run.failure = none → left = []) ∧
      ∀ e, run.failure = some e →
        ∃ q rest, left = q :: rest ∧ run.workspace.FailsOn d inPlace q e := by
  induction files generalizing ws r with
  | nil =>
      refine ⟨[], [], rfl, hws, .nil d inPlace ws, ?_, fun _ => rfl, fun e he => by cases he⟩
      simp [decodeFiles]
  | cons q rest ih =>
      cases hstep : (ws.decodeFile d inPlace q).result with
      | error e =>
          simp only [decodeFiles, hstep]
          refine ⟨[], q :: rest, rfl, hws, .nil d inPlace ws, by simp, by simp, ?_⟩
          rintro _ ⟨⟩
          obtain ⟨_, _, -, -, hresult⟩ | ⟨e', hfails, hresult⟩ := decodeFile_cases ws d inPlace q
          · cases hstep.symm.trans hresult
          · obtain rfl := Except.error.inj (hstep.symm.trans hresult)
            exact ⟨q, rest, rfl, hfails⟩
      | ok out =>
          obtain ⟨ws', target, stats⟩ := out
          obtain ⟨x, rfl, rfl, rfl, hws', hfirst⟩ :=
            decodeFile_outputs hws (hsources.named q List.mem_cons_self) hstep
          have helsewhere : ∀ y ∈ [x], ∀ p ∈ rest, ws.place? p ≠ some y.loc :=
            hfirst.place?_ne hsources
          have hrest : ws'.Sources rest :=
            hsources.tail.alike hfirst.alike fun loc e hget => hfirst.stays hget
          simp only [decodeFiles, hstep]
          obtain ⟨done, left, hfiles, hproper, houtputs, hreport, hok, hfailed⟩ := ih hws' hrest
            { r with
              processed := r.processed + 1
              written := r.written ++ [x.target]
              stats := r.stats + x.decoded.2 }
          refine ⟨x :: done, left, ?_, hproper, ?_, ?_, hok, hfailed⟩
          · rw [List.map_cons, List.cons_append, ← hfiles]
          · refine .cons hws hws' hfirst (fun c hc => ?_) houtputs
            refine helsewhere x List.mem_cons_self c.source ?_
            rw [hfiles]
            exact List.mem_append_left _ (List.mem_map_of_mem hc)
          · rw [hreport]
            simp only [List.length_cons, List.map_cons, List.sum_cons, List.append_assoc,
              List.cons_append, List.nil_append, add_assoc, Nat.add_comm 1]

end Workspace

end Unmangle
