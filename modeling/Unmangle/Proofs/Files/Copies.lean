import Unmangle.Proofs.Files.Ledger

set_option autoImplicit false

/-! # Decoded copies

A call that makes copies beside the sources finds a free path for each one while copies of other
files appear, follows links when it looks and when it writes, and may fail on the way. What it has
done at its end is told by the copies that it made (`Workspace.Copied`): each one is a new file with
the decoded content of its source, and everything else is as it was.

* `Workspace.run_copied`: the copies that a call makes, also if it fails.
* `Workspace.process_copied`: the main statement, for a call after any other ones.
-/

namespace Unmangle

/-- A decoded copy: the path of its source, the path that was written and where the file stands. -/
structure DecodedCopy where
  source : Path
  target : Path
  loc : Location

namespace Workspace

variable {ws ws' : Workspace} {d : Decoder} {p : Path}

/-! ## What copies do -/

/-- What copies do to a workspace: each one is a new file with the decoded content that its source
had before, its path leads to it, and there is no other change. -/
structure Copied (d : Decoder) (ws ws' : Workspace) (made : List DecodedCopy) : Prop where
  here : ws'.here = ws.here
  free : ∀ c ∈ made, ws.tree.get? c.loc = none
  distinct : (made.map (·.loc)).Nodup
  content : ∀ c ∈ made, ∃ t, ws.readText c.source = .ok t ∧
    ws'.tree.get? c.loc = some (.file (.text (d.decode t).1)) ∧
    ws'.entry .use c.target = .ok (c.loc, .file (.text (d.decode t).1))
  other : ∀ loc, loc ∉ made.map (·.loc) → ws'.tree.get? loc = ws.tree.get? loc

theorem Copied.moreFiles {made : List DecodedCopy} (h : Copied d ws ws' made) :
    ws.MoreFiles ws' := by
  refine ⟨h.here, fun loc => ?_⟩
  by_cases hmem : loc ∈ made.map (·.loc)
  · obtain ⟨c, hc, rfl⟩ := List.mem_map.1 hmem
    obtain ⟨t, _, hget, _⟩ := h.content c hc
    exact .inr ⟨h.free c hc, _, hget⟩
  · exact .inl (h.other loc hmem)

/-- What outputs do in the mode that makes copies. -/
theorem Outputs.copied {done : List Output} (hws' : ws'.Proper) (h : Outputs d false ws ws' done) :
    Copied d ws ws' (done.map fun x => ⟨x.source, x.target, x.loc⟩) := by
  have hlocs : (done.map fun x => (⟨x.source, x.target, x.loc⟩ : DecodedCopy)).map (·.loc) =
      done.map (·.loc) := List.map_map
  constructor
  case here => exact h.alike.here
  case free =>
    intro c hc
    obtain ⟨x, hx, rfl⟩ := List.mem_map.1 hc
    exact (h.free rfl hx).1
  case distinct => exact hlocs ▸ h.distinct
  case content =>
    intro c hc
    obtain ⟨x, hx, rfl⟩ := List.mem_map.1 hc
    have hget := h.content x hx
    rw [h.decoded x hx] at hget
    refine ⟨x.text, h.read x hx, hget, hws'.entry_use_eq_ok_iff.2 ⟨?_, hget⟩⟩
    exact (h.alike.place?_eq x.target).trans (h.place x hx)
  case other =>
    rw [hlocs]
    exact h.other

end Workspace

/-! ## Calls -/

/-- A call that makes copies. -/
structure CopyCall where
  decoder : Decoder
  extensions : List Text
  path : Path

def CopyCall.run (call : CopyCall) (ws : Workspace) (r : Report) : Progress :=
  ws.process call.decoder ⟨call.extensions, false⟩ r call.path

namespace Workspace

variable {ws : Workspace} {r : Report} {p : Path}

/-- The workspace and the report after some calls that share a report. A call that fails does not
end them. -/
def afterCalls (ws : Workspace) (calls : List CopyCall) : Workspace × Report :=
  calls.foldl (fun s call => ((call.run s.1 s.2).workspace, (call.run s.1 s.2).report)) (ws, .empty)

/-- A report accounts for a workspace: the paths that were written lead to something, and no two of
them are the same. -/
structure Accounts (ws : Workspace) (r : Report) : Prop where
  proper : ws.Proper
  exist : ∀ w ∈ r.written, ∃ loc e, ws.entry .use w = .ok (loc, e)
  distinct : r.written.Pairwise fun p q => p.same q = false

theorem Proper.get?_of_entry {access : Tree.Access} {loc : Location} {e : Entry} (hws : ws.Proper)
    (h : ws.entry access p = .ok (loc, e)) : ws.tree.get? loc = some e :=
  hws.fits (entry_eq_ok_iff.1 h)

/-- The copies that a call makes are those of the first files that it selects, up to the one that
fails; if none fails they are those of all. -/
theorem run_copied (hws : ws.Proper) (call : CopyCall) (r : Report) :
    let run := call.run ws r
    let files := ws.selection call.extensions call.path
    ∃ made : List DecodedCopy,
      made.map (·.source) <+: files ∧ (run.failure = none → made.map (·.source) = files) ∧
      run.report.written = r.written ++ made.map (·.target) ∧
      run.workspace.Proper ∧ Copied call.decoder ws run.workspace made := by
  intro run files
  let whole : FileCall := ⟨call.decoder, ⟨call.extensions, false⟩, call.path⟩
  obtain ⟨hproper, done, left, haccount⟩ := whole.account hws r
  have hfiles : files = done.map (·.source) ++ left := haccount.files
  let made : List DecodedCopy := done.map fun x => ⟨x.source, x.target, x.loc⟩
  have hsources : made.map (·.source) = done.map (·.source) := List.map_map
  have htargets : made.map (·.target) = done.map (·.target) := List.map_map
  refine ⟨made, ?_, fun hok => ?_, ?_, hproper, haccount.outputs.copied hproper⟩
  · rw [hsources, hfiles]
    exact List.prefix_append _ left
  · rw [hsources, hfiles, haccount.success hok, List.append_nil]
  · rw [htargets]
    exact haccount.written

/-- A report accounts for what a call leaves if it accounts for what the call finds. -/
theorem Accounts.run (h : ws.Accounts r) (call : CopyCall) :
    (call.run ws r).workspace.Accounts (call.run ws r).report := by
  obtain ⟨made, _, _, hwritten, hproper, hcopied⟩ := run_copied h.proper call r
  have hmore := hcopied.moreFiles
  have hentry : ∀ c ∈ made, ∃ e,
      (call.run ws r).workspace.entry .use c.target = .ok (c.loc, e) := by
    intro c hc
    obtain ⟨t, _, _, hentry⟩ := hcopied.content c hc
    exact ⟨_, hentry⟩
  refine ⟨hproper, fun w hw => ?_, ?_⟩
  · rw [hwritten] at hw
    rcases List.mem_append.1 hw with hw | hw
    · obtain ⟨loc, e, hw⟩ := h.exist w hw
      exact ⟨loc, e, hmore.entry hw⟩
    · obtain ⟨c, hc, rfl⟩ := List.mem_map.1 hw
      exact ⟨c.loc, hentry c hc⟩
  · -- same paths would lead to the same location, but the copies stand at new and different ones
    rw [hwritten, List.pairwise_append]
    refine ⟨h.distinct, List.pairwise_map.2 ?_, ?_⟩
    · refine (List.pairwise_map.1 hcopied.distinct).imp_of_mem fun {c c'} hc hc' hne => ?_
      refine Bool.eq_false_iff.2 fun hsame => hne ?_
      obtain ⟨e, he⟩ := hentry c hc
      obtain ⟨e', he'⟩ := hentry c' hc'
      exact congrArg Prod.fst (entry_of_same hsame he he')
    · intro w hw target htarget
      obtain ⟨c, hc, rfl⟩ := List.mem_map.1 htarget
      refine Bool.eq_false_iff.2 fun hsame => ?_
      obtain ⟨loc, e, hw⟩ := h.exist w hw
      obtain ⟨e', he'⟩ := hentry c hc
      have hloc : loc = c.loc := congrArg Prod.fst (entry_of_same hsame (hmore.entry hw) he')
      have hget := h.proper.get?_of_entry hw
      rw [hloc, hcopied.free c hc] at hget
      cases hget

theorem accounts_afterCalls (hws : ws.Proper) (calls : List CopyCall) :
    (ws.afterCalls calls).1.Accounts (ws.afterCalls calls).2 := by
  -- by induction on the calls, from any workspace and report that go together
  have hstart : ws.Accounts .empty := ⟨hws, nofun, .nil⟩
  unfold afterCalls
  generalize Report.empty = r at hstart ⊢
  induction calls generalizing ws r with
  | nil => exact hstart
  | cons call calls ih => exact ih (hstart.run call).proper _ (hstart.run call)

/-- No source of a call leads to a copy that the call made. -/
theorem Copied.not_source {d : Decoder} {ws' : Workspace} {made : List DecodedCopy}
    (h : Copied d ws ws' made) (hws : ws.Proper) (hsource : ws.Settled p) :
    ∀ c ∈ made, ∀ e, ws'.entry .use p ≠ .ok (c.loc, e) := by
  intro c hc e hentry
  rw [hsource.entry_eq h.moreFiles] at hentry
  have hget := hws.get?_of_entry hentry
  rw [h.free c hc] at hget
  cases hget

/-- **Calls that make copies.** After any calls that share a report, failed ones among them, one
more call makes one copy for each path that it writes. The copies belong to the first files that it
selected, and to all of them if it does not fail. Each copy is a new file with the decoded content
that its source had before the call, nothing that stood anywhere before is changed or removed, all
paths that were written are different, and no file that the call selected leads to a copy. -/
theorem process_copied (ws : Workspace) (hws : ws.Proper) (earlier : List CopyCall)
    (call : CopyCall) :
    let before := (ws.afterCalls earlier).1
    let r := (ws.afterCalls earlier).2
    let run := call.run before r
    let files := before.selection call.extensions call.path
    ∃ made : List DecodedCopy,
      made.map (·.source) <+: files ∧ (run.failure = none → made.map (·.source) = files) ∧
      run.report.written = r.written ++ made.map (·.target) ∧
      run.report.written.Pairwise (fun p q => p.same q = false) ∧
      Copied call.decoder before run.workspace made ∧
      (∀ loc e, before.tree.get? loc = some e → run.workspace.tree.get? loc = some e) ∧
      ∀ p ∈ files, ∀ c ∈ made, ∀ e, run.workspace.entry .use p ≠ .ok (c.loc, e) := by
  intro before r run files
  have haccounts : before.Accounts r := accounts_afterCalls hws earlier
  obtain ⟨made, hprefix, hall, hwritten, _, hcopied⟩ := run_copied haccounts.proper call r
  refine ⟨made, hprefix, hall, hwritten, (haccounts.run call).distinct, hcopied, ?_, fun p hp => ?_⟩
  · exact fun _ _ hget => hcopied.moreFiles.tree.get?_eq_some hget
  · exact hcopied.not_source haccounts.proper (of_mem_selection haccounts.proper hp).1

/-- The folder holds a copy, a link to nothing under the next name and a file that is no text. The
first call writes through the link, copies the other text beside it and fails; the second one finds
the next free path. -/
theorem process_copied_again :
    ∃ (ws : Workspace) (first second : CopyCall) (made : List DecodedCopy),
      ws.Proper ∧ (first.run ws .empty).failure.isSome ∧
      let before := (ws.afterCalls [first]).1
      let run := second.run before (ws.afterCalls [first]).2
      before.tree.get? ["w".toList, "gone".toList] = some (.file (.text "old v".toList)) ∧
      run.report.written.map (·.toString) = ["./a...txt", "./a....txt", "a.....txt"] ∧
      made.map (·.source.toString) = ["a.txt"] ∧
      Copied second.decoder before run.workspace made := by
  let ws : Workspace := ⟨⟨Dict.ofList [(["w".toList], .folder),
    (["w".toList, "a.txt".toList], .file (.text "new k".toList)),
    (["w".toList, "a..txt".toList], .file (.text "old k".toList)),
    (["w".toList, "a...txt".toList], .link "gone".toList),
    (["w".toList, "b.txt".toList], .file (.binary [255]))]⟩, ["w".toList]⟩
  let d : Decoder := (Mapping.compile "fields" (Dict.ofList [("k".toList, "v".toList)])
    true).result.toOption.toList
  let first : CopyCall := ⟨d, ["txt".toList], .ofString "."⟩
  let second : CopyCall := ⟨d, ["txt".toList], .ofString "a.txt"⟩
  have hws : ws.Proper := by decide +kernel
  obtain ⟨made, _, hall, _, _, hcopied, _⟩ := process_copied ws hws [first] second
  refine ⟨ws, first, second, made, hws, by decide +kernel, by decide +kernel, by decide +kernel, ?_,
    hcopied⟩
  have hsources := hall (by decide +kernel)
  have hmade : made.map (·.source.toString) = (made.map (·.source)).map Path.toString := by simp
  rw [hmade, hsources]
  decide +kernel

end Workspace

end Unmangle
