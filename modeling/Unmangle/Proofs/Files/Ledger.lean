import Mathlib.Algebra.BigOperators.Group.List.Basic
import Unmangle.Proofs.Files.Outputs

set_option autoImplicit false

/-! # The ledger of some calls

One report goes through any calls, in both modes, for overlapping paths, and some of them fail. What
each call does is one account (`FileCall.Account`), and the accounts of all calls are a ledger
(`Ledger`): every call starts from what the one before has left.

* `FileCall.account`: the account of one call, whatever was there before.
* `calls_accounted`: the ledger of some calls, and the totals of the report that went through them.
* `process_closed`: a folder that the walk cannot list counts as skipped, too.
-/

namespace Unmangle

/-- A call that decodes the file at a path, or the files below it. -/
structure FileCall where
  decoder : Decoder
  options : ProcessOptions
  path : Path

namespace FileCall

def run (call : FileCall) (ws : Workspace) (r : Report) : Progress :=
  ws.process call.decoder call.options r call.path

/-- The files that a call decodes, in the order of the walk. -/
def files (call : FileCall) (ws : Workspace) : List Path :=
  ws.selection call.options.extensions call.path

/-- What one call has done: some outputs, made from the first ones of its files, while the other
files are left. -/
structure Account (call : FileCall) (ws : Workspace) (r : Report) (done : List Output)
    (left : List Path) : Prop where
  /-- The outputs come from a prefix of the files, in their order. -/
  files : call.files ws = done.map (·.source) ++ left
  outputs : Workspace.Outputs call.decoder call.options.inPlace ws (call.run ws r).workspace done
  processed : (call.run ws r).report.processed = r.processed + done.length
  written : (call.run ws r).report.written = r.written ++ done.map (·.target)
  stats : (call.run ws r).report.stats = r.stats + (done.map (·.decoded.2)).sum
  /-- Each entry that the walk visits counts once, unless it is left, and so does each folder that
  the walk cannot list. -/
  visited : (call.run ws r).report.processed + (call.run ws r).report.skipped + left.length =
    r.processed + r.skipped + ws.visitCount call.path + ws.closedCount call.path
  /-- A call that succeeds leaves no file. -/
  success : (call.run ws r).failure = none → left = []
  /-- A call that fails does so at the first file that is left. -/
  failure : ∀ e, (call.run ws r).failure = some e → ∃ q rest, left = q :: rest ∧
    (call.run ws r).workspace.FailsOn call.decoder call.options.inPlace q e
  /-- A file that is left was not decoded under another path, and holds what it held. -/
  left : ∀ q ∈ left, (∀ x ∈ done, ws.place? x.source ≠ ws.place? q) ∧
    ∀ loc, ws.place? q = some loc →
      (call.run ws r).workspace.tree.get? loc = ws.tree.get? loc

/-- What a call does, whatever was there and in the report before. -/
theorem account (call : FileCall) {ws : Workspace} (hws : ws.Proper) (r : Report) :
    (call.run ws r).workspace.Proper ∧ ∃ done left, call.Account ws r done left := by
  have hsources : ws.Sources (call.files ws) := Workspace.sources_selection hws
  obtain ⟨done, left, hfiles, hproper, houtputs, hreport, hsuccess, hfailure⟩ :=
    Workspace.decodeFiles_outputs hws hsources call.decoder call.options.inPlace
      { r with skipped := r.skipped +
          (ws.walk call.path).countP (·.isSkipped call.options.extensions) }
  have hrun : (call.run ws r).report = _ := hreport
  have hcount := ws.length_selection_add call.options.extensions call.path
  have hlength : (call.files ws).length = done.length + left.length := by
    rw [hfiles, List.length_append, List.length_map]
  rw [hfiles] at hsources
  have helsewhere := houtputs.place?_ne hsources
  refine ⟨hproper, done, left, ?_⟩
  constructor
  case files => exact hfiles
  case outputs => exact houtputs
  case processed => rw [hrun]
  case written => rw [hrun]
  case stats => rw [hrun]
  case visited =>
    have hselected : (ws.selection call.options.extensions call.path).length =
        done.length + left.length := hlength
    rw [hrun]
    show r.processed + done.length + (r.skipped + _) + left.length = _
    omega
  case success => exact hsuccess
  case failure => exact hfailure
  case left =>
    intro q hq
    constructor
    · intro x hx hsame
      -- the source of an output was read, so it has a place, and another one than this file
      obtain ⟨loc, hloc, -⟩ := hws.readText_eq_ok_iff.1 (houtputs.read x hx)
      have hapart := (List.pairwise_append.1 hsources.apart).2.2
      exact hapart x.source (List.mem_map_of_mem hx) q hq loc loc hloc (hsame ▸ hloc) rfl
    · intro loc hloc
      refine houtputs.other loc fun hmem => ?_
      obtain ⟨x, hx, rfl⟩ := List.mem_map.1 hmem
      exact helsewhere x hx q hq hloc

end FileCall

/-- A call that succeeds counts a folder that it cannot list, though no entry but folders is there:
the path of the outer folder is so long that one of the inner folder is longer than paths may be. -/
theorem process_closed :
    let ws : Workspace := ⟨⟨Dict.ofList [(["d".toList], .folder),
      (["d".toList, "deeper".toList], .folder)]⟩, []⟩
    let call : FileCall := ⟨[], ⟨["java".toList], true⟩, ⟨'d' :: List.replicate 4089 '/'⟩⟩
    ws.Proper ∧ ws.folderAt? .inspect call.path = some ["d".toList] ∧
      (call.run ws .empty).failure = none ∧ ws.visitCount call.path = 0 ∧
      (call.run ws .empty).report.processed + (call.run ws .empty).report.skipped = 1 := by
  intro ws call
  exact ⟨by decide +kernel, by decide +kernel, by decide +kernel, by decide +kernel,
    by decide +kernel⟩

/-! ## Calls that share a report -/

/-- The workspace and the report after some calls that share a report. A call that fails does not
end them. -/
def Workspace.afterAll (ws : Workspace) (r : Report) (calls : List FileCall) : Workspace × Report :=
  calls.foldl (fun s call => ((call.run s.1 s.2).workspace, (call.run s.1 s.2).report)) (ws, r)

/-- The accounts of some calls, one after the other. -/
inductive Ledger : Workspace → Report → List FileCall → List (List Output) → Prop
  | nil {ws : Workspace} {r : Report} : Ledger ws r [] []
  | cons {ws : Workspace} {r : Report} {call : FileCall} {calls : List FileCall}
      {done : List Output} {left : List Path} {ledger : List (List Output)} :
      call.Account ws r done left →
      Ledger (call.run ws r).workspace (call.run ws r).report calls ledger →
      Ledger ws r (call :: calls) (done :: ledger)

variable {ws : Workspace} {r : Report} {calls : List FileCall} {ledger : List (List Output)}

theorem exists_ledger (hws : ws.Proper) (r : Report) (calls : List FileCall) :
    ∃ ledger, Ledger ws r calls ledger := by
  induction calls generalizing ws r with
  | nil => exact ⟨[], .nil⟩
  | cons call calls ih =>
      obtain ⟨hproper, done, left, haccount⟩ := call.account hws r
      obtain ⟨ledger, hledger⟩ := ih hproper (call.run ws r).report
      exact ⟨done :: ledger, .cons haccount hledger⟩

/-- The report after some calls has grown by all that is in the ledger. -/
theorem Ledger.totals (h : Ledger ws r calls ledger) :
    (ws.afterAll r calls).2.processed = r.processed + ledger.flatten.length ∧
      (ws.afterAll r calls).2.written = r.written ++ ledger.flatten.map (·.target) ∧
      (ws.afterAll r calls).2.stats = r.stats + (ledger.flatten.map (·.decoded.2)).sum := by
  induction h with
  | nil => simp [Workspace.afterAll]
  | @cons ws r call calls done left ledger haccount _ ih =>
      obtain ⟨hprocessed, hwritten, hstats⟩ := ih
      have hafter : ws.afterAll r (call :: calls) =
          (call.run ws r).workspace.afterAll (call.run ws r).report calls := rfl
      rw [hafter, hprocessed, hwritten, hstats, haccount.processed, haccount.written,
        haccount.stats, List.flatten_cons, List.length_append, List.map_append, List.map_append,
        List.sum_append, add_assoc, add_assoc, List.append_assoc]
      exact ⟨rfl, rfl, rfl⟩

/-- **The ledger of some calls.** Calls that share a report, successful or failing, have a ledger
with an account of each one, and the report is their sum: as many files were processed as paths
were written, which are those of the outputs in their order, and the counts are those of decoding
the text of each source. -/
theorem calls_accounted (ws : Workspace) (hws : ws.Proper) (calls : List FileCall) :
    let r := (ws.afterAll .empty calls).2
    ∃ ledger, Ledger ws .empty calls ledger ∧
      r.processed = r.written.length ∧
      r.written = ledger.flatten.map (·.target) ∧
      r.stats = (ledger.flatten.map (·.decoded.2)).sum := by
  intro r
  obtain ⟨ledger, hledger⟩ := exists_ledger hws .empty calls
  obtain ⟨hprocessed, hwritten, hstats⟩ := hledger.totals
  have hempty : r.written = ledger.flatten.map (·.target) := hwritten.trans (List.nil_append _)
  refine ⟨ledger, hledger, ?_, hempty, hstats.trans (zero_add _)⟩
  calc r.processed = 0 + ledger.flatten.length := hprocessed
    _ = r.written.length := by rw [hempty, List.length_map, Nat.zero_add]

/-- A folder is decoded in place up to a file that is no text. Its first file is copied then, which
holds no word to replace any more, and its last one, which was left. -/
theorem calls_accounted_overlapping :
    ∃ (ws : Workspace) (first : FileCall) (others : List FileCall),
      ws.Proper ∧ (first.run ws .empty).failure.isSome ∧
      let r := (ws.afterAll .empty (first :: others)).2
      r.processed = 3 ∧ r.skipped = 2 ∧ r.stats = ⟨2, 0⟩ ∧
      r.written.map (·.toString) = ["./a.txt", "a..txt", "c..txt"] ∧
      ∃ ledger, Ledger ws .empty (first :: others) ledger ∧
        ledger.flatten.map (·.target.toString) = ["./a.txt", "a..txt", "c..txt"] := by
  let ws : Workspace := ⟨⟨Dict.ofList [(["w".toList], .folder),
    (["w".toList, "a.txt".toList], .file (.text "old k".toList)),
    (["w".toList, "b.txt".toList], .file (.binary [255])),
    (["w".toList, "c.txt".toList], .file (.text "new k".toList)),
    (["w".toList, "d.txt".toList], .link "a.txt".toList)]⟩, ["w".toList]⟩
  let d : Decoder := (Mapping.compile "fields" (Dict.ofList [("k".toList, "v".toList)])
    true).result.toOption.toList
  let first : FileCall := ⟨d, ⟨["txt".toList], true⟩, .ofString "."⟩
  let others : List FileCall := [⟨d, ⟨["txt".toList], false⟩, .ofString "a.txt"⟩,
    ⟨d, ⟨["txt".toList], false⟩, .ofString "c.txt"⟩, ⟨d, ⟨["txt".toList], false⟩, .ofString "-"⟩]
  have hws : ws.Proper := by decide +kernel
  obtain ⟨ledger, hledger, _, hwritten, _⟩ := calls_accounted ws hws (first :: others)
  have hpaths : (ws.afterAll .empty (first :: others)).2.written.map (·.toString) =
      ["./a.txt", "a..txt", "c..txt"] := by decide +kernel
  refine ⟨ws, first, others, hws, by decide +kernel, by decide +kernel, by decide +kernel,
    by decide +kernel, hpaths, ledger, hledger, ?_⟩
  rw [← hpaths, hwritten, List.map_map]
  rfl

end Unmangle
