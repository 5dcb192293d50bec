import Unmangle.Proofs.Files.Ledger

set_option autoImplicit false

/-! # Decoding in place

A call in place that succeeds has decoded each file that its walk visits and that has one of the
extensions. It has put the decoded text where the file stood, and has changed nothing else.

* `FileCall.Account.exists_output_iff`: the files with an output are those that are visited.
* `process_inPlace`: the main statement.
-/

namespace Unmangle

variable {call : FileCall} {ws : Workspace} {r : Report} {done : List Output} {q : Path}
  {loc : Location} {content : Content}

namespace FileCall.Account

/-- If a call in place leaves no file, its outputs are for the files that the walk visits and that
have one of the extensions. -/
theorem exists_output_iff (hws : ws.Proper) (h : call.Account ws r done [])
    (hmode : call.options.inPlace = true) :
    (ws.Visits call.path q loc content ∧
        ∃ extension ∈ call.options.extensions, q.EndsIn extension) ↔
      ∃ x ∈ done, x.source = q ∧ x.loc = loc ∧ content = .text x.text := by
  have hfiles : ∀ q, q ∈ ws.selection call.options.extensions call.path ↔
      q ∈ done.map (·.source) := by
    intro q
    have hall : call.files ws = done.map (·.source) := h.files.trans (List.append_nil _)
    rw [← hall, FileCall.files]
  constructor
  · rintro ⟨hvisits, hextension⟩
    have hselected : q ∈ ws.selection call.options.extensions call.path :=
      Workspace.mem_selection_iff.2 ⟨⟨loc, content, hvisits⟩, hasExtension_iff.2 hextension⟩
    obtain ⟨x, hx, rfl⟩ := List.mem_map.1 ((hfiles q).1 hselected)
    obtain ⟨-, hplace⟩ := h.outputs.place?_source hmode hx
    obtain rfl := hvisits.loc_eq hws hplace
    have hget := (hvisits.get? hws).symm.trans (h.outputs.get?_source hws hmode hx)
    exact ⟨x, hx, rfl, rfl, Entry.file.inj (Option.some.inj hget)⟩
  · rintro ⟨x, hx, rfl, rfl, rfl⟩
    have hselected := (hfiles x.source).2 (List.mem_map_of_mem hx)
    obtain ⟨⟨loc, content, hvisits⟩, hextension⟩ := Workspace.mem_selection_iff.1 hselected
    obtain ⟨-, hplace⟩ := h.outputs.place?_source hmode hx
    obtain rfl := hvisits.loc_eq hws hplace
    have hget := (hvisits.get? hws).symm.trans (h.outputs.get?_source hws hmode hx)
    obtain rfl : content = .text x.text := Entry.file.inj (Option.some.inj hget)
    exact ⟨hvisits, hasExtension_iff.1 hextension⟩

theorem loc_ascending (hws : ws.Proper) (h : call.Account ws r done [])
    (hmode : call.options.inPlace = true) :
    done.Pairwise fun x y => compare x.loc y.loc = .lt := by
  have hascending : (call.files ws).Pairwise fun a b => ∀ la lb, ws.place? a = some la →
      ws.place? b = some lb → compare la lb = .lt := Workspace.selection_ascending hws
  rw [h.files, List.append_nil] at hascending
  refine (List.pairwise_map.1 hascending).imp_of_mem fun {x y} hx hy hlt => ?_
  exact hlt _ _ (h.outputs.place?_source hmode hx).2 (h.outputs.place?_source hmode hy).2

end FileCall.Account

/-- **Decoding in place.** A call in place that succeeds has decoded exactly the files that a walk
from the path visits and that have one of the extensions, a link to a file by its own name. They are
listed as written in the order of the walk. No two of them are one file; each one holds what
decoding gave for the text that it had before the call, and there is no other change. -/
theorem process_inPlace (ws : Workspace) (hws : ws.Proper) (d : Decoder) (extensions : List Text)
    (r : Report) (p : Path)
    (hsuccess : (ws.process d ⟨extensions, true⟩ r p).failure = none) :
    let run := ws.process d ⟨extensions, true⟩ r p
    ∃ done : List Output,
      (∀ q loc content,
        (ws.Visits p q loc content ∧ ∃ extension ∈ extensions, q.EndsIn extension) ↔
          ∃ x ∈ done, x.source = q ∧ x.loc = loc ∧ content = .text x.text) ∧
      done.Pairwise (fun x y => compare x.loc y.loc = .lt) ∧
      (∀ x ∈ done, ws.tree.get? x.loc = some (.file (.text x.text)) ∧
        x.decoded = d.decode x.text ∧
        run.workspace.tree.get? x.loc = some (.file (.text x.decoded.1))) ∧
      (∀ loc, loc ∉ done.map (·.loc) → run.workspace.tree.get? loc = ws.tree.get? loc) ∧
      run.report.written = r.written ++ done.map (·.source) ∧
      run.report.processed = r.processed + done.length ∧
      run.report.stats = r.stats + (done.map (·.decoded.2)).sum := by
  intro run
  let call : FileCall := ⟨d, ⟨extensions, true⟩, p⟩
  obtain ⟨-, done, left, haccount⟩ := call.account hws r
  obtain rfl := haccount.success hsuccess
  refine ⟨done, fun q loc content => haccount.exists_output_iff hws rfl,
    haccount.loc_ascending hws rfl, ?_, haccount.outputs.other, ?_, haccount.processed,
    haccount.stats⟩
  · intro x hx
    exact ⟨haccount.outputs.get?_source hws rfl hx, haccount.outputs.decoded x hx,
      haccount.outputs.content x hx⟩
  · have htargets : done.map (·.target) = done.map (·.source) :=
      List.map_congr_left fun x hx => (haccount.outputs.place?_source rfl hx).1
    rw [← htargets]
    exact haccount.written

/-- A link to a folder with a hidden folder, a link and a file without the extension; and a link to
a file, which counts by its own name. -/
theorem process_inPlace_links :
    ∃ (ws : Workspace) (d : Decoder), ws.Proper ∧
      let below := ws.process d ⟨["java".toList], true⟩ .empty (.ofString "top")
      let given := ws.process d ⟨["txt".toList], true⟩ .empty (.ofString "e.txt")
      below.failure = none ∧ given.failure = none ∧
      below.report.written.map (·.toString) = ["top/.git/B.java", "top/A.java"] ∧
      below.report.stats = ⟨3, 0⟩ ∧
      (∃ done : List Output,
        done.map (·.source) = below.report.written ∧
        ∀ loc, loc ∉ done.map (·.loc) →
          below.workspace.tree.get? loc = ws.tree.get? loc) ∧
      ∃ x : Output, x.source = .ofString "e.txt" ∧ x.loc = ["src".toList, "A.java".toList] ∧
        given.workspace.tree.get? x.loc = some (.file (.text "v".toList)) := by
  let ws : Workspace := ⟨⟨Dict.ofList [(["e.txt".toList], .link "src/A.java".toList),
    (["src".toList], .folder), (["src".toList, ".git".toList], .folder),
    (["src".toList, ".git".toList, "B.java".toList], .file (.text "k k".toList)),
    (["src".toList, "A.java".toList], .file (.text "k".toList)),
    (["src".toList, "C.txt".toList], .file (.text "k".toList)),
    (["src".toList, "D.java".toList], .link "A.java".toList),
    (["top".toList], .link "src".toList)]⟩, []⟩
  let d : Decoder := (Mapping.compile "fields" (Dict.ofList [("k".toList, "v".toList)])
    true).result.toOption.toList
  have hws : ws.Proper := by decide +kernel
  have hbelow : (ws.process d ⟨["java".toList], true⟩ .empty (.ofString "top")).failure = none := by
    decide +kernel
  have hgiven : (ws.process d ⟨["txt".toList], true⟩ .empty (.ofString "e.txt")).failure =
      none := by decide +kernel
  obtain ⟨done, -, -, -, hother, hwritten, -, -⟩ :=
    process_inPlace ws hws d ["java".toList] .empty (.ofString "top") hbelow
  obtain ⟨linked, hvisited, -, hcontent, -, -, -, -⟩ :=
    process_inPlace ws hws d ["txt".toList] .empty (.ofString "e.txt") hgiven
  refine ⟨ws, d, hws, hbelow, hgiven, by decide +kernel, by decide +kernel,
    ⟨done, hwritten.symm, hother⟩, ?_⟩
  -- the link leads to the file, and its own name has the extension
  have hvisits : ws.Visits (.ofString "e.txt") (.ofString "e.txt")
      ["src".toList, "A.java".toList] (.text "k".toList) :=
    .given (by decide +kernel) (by decide +kernel)
  have hextension : hasExtension (.ofString "e.txt") ["txt".toList] = true := by decide +kernel
  obtain ⟨x, hx, hsource, hloc, htext⟩ :=
    (hvisited _ _ _).1 ⟨hvisits, hasExtension_iff.1 hextension⟩
  obtain ⟨-, hdecoded, hget⟩ := hcontent x hx
  have hv : (d.decode "k".toList).1 = "v".toList := by decide +kernel
  refine ⟨x, hsource, hloc, ?_⟩
  rw [hget, hdecoded, ← Content.text.inj htext, hv]

end Unmangle
