import Unmangle.Decode.Clipboard
import Unmangle.Proofs.Command.Dumps
import Unmangle.Proofs.Files.Ledger

set_option autoImplicit false

/-! # Ways to decode a text

A text can be decoded in a file in place, into a copy of a file, in a clipboard and from the input
to the output. The four ways read and write it in their own manner and give the same decoded text;
the ones that report counts report the same. A clipboard that cannot be decoded stays as it is.

* `Clipboard.decodeText_eq`: decoding a clipboard step by step, each step on what the one before has
  left, is decoding it.
* `FileCall.Account.exists_output`: what a call that leaves no file has done with one of its files.
* `Command.run_input`: what a run without paths prints.
* `ways_agree`: the main statement, for all four ways and any history of a clipboard.
-/

namespace Unmangle

/-! ## Clipboards -/

namespace Clipboard

variable {c c' : Clipboard} {d : Decoder} {t : Text} {stats : Stats} {e : Error}

def getText : EStateM Error Clipboard Text := fun c =>
  match c.read with
  | .ok t => .ok t c
  | .error e => .error e c

def setText (t : Text) : EStateM Error Clipboard Unit := fun c =>
  match c.write t with
  | .ok c' => .ok () c'
  | .error e => .error e c

/-- Decodes the text in steps, each one on the clipboard that the one before has left. -/
def decodeText (d : Decoder) : EStateM Error Clipboard Stats := do
  let t ← getText
  setText (d.decode t).1
  return (d.decode t).2

theorem decodeText_of_none (h : c.text = none) (d : Decoder) :
    decodeText d c = .error (.clipboard .empty) c := by
  have hread : c.read = .error (.clipboard .empty) := by rw [read, h]
  have hget : getText c = .error (.clipboard .empty) c := by rw [getText, hread]
  simp only [decodeText, bind, EStateM.bind, hget]

theorem decodeText_of_some (h : c.text = some t) (d : Decoder) :
    decodeText d c =
      if c.refuses then .error (.clipboard .refused) c
      else .ok (d.decode t).2 { c with text := some (d.decode t).1, writes := c.writes + 1 } := by
  have hread : c.read = .ok t := by rw [read, h]
  have hget : getText c = .ok t c := by rw [getText, hread]
  by_cases hrefuses : c.refuses = true
  · have hset : setText (d.decode t).1 c = .error (.clipboard .refused) c := by
      rw [setText, write, if_pos hrefuses]
    rw [if_pos hrefuses]
    simp only [decodeText, bind, EStateM.bind, hget, hset]
  · have hset : setText (d.decode t).1 c =
        .ok () { c with text := some (d.decode t).1, writes := c.writes + 1 } := by
      rw [setText, write, if_neg hrefuses]
    rw [if_neg hrefuses]
    simp only [decodeText, bind, EStateM.bind, hget, hset, pure, EStateM.pure]

/-- The clipboard that a decoding leaves, or the one that it found if it fails. -/
theorem decodeText_eq (d : Decoder) (c : Clipboard) :
    decodeText d c =
      match (c.decode d).result with
      | .ok (c', stats) => .ok stats c'
      | .error e => .error e c := by
  rw [decode, Traced.result_bind, Traced.result_of]
  cases htext : c.text with
  | none =>
      have hread : c.read = .error (.clipboard .empty) := by rw [read, htext]
      rw [decodeText_of_none htext, hread]
      rfl
  | some t =>
      have hread : c.read = .ok t := by rw [read, htext]
      rw [decodeText_of_some htext, hread]
      simp only [Except.bind, Traced.result_bind, Traced.result_report, Traced.result_of, write]
      by_cases hrefuses : c.refuses = true
      · rw [if_pos hrefuses, if_pos hrefuses]
      · rw [if_neg hrefuses, if_neg hrefuses]
        rfl

/-- What a decoding that succeeds says about the clipboard. -/
theorem decodeText_eq_ok (h : decodeText d c = .ok stats c') :
    ∃ t, c.text = some t ∧ c.refuses = false ∧ stats = (d.decode t).2 ∧
      c' = { c with text := some (d.decode t).1, writes := c.writes + 1 } := by
  cases htext : c.text with
  | none =>
      rw [decodeText_of_none htext] at h
      cases h
  | some t =>
      rw [decodeText_of_some htext] at h
      by_cases hrefuses : c.refuses = true
      · rw [if_pos hrefuses] at h
        cases h
      · rw [if_neg hrefuses] at h
        obtain ⟨rfl, rfl⟩ := EStateM.Result.ok.inj h
        exact ⟨t, rfl, Bool.eq_false_iff.2 hrefuses, rfl, rfl⟩

/-- A decoding that fails leaves the clipboard as it was. -/
theorem decodeText_eq_error (h : decodeText d c = .error e c') : c' = c := by
  cases htext : c.text with
  | none =>
      rw [decodeText_of_none htext] at h
      exact (EStateM.Result.error.inj h).2.symm
  | some t =>
      rw [decodeText_of_some htext] at h
      by_cases hrefuses : c.refuses = true
      · rw [if_pos hrefuses] at h
        exact (EStateM.Result.error.inj h).2.symm
      · rw [if_neg hrefuses] at h
        cases h

/-! ## Histories of a clipboard -/

/-- What happens to a clipboard from outside. -/
inductive Change where
  | keep
  | put (text : Option Text)
  | refuse (refuses : Bool)
  deriving DecidableEq, Repr

def change (c : Clipboard) : Change → Clipboard
  | .keep => c
  | .put text => { c with text }
  | .refuse refuses => { c with refuses }

/-- The clipboard after some steps, and how many of them succeeded. A step is a change from outside
and then a decoding, which may fail. -/
def history (c : Clipboard) : List (Change × Decoder) → Clipboard × Nat
  | [] => (c, 0)
  | (x, d) :: steps =>
      match decodeText d (c.change x) with
      | .ok _ c' => ((c'.history steps).1, (c'.history steps).2 + 1)
      | .error _ c' => c'.history steps

theorem writes_change (c : Clipboard) (x : Change) : (c.change x).writes = c.writes := by
  cases x <;> rfl

/-- The writes of a clipboard are the decodings that succeeded. -/
theorem writes_history (c : Clipboard) (steps : List (Change × Decoder)) :
    (c.history steps).1.writes = c.writes + (c.history steps).2 := by
  induction steps generalizing c with
  | nil => rfl
  | cons step steps ih =>
      obtain ⟨x, d⟩ := step
      rw [history]
      cases hdecode : decodeText d (c.change x) with
      | ok stats c' =>
          obtain ⟨t, -, -, -, rfl⟩ := decodeText_eq_ok hdecode
          simp only [ih, writes_change]
          omega
      | error e c' =>
          obtain rfl := decodeText_eq_error hdecode
          simp only [ih, writes_change]

end Clipboard

/-! ## Files -/

namespace FileCall.Account

variable {call : FileCall} {ws : Workspace} {r : Report} {done : List Output} {q : Path} {t : Text}

/-- A call that leaves no file has an output for each of its files, from the text that it holds. -/
theorem exists_output (h : call.Account ws r done []) (hq : q ∈ call.files ws)
    (hread : ws.readText q = .ok t) :
    ∃ x ∈ done, x.source = q ∧ x.decoded = call.decoder.decode t := by
  rw [h.files, List.append_nil] at hq
  obtain ⟨x, hx, rfl⟩ := List.mem_map.1 hq
  obtain rfl : x.text = t := Except.ok.inj ((h.outputs.read x hx).symm.trans hread)
  exact ⟨x, hx, rfl, h.outputs.decoded x hx⟩

/-- The counts that a call adds if there is one file to decode. -/
theorem stats_single (h : call.Account ws r done []) (hq : call.files ws = [q])
    (hread : ws.readText q = .ok t) :
    (call.run ws r).report.stats = r.stats + (call.decoder.decode t).2 := by
  have hfiles := h.files
  rw [hq, List.append_nil] at hfiles
  obtain ⟨x, rfl, rfl⟩ := List.map_eq_singleton_iff.1 hfiles.symm
  obtain rfl : x.text = t :=
    Except.ok.inj ((h.outputs.read x List.mem_cons_self).symm.trans hread)
  rw [h.stats, ← h.outputs.decoded x List.mem_cons_self]
  exact congrArg (r.stats + ·) (add_zero _)

end FileCall.Account

/-! ## The input -/

namespace Command

variable {s : Surroundings} {settings : Settings} {d : Decoder} {t : Text}

theorem Answer.after_of_ok {α : Type} {ws : Workspace} {context : List String} {x : Traced α}
    {k : α → Answer} {a : α} (h : x.result = .ok a) :
    Answer.after ws context x k = { k a with log := x.log ++ (k a).log } := by
  rw [Answer.after, h]

/-- A run without paths prints the decoded text of the input and changes nothing. -/
theorem run_input [Pattern.Engine] {args : List String} {inPlace : Bool}
    (hread : Request.read args = some (.decode [] inPlace))
    (hsettings : (Settings.load s.workspace s.workspace.herePath s.home).result = .ok settings)
    (hdecoder : (Decoder.load s.workspace settings).result = .ok d) (hinput : s.input = .text t) :
    (run s args).code = 0 ∧ (run s args).output = String.ofList (d.decode t).1 ∧
      (run s args).workspace = s.workspace := by
  have hanswer : answer s (.decode [] inPlace) =
      { decodeInput s d with
        log := (Settings.load s.workspace s.workspace.herePath s.home).log ++
          ((Decoder.load s.workspace settings).log ++ (decodeInput s d).log) } := by
    rw [answer, withDecoder, withSettings, Answer.after_of_ok hsettings,
      Answer.after_of_ok hdecoder]
    rfl
  simp only [run, hread, hanswer, decodeInput, hinput]
  exact ⟨rfl, rfl, rfl⟩

end Command

/-! ## All ways -/

/-- Every way to decode a text gives the decoded text of the decoder, and its counts where counts
are reported. -/
structure WaysAgree (d : Decoder) (t : Text) : Prop where
  /-- A file that holds the text and is decoded in place holds the decoded text. -/
  inPlace : ∀ (ws : Workspace) (extensions : List Text) (r : Report) (p q : Path), ws.Proper →
    q ∈ ws.selection extensions p → ws.readText q = .ok t →
    let run := ws.process d ⟨extensions, true⟩ r p
    run.failure = none →
      run.workspace.readText q = .ok (d.decode t).1 ∧
      (ws.selection extensions p = [q] → run.report.stats = r.stats + (d.decode t).2)
  /-- A file that holds the text and is copied keeps it, and a new file beside it holds the decoded
  text. -/
  copy : ∀ (ws : Workspace) (extensions : List Text) (r : Report) (p q : Path), ws.Proper →
    q ∈ ws.selection extensions p → ws.readText q = .ok t →
    let run := ws.process d ⟨extensions, false⟩ r p
    run.failure = none →
      run.workspace.readText q = .ok t ∧
      (∃ w ∈ run.report.written, q.Beside w ∧ ws.pathExists w = false ∧
        run.workspace.readText w = .ok (d.decode t).1) ∧
      (ws.selection extensions p = [q] → run.report.stats = r.stats + (d.decode t).2)
  /-- A clipboard that holds the text holds the decoded text after one write. -/
  clipboard : ∀ (c c' : Clipboard) (stats : Stats), c.text = some t →
    (c.decode d).result = .ok (c', stats) →
      c'.text = some (d.decode t).1 ∧ c'.writes = c.writes + 1 ∧ stats = (d.decode t).2
  /-- A run without paths that loads the decoder prints the decoded text of the input. -/
  input : ∀ [Pattern.Engine] (s : Command.Surroundings) (settings : Settings)
      (args : List String) (inPlace : Bool),
    Request.read args = some (.decode [] inPlace) →
    (Settings.load s.workspace s.workspace.herePath s.home).result = .ok settings →
    (Decoder.load s.workspace settings).result = .ok d → s.input = .text t →
      (Command.run s args).code = 0 ∧
      (Command.run s args).output = String.ofList (d.decode t).1 ∧
      (Command.run s args).workspace = s.workspace

/-- **All ways of decoding agree**, for every decoder and every text. And in any history of a
clipboard the writes are the decodings that succeeded; one that fails changes nothing. -/
theorem ways_agree (d : Decoder) (t : Text) :
    WaysAgree d t ∧
    ∀ (c : Clipboard) (steps : List (Clipboard.Change × Decoder)),
      (c.history steps).1.writes = c.writes + (c.history steps).2 ∧
      ∀ (x : Clipboard.Change) (e : Error) (after : Clipboard),
        let before := (c.history steps).1.change x
        Clipboard.decodeText d before = .error e after →
          after.text = before.text ∧ after.writes = before.writes := by
  refine ⟨?_, fun c steps => ⟨Clipboard.writes_history c steps, ?_⟩⟩
  · constructor
    case inPlace =>
      intro ws extensions r p q hws hq hread run hsuccess
      let call : FileCall := ⟨d, ⟨extensions, true⟩, p⟩
      obtain ⟨hws', done, left, haccount⟩ := call.account hws r
      obtain rfl := haccount.success hsuccess
      obtain ⟨x, hx, rfl, hdecoded⟩ := haccount.exists_output hq hread
      have hout := haccount.outputs.readText_target hws' hx
      rw [(haccount.outputs.place?_source rfl hx).1, hdecoded] at hout
      exact ⟨hout, fun honly => haccount.stats_single honly hread⟩
    case copy =>
      intro ws extensions r p q hws hq hread run hsuccess
      let call : FileCall := ⟨d, ⟨extensions, false⟩, p⟩
      obtain ⟨hws', done, left, haccount⟩ := call.account hws r
      obtain rfl := haccount.success hsuccess
      obtain ⟨x, hx, rfl, hdecoded⟩ := haccount.exists_output hq hread
      have hkept := haccount.outputs.readText_of_copies hws hws' rfl hread
      have hout := haccount.outputs.readText_target hws' hx
      rw [hdecoded] at hout
      have hwritten : run.report.written = r.written ++ done.map (·.target) := haccount.written
      refine ⟨hkept, ⟨x.target, ?_, (haccount.outputs.free rfl hx).2,
        haccount.outputs.pathExists_target hws rfl hx, hout⟩,
        fun honly => haccount.stats_single honly hread⟩
      rw [hwritten]
      exact List.mem_append_right _ (List.mem_map_of_mem hx)
    case clipboard =>
      intro c c' stats htext hdecode
      have hsteps : Clipboard.decodeText d c = .ok stats c' := by
        rw [Clipboard.decodeText_eq, hdecode]
      obtain ⟨t', htext', -, rfl, rfl⟩ := Clipboard.decodeText_eq_ok hsteps
      obtain rfl : t' = t := Option.some.inj (htext'.symm.trans htext)
      exact ⟨rfl, rfl, rfl⟩
    case input =>
      intro _ s settings args inPlace hread hsettings hdecoder hinput
      exact Command.run_input hread hsettings hdecoder hinput
  · intro x e after before hdecode
    obtain rfl := Clipboard.decodeText_eq_error hdecode
    exact ⟨rfl, rfl⟩

/-- A text with two kinds of line ends and none at its end, decoded with the tables of a folder. -/
theorem ways_agree_line_ends :
    let t := "x.func_1_a();\r\nlog(\"func_1_a\");\nfield_1_a".toList
    let out := "x.tick();\r\nlog(\"func_1_a\");\nage".toList
    let ws : Workspace := ⟨⟨Dict.ofList [(["w".toList], .folder),
      (["w".toList, "fields.csv".toList], .file (.text "searge,name\nfield_1_a,age\n".toList)),
      (["w".toList, "methods.csv".toList], .file (.text "searge,name\nfunc_1_a,tick\n".toList)),
      (["w".toList, "A.java".toList], .file (.text t))]⟩, ["w".toList]⟩
    let s : Command.Surroundings := ⟨ws, .ofString "/h", .text t, []⟩
    ∃ d : Decoder, ws.Proper ∧
      (ws.process d ⟨["java".toList], true⟩ .empty (.ofString ".")).workspace.readText
        (.ofString "./A.java") = .ok out ∧
      (ws.process d ⟨["java".toList], false⟩ .empty (.ofString "A.java")).report.stats = ⟨2, 1⟩ ∧
      ((Clipboard.mk (some t) false 4).decode d).result =
        .ok (⟨some out, false, 5⟩, ⟨2, 1⟩) ∧
      (Command.run s []).output = String.ofList out ∧
      ∀ e after, Clipboard.decodeText d ⟨some t, true, 4⟩ = .error e after →
        after.text = some t ∧ after.writes = 4 := by
  intro t out ws s
  let settings : Settings := .defaults ws.herePath
  let d : Decoder := (Decoder.load ws settings).result.toOption.getD []
  have hws : ws.Proper := by decide +kernel
  have hsettings : (Settings.load ws ws.herePath s.home).result = .ok settings := by
    decide +kernel
  have hdecoder : (Decoder.load ws settings).result = .ok d := by
    have hloads : (Decoder.load ws settings).result.toBool = true := by decide +kernel
    cases hresult : (Decoder.load ws settings).result with
    | error e =>
        rw [hresult] at hloads
        cases hloads
    | ok d' =>
        have hd : d = d' := by
          show (Decoder.load ws settings).result.toOption.getD [] = d'
          rw [hresult]
          rfl
        rw [hd]
  have hdecoded : d.decode t = (out, ⟨2, 1⟩) := by decide +kernel
  obtain ⟨hways, hhistory⟩ := ways_agree d t
  have hinPlace := hways.inPlace ws ["java".toList] .empty (.ofString ".") (.ofString "./A.java")
    hws (by decide +kernel) (by decide +kernel) (by decide +kernel)
  have hcopy := hways.copy ws ["java".toList] .empty (.ofString "A.java") (.ofString "A.java")
    hws (by decide +kernel) (by decide +kernel) (by decide +kernel)
  have hinput := hways.input s settings [] false (by decide +kernel) hsettings hdecoder rfl
  rw [hdecoded] at hinPlace hcopy hinput
  have hstats := hcopy.2.2 (by decide +kernel)
  refine ⟨d, hws, hinPlace.1, hstats, by decide +kernel, hinput.2.1, ?_⟩
  intro e after hfailed
  exact (hhistory ⟨some t, true, 4⟩ []).2 .keep e after hfailed

end Unmangle
