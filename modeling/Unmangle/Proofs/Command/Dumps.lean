import Unmangle.Command.Run
import Unmangle.Proofs.Files.Places

set_option autoImplicit false

/-! # The dumps of tables

Tables are dumped in turns: each one is read when the dumps of the ones before it are written. A
dump can take the place of a table or of another dump, since its name is made of the last name of a
path only, and names can be links.

What is to be read in the end is told by paths with their texts: the tables as they were before, and
their dumps (`Command.wanted`). They can all be there exactly if paths that lead to the same place
are to hold the same text (`Command.Consistent`), and then they are
(`Command.printTables_dumped_iff`).

* `Command.print_dumps`: the main statement, about runs of the program.
* `Command.print_overwrites`: a run that succeeds, with one dump for two tables.
-/

namespace Unmangle.Command

variable {ws ws' ws'' : Workspace} {folder table p : Path} {tables : List Path} {t : Text}
  {texts : List (Path × Text)} {w : Path × Text}

/-! ## Texts that are to stand at paths -/

/-- Paths that lead to the same place are to hold the same text. -/
def Consistent (ws : Workspace) (texts : List (Path × Text)) : Prop :=
  ∀ a ∈ texts, ∀ b ∈ texts, ws.place? a.1 = ws.place? b.1 → a.2 = b.2

instance (ws : Workspace) (texts : List (Path × Text)) : Decidable (Consistent ws texts) :=
  inferInstanceAs (Decidable (∀ a ∈ texts, ∀ b ∈ texts, _))

theorem Consistent.alike (h : Consistent ws texts) (halike : ws.Alike ws') :
    Consistent ws' texts := by
  intro a ha b hb hplace
  rw [halike.place?_eq, halike.place?_eq] at hplace
  exact h a ha b hb hplace

/-- What is read at the place of a path is read at every path to this place. -/
theorem readText_of_place?_eq (hws : ws.Proper) (hplace : ws.place? p = ws.place? table)
    (h : ws.readText p = .ok t) : ws.readText table = .ok t := by
  obtain ⟨loc, hloc, hget⟩ := hws.readText_eq_ok_iff.1 h
  exact hws.readText_eq_ok_iff.2 ⟨loc, hplace.symm.trans hloc, hget⟩

/-- Texts that are all read are consistent. -/
theorem consistent_of_readText (hws : ws.Proper) (h : ∀ w ∈ texts, ws.readText w.1 = .ok w.2) :
    Consistent ws texts := by
  intro a ha b hb hplace
  have hread := readText_of_place?_eq hws hplace (h a ha)
  exact Except.ok.inj (hread.symm.trans (h b hb))

/-- Some of the texts were written, and there is no other change. -/
structure Towards (texts : List (Path × Text)) (ws ws' : Workspace) : Prop where
  proper : ws'.Proper
  alike : ws.Alike ws'
  changed : ∀ loc, ws'.tree.get? loc = ws.tree.get? loc ∨
    ∃ w ∈ texts, ws.place? w.1 = some loc ∧ ws'.tree.get? loc = some (.file (.text w.2))

namespace Towards

theorem refl (hws : ws.Proper) : Towards texts ws ws := ⟨hws, .refl ws, fun _ => .inl rfl⟩

theorem trans (h : Towards texts ws ws') (h' : Towards texts ws' ws'') :
    Towards texts ws ws'' := by
  refine ⟨h'.proper, h.alike.trans h'.alike, fun loc => ?_⟩
  rcases h'.changed loc with heq | ⟨w, hw, hplace, hget⟩
  · rw [heq]
    exact h.changed loc
  · rw [h.alike.place?_eq] at hplace
    exact .inr ⟨w, hw, hplace, hget⟩

/-- A text that is written is read, and it is the only change. -/
theorem write (hws : ws.Proper) (hw : w ∈ texts) (h : ws.writeText w.1 w.2 = .ok ws') :
    Towards texts ws ws' ∧ ws'.readText w.1 = .ok w.2 := by
  obtain ⟨loc, hplace, hfree, rfl, hproper, halike⟩ := hws.writeText_spec h
  have hself := Tree.get?_put_self (t := ws.tree) (e := .file (.text w.2))
    (Tree.ne_nil_of_fileOrFree hfree)
  refine ⟨⟨hproper, halike, fun other => ?_⟩, ?_⟩
  · by_cases heq : other = loc
    · subst heq
      exact .inr ⟨w, hw, hplace, hself⟩
    · exact .inl (Tree.get?_put_of_ne heq)
  · exact hproper.readText_eq_ok_iff.2 ⟨loc, (halike.place?_eq w.1).trans hplace, hself⟩

/-- A text that stands where it is to stand stays there. -/
theorem readText (h : Towards texts ws ws') (hws : ws.Proper) (htexts : Consistent ws texts)
    (hw : w ∈ texts) (hread : ws.readText w.1 = .ok w.2) : ws'.readText w.1 = .ok w.2 := by
  obtain ⟨loc, hplace, hget⟩ := hws.readText_eq_ok_iff.1 hread
  refine h.proper.readText_eq_ok_iff.2 ⟨loc, (h.alike.place?_eq w.1).trans hplace, ?_⟩
  rcases h.changed loc with heq | ⟨other, hother, hplace', hget'⟩
  · exact heq.trans hget
  · rw [hget', htexts other hother w hw (hplace'.trans hplace.symm)]

end Towards

/-! ## Dumping tables in turns -/

/-- A table as before and its dump. -/
def wanted (folder : Path) (text : Path → Text) (table : Path) : List (Path × Text) :=
  [(table, text table), (dumpPath folder table, (Table.ofText (text table)).dump)]

/-- A table is as before, and its dump stands in the folder. -/
def Dumped (before after : Workspace) (folder table : Path) : Prop :=
  ∃ text, before.readText table = .ok text ∧ after.readText table = .ok text ∧
    after.readText (dumpPath folder table) = .ok (Table.ofText text).dump

theorem Answer.after_success {α : Type} {context : List String} {x : Traced α} {k : α → Answer}
    (h : (Answer.after ws context x k).ending = .success) :
    ∃ a, x.result = .ok a ∧ (k a).ending = .success ∧
      (Answer.after ws context x k).workspace = (k a).workspace := by
  rw [Answer.after] at h ⊢
  cases hresult : x.result with
  | error e =>
      rw [hresult] at h
      cases h
  | ok a =>
      rw [hresult] at h
      exact ⟨a, rfl, h, rfl⟩

theorem load_eq_ok {table : Table} (h : (Table.load ws p).result = .ok table) :
    ∃ text, ws.readText p = .ok text ∧ table = Table.ofText text := by
  rw [Table.load] at h
  split at h
  · cases h
  · split at h
    · cases h
    · rename_i text hread
      refine ⟨text, hread, ?_⟩
      simpa [Except.bind, eq_comm, Table.ofText] using h

/-- What happens to the first one of some tables. -/
theorem printTables_cons (h : (printTables folder ws (p :: tables)).ending = .success) :
    ∃ text ws', ws.readText p = .ok text ∧
      ws.writeText (dumpPath folder p) (Table.ofText text).dump = .ok ws' ∧
      (printTables folder ws' tables).ending = .success ∧
      (printTables folder ws (p :: tables)).workspace =
        (printTables folder ws' tables).workspace := by
  rw [printTables] at h ⊢
  obtain ⟨table, hload, hending, hworkspace⟩ := Answer.after_success h
  obtain ⟨text, hread, rfl⟩ := load_eq_ok hload
  rw [hworkspace]
  cases hwrite : ws.writeText (dumpPath folder p) (Table.ofText text).dump with
  | error cause =>
      simp only [hwrite] at hending
      cases hending
  | ok ws' =>
      simp only [hwrite] at hending ⊢
      exact ⟨text, ws', hread, hwrite, hending, rfl⟩

/-- The dumps of tables change files at their places only. -/
theorem printTables_changed (hws : ws.Proper)
    (h : (printTables folder ws tables).ending = .success) :
    let final := (printTables folder ws tables).workspace
    final.Proper ∧ ws.Alike final ∧
      ∀ loc, (∀ p ∈ tables, ws.place? (dumpPath folder p) ≠ some loc) →
        final.tree.get? loc = ws.tree.get? loc := by
  induction tables generalizing ws with
  | nil => exact ⟨hws, .refl ws, fun _ _ => rfl⟩
  | cons p tables ih =>
      obtain ⟨text, ws', -, hwrite, hending, hworkspace⟩ := printTables_cons h
      obtain ⟨loc, hplace, -, rfl, hproper, halike⟩ := hws.writeText_spec hwrite
      obtain ⟨hfinal, hlater, hother⟩ := ih hproper hending
      rw [hworkspace]
      refine ⟨hfinal, halike.trans hlater, fun other hnot => ?_⟩
      obtain ⟨hp, hnot⟩ := List.forall_mem_cons.1 hnot
      have hne : other ≠ loc := by
        rintro rfl
        exact hp hplace
      refine (hother other fun q hq => ?_).trans (Tree.get?_put_of_ne hne)
      rw [halike.place?_eq]
      exact hnot q hq

/-- Consistent texts are reached: by induction on the tables, where each one is read as it was
before, whatever dumps were written meanwhile. -/
theorem printTables_towards {text : Path → Text} (hws : ws.Proper)
    (h : (printTables folder ws tables).ending = .success) (htexts : Consistent ws texts)
    (hread : ∀ p ∈ tables, ws.readText p = .ok (text p))
    (hsub : ∀ p ∈ tables, wanted folder text p ⊆ texts) :
    let final := (printTables folder ws tables).workspace
    Towards texts ws final ∧
      ∀ p ∈ tables, final.readText (dumpPath folder p) = .ok (Table.ofText (text p)).dump := by
  induction tables generalizing ws with
  | nil => exact ⟨.refl hws, fun _ hp => absurd hp List.not_mem_nil⟩
  | cons p tables ih =>
      obtain ⟨hp, hread⟩ := List.forall_mem_cons.1 hread
      obtain ⟨hpsub, hsub⟩ := List.forall_mem_cons.1 hsub
      obtain ⟨text', ws', hread', hwrite, hending, hworkspace⟩ := printTables_cons h
      obtain rfl : text' = text p := Except.ok.inj (hread'.symm.trans hp)
      have hdump : (dumpPath folder p, (Table.ofText (text p)).dump) ∈ texts :=
        hpsub (List.mem_cons_of_mem _ (List.mem_singleton.2 rfl))
      obtain ⟨htowards, hdumped⟩ := Towards.write hws hdump hwrite
      have htexts' := htexts.alike htowards.alike
      have hlater : ∀ q ∈ tables, ws'.readText q = .ok (text q) := fun q hq =>
        htowards.readText hws htexts (hsub q hq List.mem_cons_self) (hread q hq)
      obtain ⟨hrest, hdumps⟩ := ih htowards.proper hending htexts' hlater hsub
      rw [hworkspace]
      have hkept := hrest.readText htowards.proper htexts' hdump hdumped
      exact ⟨htowards.trans hrest, List.forall_mem_cons.2 ⟨hkept, hdumps⟩⟩

/-- All tables are dumped and as before exactly if this is consistent. -/
theorem printTables_dumped_iff (hws : ws.Proper)
    (h : (printTables folder ws tables).ending = .success) :
    (∀ p ∈ tables, Dumped ws (printTables folder ws tables).workspace folder p) ↔
      ∃ text : Path → Text, (∀ p ∈ tables, ws.readText p = .ok (text p)) ∧
        Consistent ws (tables.flatMap (wanted folder text)) := by
  constructor
  · intro hdumped
    obtain ⟨hfinal, halike, -⟩ := printTables_changed hws h
    let text : Path → Text := fun p => (ws.readText p).toOption.getD []
    have htext : ∀ {p t}, ws.readText p = .ok t → text p = t := by
      intro p t hread
      simp only [text, hread]
      rfl
    refine ⟨text, fun p hp => ?_, Consistent.alike ?_ halike.symm⟩
    · obtain ⟨t, hread, -⟩ := hdumped p hp
      rw [htext hread, hread]
    · refine consistent_of_readText hfinal fun w hw => ?_
      obtain ⟨p, hp, hw⟩ := List.mem_flatMap.1 hw
      obtain ⟨t, hread, hafter, hdump⟩ := hdumped p hp
      rw [wanted, htext hread, List.mem_cons, List.mem_singleton] at hw
      rcases hw with rfl | rfl
      · exact hafter
      · exact hdump
  · rintro ⟨text, hread, htexts⟩ p hp
    have hsub : ∀ p ∈ tables, wanted folder text p ⊆ tables.flatMap (wanted folder text) :=
      fun p hp w hw => List.mem_flatMap.2 ⟨p, hp, hw⟩
    obtain ⟨htowards, hdumps⟩ := printTables_towards hws h htexts hread hsub
    refine ⟨text p, hread p hp, ?_, hdumps p hp⟩
    exact htowards.readText hws htexts (hsub p hp List.mem_cons_self) (hread p hp)

/-! ## Runs -/

theorem Ending.code_eq_zero_iff {ending : Ending} : ending.code = 0 ↔ ending = .success := by
  cases ending <;> simp [Ending.code]

def tablesOf (settings : Settings) : List Path := [settings.fields, settings.methods]

/-- **Dumps of the tables.** A run that dumps the tables and succeeds leaves both of them as they
were and both dumps in the folder exactly if, of the two tables and the two dumps, those whose paths
lead to the same place are to hold the same text. Nothing but the places of the dumps is changed. -/
theorem print_dumps [Pattern.Engine] (s : Surroundings) (hs : s.workspace.Proper)
    (args : List String) (folder : Path) (hread : Request.read args = some (.print folder))
    (hcode : (run s args).code = 0) :
    ∃ settings,
      (Settings.load s.workspace s.workspace.herePath s.home).result = .ok settings ∧
      ((∀ table ∈ tablesOf settings, Dumped s.workspace (run s args).workspace folder table) ↔
        ∃ text : Path → Text,
          (∀ table ∈ tablesOf settings, s.workspace.readText table = .ok (text table)) ∧
          Consistent s.workspace ((tablesOf settings).flatMap (wanted folder text))) ∧
      ∀ loc, (∀ table ∈ tablesOf settings,
          s.workspace.place? (dumpPath folder table) ≠ some loc) →
        (run s args).workspace.tree.get? loc = s.workspace.tree.get? loc := by
  simp only [run, hread] at hcode ⊢
  have hsuccess := Ending.code_eq_zero_iff.1 hcode
  rw [answer, withSettings] at hsuccess ⊢
  obtain ⟨settings, hload, hending, hworkspace⟩ := Answer.after_success hsuccess
  rw [hworkspace]
  exact ⟨settings, hload, printTables_dumped_iff hs hending,
    (printTables_changed hs hending).2.2⟩

/-- The tables of a folder without a configuration. -/
theorem print_dumps_defaults :
    let ws : Workspace := ⟨⟨Dict.ofList [(["w".toList], .folder),
      (["w".toList, "fields.csv".toList], .file (.text "searge,name\nfield_1_a,x\n".toList)),
      (["w".toList, "methods.csv".toList], .file (.text "searge,name\nfunc_1_a,tick\n".toList))]⟩,
      ["w".toList]⟩
    let s : Surroundings := ⟨ws, .ofString "/h", .text [], []⟩
    ws.Proper ∧ (run s ["print"]).code = 0 ∧
      Dumped ws (run s ["print"]).workspace (.ofString ".") (.ofString "/w/fields.csv") ∧
      Dumped ws (run s ["print"]).workspace (.ofString ".") (.ofString "/w/methods.csv") := by
  intro ws s
  have hws : ws.Proper := by decide +kernel
  have hcode : (run s ["print"]).code = 0 := by decide +kernel
  obtain ⟨settings, hload, hiff, -⟩ :=
    print_dumps s hws ["print"] (.ofString ".") (by decide +kernel) hcode
  have hdefaults : (Settings.load ws ws.herePath s.home).result = .ok (.defaults ws.herePath) := by
    decide +kernel
  obtain rfl : settings = .defaults ws.herePath := Except.ok.inj (hload.symm.trans hdefaults)
  have htables : tablesOf (.defaults ws.herePath) =
      [.ofString "/w/fields.csv", .ofString "/w/methods.csv"] := by decide +kernel
  have hdumped := hiff.2 ⟨fun p => (ws.readText p).toOption.getD [], by decide +kernel,
    by decide +kernel⟩
  rw [htables, List.forall_mem_cons, List.forall_mem_singleton] at hdumped
  exact ⟨hws, hcode, hdumped⟩

/-- Two tables of the same name in different folders: the second dump takes the place of the first
one, and the run succeeds. -/
theorem print_overwrites :
    let ws : Workspace := ⟨⟨Dict.ofList [(["w".toList], .folder),
      (["w".toList, ".demap.toml".toList], .file (.text
        "root = true\nfields = \"a/t.csv\"\nmethods = \"b/t.csv\"\n".toList)),
      (["w".toList, "a".toList], .folder), (["w".toList, "b".toList], .folder),
      (["w".toList, "a".toList, "t.csv".toList],
        .file (.text "searge,name\nfield_1_a,x\n".toList)),
      (["w".toList, "b".toList, "t.csv".toList],
        .file (.text "searge,name\nfunc_1_a,tick\n".toList))]⟩, ["w".toList]⟩
    let s : Surroundings := ⟨ws, .ofString "/h", .text [], []⟩
    ws.Proper ∧ (run s ["print"]).code = 0 ∧
      (run s ["print"]).output = "Written ./t.csv.log\nWritten ./t.csv.log\n" ∧
      (run s ["print"]).workspace.readText (.ofString "t.csv.log") =
        .ok "\tfunc_1_a\n\t\tname\n\t\ttick\n".toList ∧
      ¬ Dumped ws (run s ["print"]).workspace (.ofString ".") (.ofString "/w/a/t.csv") := by
  intro ws s
  refine ⟨by decide +kernel, by decide +kernel, by decide +kernel, by decide +kernel, ?_⟩
  rintro ⟨text, hread, -, hdump⟩
  have htext : ws.readText (.ofString "/w/a/t.csv") = .ok "searge,name\nfield_1_a,x\n".toList := by
    decide +kernel
  obtain rfl := Except.ok.inj (htext.symm.trans hread)
  revert hdump
  decide +kernel

end Unmangle.Command
