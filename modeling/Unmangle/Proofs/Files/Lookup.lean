import Mathlib.Data.List.Induction
import Unmangle.Proofs.Files.Steps

set_option autoImplicit false

/-! # Looking up paths in a file tree

What a look-up does step by step is told by a relation, `Tree.Leads`, with one rule for each kind of
step; a rule for a link spends one of the links that may be followed. It is proved to be the
look-up (`Tree.walkLinks_eq_ok_iff`), and everything else here is an induction on it:

* `Tree.Leads.fits`: what a look-up finds stands there, and a free place is in a folder.
* `Tree.Leads.moreFiles`: files that are new in a tree change no look-up, except that they are found
  where a place was free.
* `Tree.Leads.thin`: a look-up to use something does not need steps that stay in a folder.
* `Tree.Leads.append`: steps that lead to a folder may be followed by steps from there.
-/

namespace Unmangle

namespace Tree

variable {t t' : Tree} {access : Access} {links : Nat} {here loc : Location} {step : Text}
  {rest steps : List Text} {e : Entry} {content : Content} {f : Found}

/-! ## Steps -/

/-- A step that enters what has its name. -/
structure IsName (step : Text) : Prop where
  not_trivial : Path.isTrivial step = false
  not_up : step ≠ ['.', '.']
  short : Text.byteSize step ≤ nameLimit

instance (step : Text) : Decidable (IsName step) :=
  decidable_of_iff
    (Path.isTrivial step = false ∧ step ≠ ['.', '.'] ∧ Text.byteSize step ≤ nameLimit)
    ⟨fun h => ⟨h.1, h.2.1, h.2.2⟩, fun h => ⟨h.1, h.2, h.3⟩⟩

/-- Where the steps of a link's target are taken from. -/
def startOf (target : Text) (here : Location) : Location :=
  if target.head? = some '/' then [] else here

/-- The steps that a look-up takes from a folder on lead to what it finds. -/
inductive Leads (t : Tree) (access : Access) : Nat → Location → List Text → Found → Prop
  | arrive {links : Nat} {here : Location} : Leads t access links here [] (.entry here .folder)
  | stay {links : Nat} {here : Location} {step : Text} {rest : List Text} {f : Found} :
      Path.isTrivial step = true → Leads t access links here rest f →
      Leads t access links here (step :: rest) f
  | up {links : Nat} {here : Location} {rest : List Text} {f : Found} :
      Leads t access links here.dropLast rest f →
      Leads t access links here (['.', '.'] :: rest) f
  | enter {links : Nat} {here : Location} {step : Text} {rest : List Text} {f : Found} :
      IsName step → ¬ (access = .write ∧ rest = [[]]) →
      t.get? (here ++ [step]) = some .folder → Leads t access links (here ++ [step]) rest f →
      Leads t access links here (step :: rest) f
  | file {links : Nat} {here : Location} {step : Text} {content : Content} :
      IsName step → t.get? (here ++ [step]) = some (.file content) →
      Leads t access links here [step] (.entry (here ++ [step]) (.file content))
  | free {links : Nat} {here : Location} {step : Text} :
      IsName step → t.get? (here ++ [step]) = none →
      Leads t access links here [step] (.vacant (here ++ [step]))
  | inspect {links : Nat} {here : Location} {step target : Text} :
      IsName step → access = .inspect → t.get? (here ++ [step]) = some (.link target) →
      Leads t access links here [step] (.entry (here ++ [step]) (.link target))
  | follow {links : Nat} {here : Location} {step target : Text} {rest : List Text} {f : Found} :
      IsName step → ¬ (access = .write ∧ rest = [[]]) → ¬ (access = .inspect ∧ rest = []) →
      t.get? (here ++ [step]) = some (.link target) →
      Leads t access links (startOf target here) (stepsOf target ++ rest) f →
      Leads t access (links + 1) here (step :: rest) f

/-- A walk that succeeds takes steps by the rules, if what it does at a link is by the rules. -/
theorem leads_of_walk {follow : Location → Text → List Text → Except FileError Found}
    (hfollow : ∀ {here target rest f}, follow here target rest = .ok f → ∃ n, links = n + 1 ∧
      t.Leads access n (startOf target here) (stepsOf target ++ rest) f)
    (h : t.walk access follow here steps = .ok f) : t.Leads access links here steps f := by
  induction steps generalizing here with
  | nil =>
      obtain rfl : Found.entry here .folder = f := by simpa [walk] using h
      exact .arrive
  | cons step rest ih =>
      -- the tests in the order in which the walk makes them, then what stands under the name
      rw [walk] at h
      split at h
      · rename_i hstay
        exact .stay (by simpa [Path.isTrivial] using hstay) (ih h)
      rename_i hstay
      split at h
      · rename_i hup
        exact hup ▸ .up (ih h)
      rename_i hup
      split at h
      · cases h
      rename_i hwrite
      split at h
      · cases h
      rename_i hshort
      have hname : IsName step :=
        ⟨by simpa [Path.isTrivial] using hstay, hup, Nat.le_of_not_lt hshort⟩
      replace hwrite : ¬ (access = .write ∧ rest = [[]]) := by simpa using hwrite
      simp only at h
      split at h
      · rename_i hget
        split at h
        · rename_i hrest
          obtain rfl : rest = [] := by simpa using hrest
          obtain rfl : Found.vacant (here ++ [step]) = f := by simpa using h
          exact .free hname hget
        · cases h
      · rename_i hget
        exact .enter hname hwrite hget (ih h)
      · rename_i content hget
        split at h
        · rename_i hrest
          obtain rfl : rest = [] := by simpa using hrest
          obtain rfl : Found.entry (here ++ [step]) (.file content) = f := by simpa using h
          exact .file hname hget
        · cases h
      · rename_i target hget
        split at h
        · rename_i hinspect
          obtain ⟨hrest, haccess⟩ : rest = [] ∧ access = .inspect := by simpa using hinspect
          subst hrest
          obtain rfl : Found.entry (here ++ [step]) (.link target) = f := by simpa using h
          exact .inspect hname haccess hget
        · rename_i hinspect
          obtain ⟨n, rfl, hleads⟩ := hfollow h
          exact .follow hname hwrite (by simpa [and_comm] using hinspect) hget hleads

theorem leads_of_walkLinks (h : t.walkLinks access links here steps = .ok f) :
    t.Leads access links here steps f := by
  induction links generalizing here steps f with
  | zero => exact leads_of_walk (fun h => by cases h) h
  | succ n ih => exact leads_of_walk (fun h => ⟨n, rfl, ih h⟩) h

/-- What a look-up does at a step that enters something by its name. -/
theorem walkLinks_named (hname : IsName step) (hwrite : ¬ (access = .write ∧ rest = [[]])) :
    t.walkLinks access links here (step :: rest) =
      match t.get? (here ++ [step]) with
      | none => if rest.isEmpty then .ok (.vacant (here ++ [step])) else .error .notFound
      | some .folder => t.walkLinks access links (here ++ [step]) rest
      | some (.file content) =>
          if rest.isEmpty then .ok (.entry (here ++ [step]) (.file content)) else .error .notFolder
      | some (.link target) =>
          if rest.isEmpty && access = .inspect then .ok (.entry (here ++ [step]) (.link target))
          else
            match links with
            | 0 => .error .tooManyLinks
            | n + 1 => t.walkLinks access n (startOf target here) (stepsOf target ++ rest) := by
  have hstay : ¬ (step.isEmpty || step = ['.']) = true := by
    simpa [Path.isTrivial] using hname.not_trivial
  have hwrite' : ¬ (access = .write && rest = [[]]) = true := by simpa using hwrite
  have hshort : ¬ nameLimit < Text.byteSize step := Nat.not_lt.2 hname.short
  have hskip : ∀ a b c d e : Except FileError Found,
      (if step.isEmpty || step = ['.'] then a else if step = ['.', '.'] then b
        else if access = .write && rest = [[]] then c
        else if nameLimit < Text.byteSize step then d else e) = e := by
    intro a b c d e
    rw [if_neg hstay, if_neg hname.not_up, if_neg hwrite', if_neg hshort]
  cases links with
  | zero => exact hskip _ _ _ _ _
  | succ n => exact hskip _ _ _ _ _

theorem Leads.walkLinks_eq (h : t.Leads access links here steps f) :
    t.walkLinks access links here steps = .ok f := by
  induction h with
  | arrive =>
      rename_i links here
      cases links <;> rfl
  | stay hstay _ ih =>
      rename_i links here step rest f _
      have hstep : (step.isEmpty || step = ['.']) = true := by simpa [Path.isTrivial] using hstay
      cases links <;> rw [walkLinks, walk, if_pos hstep] <;> exact ih
  | up _ ih =>
      rename_i links _ _ _ _
      cases links <;> exact ih
  | enter hname hwrite hget _ ih => rw [walkLinks_named hname hwrite, hget]; exact ih
  | file hname hget => rw [walkLinks_named hname (by simp), hget]; rfl
  | free hname hget => rw [walkLinks_named hname (by simp), hget]; rfl
  | inspect hname haccess hget =>
      rw [walkLinks_named hname (by simp), hget, haccess]
      rfl
  | follow hname hwrite hinspect hget _ ih =>
      rw [walkLinks_named hname hwrite, hget]
      exact (if_neg (by simpa [and_comm] using hinspect)).trans ih

theorem walkLinks_eq_ok_iff :
    t.walkLinks access links here steps = .ok f ↔ t.Leads access links here steps f :=
  ⟨leads_of_walkLinks, Leads.walkLinks_eq⟩

/-! ## Changes of a tree -/

theorem get?_put_self (hloc : loc ≠ []) : (t.put loc e).get? loc = some e := by
  rw [get?, if_neg hloc]
  exact Dict.get?_insert_self _ _ _

theorem get?_put_of_ne {other : Location} (h : other ≠ loc) :
    (t.put loc e).get? other = t.get? other := by
  rw [get?, get?]
  split
  · rfl
  · exact Dict.get?_insert_of_ne h.symm _

/-- A tree has the same as another one, and files where there was nothing. -/
def MoreFiles (t t' : Tree) : Prop :=
  ∀ loc, t'.get? loc = t.get? loc ∨
    t.get? loc = none ∧ ∃ content, t'.get? loc = some (.file content)

theorem MoreFiles.get?_eq_some (h : t.MoreFiles t') (hget : t.get? loc = some e) :
    t'.get? loc = some e := by
  rcases h loc with heq | ⟨hnone, _⟩
  · rw [heq, hget]
  · rw [hnone] at hget
    cases hget

/-! ## Proper trees -/

/-- What stands at a location has a name and stands in a folder. -/
def ProperAt (t : Tree) (loc : Location) : Prop :=
  ∀ name ∈ loc.getLast?, (IsName name ∧ '/' ∉ name) ∧ t.get? loc.dropLast = some .folder

instance (t : Tree) (loc : Location) : Decidable (t.ProperAt loc) :=
  inferInstanceAs (Decidable (∀ name ∈ loc.getLast?, _))

/-- Everything has a name and stands in a folder. -/
def Proper (t : Tree) : Prop := ∀ loc ∈ t.entries.keys, t.ProperAt loc

instance (t : Tree) : Decidable t.Proper :=
  inferInstanceAs (Decidable (∀ loc ∈ t.entries.keys, t.ProperAt loc))

theorem Proper.properAt (ht : t.Proper) (hget : t.get? loc = some e) : t.ProperAt loc := by
  by_cases hloc : loc = []
  · subst hloc
    intro name hname
    cases hname
  · rw [get?, if_neg hloc] at hget
    exact ht loc (Dict.mem_keys_iff.2 ⟨e, hget⟩)

theorem Proper.concat {base : Location} {name : Text} (ht : t.Proper)
    (hget : t.get? (base ++ [name]) = some e) :
    (IsName name ∧ '/' ∉ name) ∧ t.get? base = some .folder := by
  have h := ht.properAt hget name (by simp)
  rwa [List.dropLast_concat] at h

/-- What something stands below is a folder. -/
theorem Proper.folder_above (ht : t.Proper) {base names : Location} (hnames : names ≠ [])
    (hget : t.get? (base ++ names) = some e) : t.get? base = some .folder := by
  induction names using List.reverseRecOn generalizing e with
  | nil => exact absurd rfl hnames
  | append_singleton names name ih =>
      rw [← List.append_assoc] at hget
      have habove := (ht.concat hget).2
      by_cases hrest : names = []
      · rwa [hrest, List.append_nil] at habove
      · exact ih hrest habove

/-- The way to a folder of a proper tree leads through folders. -/
theorem Proper.dropLast (ht : t.Proper) (hhere : t.get? here = some .folder) :
    t.get? here.dropLast = some .folder := by
  by_cases hnil : here = []
  · rwa [hnil] at hhere ⊢
  · rw [← List.dropLast_concat_getLast hnil] at hhere
    exact (ht.concat hhere).2

/-! ## What is found -/

/-- What was found stands there; a free place is a name in a folder. -/
def Fits (t : Tree) : Found → Prop
  | .entry loc e => t.get? loc = some e
  | .vacant loc => ∃ base name, loc = base ++ [name] ∧ t.get? loc = none ∧
      t.get? base = some .folder ∧ IsName name ∧ '/' ∉ name

theorem Leads.fits (ht : t.Proper) (hhere : t.get? here = some .folder)
    (hsteps : ∀ step ∈ steps, '/' ∉ step) (h : t.Leads access links here steps f) : t.Fits f := by
  induction h with
  | arrive => exact hhere
  | stay _ _ ih => exact ih hhere (List.forall_mem_cons.1 hsteps).2
  | up _ ih => exact ih (ht.dropLast hhere) (List.forall_mem_cons.1 hsteps).2
  | enter _ _ hget _ ih => exact ih hget (List.forall_mem_cons.1 hsteps).2
  | file _ hget => exact hget
  | free hname hget =>
      exact ⟨_, _, rfl, hget, hhere, hname, hsteps _ List.mem_cons_self⟩
  | inspect _ _ hget => exact hget
  | follow _ _ _ _ _ ih =>
      -- the steps of the target are cut from a text at its slashes, so they have none either
      refine ih ?_ (List.forall_mem_append.2 ⟨?_, (List.forall_mem_cons.1 hsteps).2⟩)
      · unfold startOf
        split
        · rfl
        · exact hhere
      · exact fun step => not_mem_of_mem_stepsOf

/-- What is found is found for every use if it is not a link. -/
theorem Leads.use (hlink : ∀ loc target, f ≠ .entry loc (.link target))
    (h : t.Leads access links here steps f) : t.Leads .use links here steps f := by
  induction h with
  | arrive => exact .arrive
  | stay hstay _ ih => exact .stay hstay (ih hlink)
  | up _ ih => exact .up (ih hlink)
  | enter hname _ hget _ ih => exact .enter hname (by simp) hget (ih hlink)
  | file hname hget => exact .file hname hget
  | free hname hget => exact .free hname hget
  | inspect => exact absurd rfl (hlink _ _)
  | follow hname _ _ hget _ ih => exact .follow hname (by simp) (by simp) hget (ih hlink)

/-- What a look-up finds in a tree with more files. -/
def seen (t : Tree) : Found → Found
  | .entry loc e => .entry loc e
  | .vacant loc =>
      match t.get? loc with
      | some e => .entry loc e
      | none => .vacant loc

theorem Leads.moreFiles (hmore : t.MoreFiles t') (h : t.Leads access links here steps f) :
    t'.Leads access links here steps (t'.seen f) := by
  induction h with
  | arrive => exact .arrive
  | stay hstay _ ih => exact .stay hstay ih
  | up _ ih => exact .up ih
  | enter hname hwrite hget _ ih => exact .enter hname hwrite (hmore.get?_eq_some hget) ih
  | file hname hget => exact .file hname (hmore.get?_eq_some hget)
  | free hname hget =>
      -- the only place where a new file makes a difference
      rename_i here step
      rw [seen]
      rcases hmore (here ++ [step]) with heq | ⟨_, content, hfile⟩
      · rw [heq, hget]
        exact .free hname (heq.trans hget)
      · rw [hfile]
        exact .file hname hfile
  | inspect hname haccess hget => exact .inspect hname haccess (hmore.get?_eq_some hget)
  | follow hname hwrite hinspect hget _ ih =>
      exact .follow hname hwrite hinspect (hmore.get?_eq_some hget) ih

/-! ## Steps that may be left out or added -/

/-- Some steps without some that stay where they are. -/
inductive Thin : List Text → List Text → Prop
  | nil : Thin [] []
  | keep {step : Text} {rest rest' : List Text} :
      Thin rest rest' → Thin (step :: rest) (step :: rest')
  | drop {step : Text} {rest rest' : List Text} :
      Path.isTrivial step = true → Thin rest rest' → Thin (step :: rest) rest'

theorem Thin.append_left {steps' : List Text} (h : Thin steps steps') (first : List Text) :
    Thin (first ++ steps) (first ++ steps') := by
  induction first with
  | nil => exact h
  | cons step first ih => exact .keep ih

theorem thin_filter (steps : List Text) : Thin steps (steps.filter (!Path.isTrivial ·)) := by
  induction steps with
  | nil => exact .nil
  | cons step rest ih =>
      cases hstep : Path.isTrivial step with
      | true =>
          rw [List.filter_cons_of_neg (by simp [hstep])]
          exact .drop hstep ih
      | false =>
          rw [List.filter_cons_of_pos (by simp [hstep])]
          exact .keep ih

/-- A name is not left out. -/
theorem Thin.cons_of_isName {steps' : List Text} (hname : IsName step)
    (h : Thin (step :: rest) steps') : ∃ rest', steps' = step :: rest' ∧ Thin rest rest' := by
  cases h with
  | keep h => exact ⟨_, rfl, h⟩
  | drop hstep _ =>
      rw [hname.not_trivial] at hstep
      cases hstep

theorem Thin.eq_nil (h : Thin [] steps) : steps = [] := by
  cases h
  rfl

/-- Steps that stay in a folder may be left out. They may not be added: after a file, such a step
leads nowhere. -/
theorem Leads.thin {steps' : List Text} (h : t.Leads .use links here steps f)
    (hthin : Thin steps steps') : t.Leads .use links here steps' f := by
  induction h generalizing steps' with
  | arrive => exact hthin.eq_nil ▸ .arrive
  | stay hstay _ ih =>
      cases hthin with
      | keep hthin => exact .stay hstay (ih hthin)
      | drop _ hthin => exact ih hthin
  | up _ ih =>
      cases hthin with
      | keep hthin => exact .up (ih hthin)
      | drop hstep _ => exact absurd hstep (by decide)
  | enter hname _ hget _ ih =>
      obtain ⟨rest', rfl, hrest⟩ := hthin.cons_of_isName hname
      exact .enter hname (by simp) hget (ih hrest)
  | file hname hget =>
      obtain ⟨rest', rfl, hrest⟩ := hthin.cons_of_isName hname
      obtain rfl := hrest.eq_nil
      exact .file hname hget
  | free hname hget =>
      obtain ⟨rest', rfl, hrest⟩ := hthin.cons_of_isName hname
      obtain rfl := hrest.eq_nil
      exact .free hname hget
  | inspect _ haccess _ => cases haccess
  | follow hname _ _ hget _ ih =>
      obtain ⟨rest', rfl, hrest⟩ := hthin.cons_of_isName hname
      exact .follow hname (by simp) (by simp) hget (ih (hrest.append_left _))

/-- Steps to a folder and steps from there are steps. The steps from there are more than a slash,
which a look-up to write something refuses. -/
theorem Leads.append {more : List Text} (h : t.Leads .use links here steps (.entry loc .folder))
    (hmore : ∀ links, t.Leads access links loc more f) (hnil : more ≠ []) (hslash : more ≠ [[]]) :
    t.Leads access links here (steps ++ more) f := by
  have hinspect : ∀ rest, ¬ (access = .inspect ∧ rest ++ more = []) :=
    fun rest h => hnil (List.append_eq_nil_iff.1 h.2).2
  have hwrite : ∀ rest, ¬ (access = .write ∧ rest ++ more = [[]]) := by
    rintro rest ⟨-, h⟩
    rcases List.append_eq_singleton_iff.1 h with ⟨-, h⟩ | ⟨-, h⟩
    · exact hslash h
    · exact hnil h
  generalize hfound : Found.entry loc .folder = found at h
  induction h with
  | arrive =>
      cases hfound
      exact hmore _
  | stay hstay _ ih => exact .stay hstay (ih hfound)
  | up _ ih => exact .up (ih hfound)
  | enter hname _ hget _ ih => exact .enter hname (hwrite _) hget (ih hfound)
  | file => cases hfound
  | free => cases hfound
  | inspect => cases hfound
  | follow hname _ _ hget _ ih =>
      refine .follow hname (hwrite _) (hinspect _) hget ?_
      have hleads := ih hfound
      rwa [List.append_assoc] at hleads

/-- The names below a folder are steps to what stands there. -/
theorem Proper.leads (ht : t.Proper) {names : List Text}
    (hget : t.get? (here ++ names) = some (.file content)) (links : Nat) (hnames : names ≠ []) :
    t.Leads access links here names (.entry (here ++ names) (.file content)) := by
  induction names generalizing here with
  | nil => exact absurd rfl hnames
  | cons name names ih =>
      have hassoc : here ++ name :: names = here ++ [name] ++ names := by simp
      by_cases hrest : names = []
      · subst hrest
        exact .file (ht.concat hget).1.1 hget
      · rw [hassoc] at hget ⊢
        have hfolder := ht.folder_above hrest hget
        refine .enter (ht.concat hfolder).1.1 ?_ hfolder (ih hget hrest)
        rintro ⟨-, rfl⟩
        cases (ht.concat hget).1.1.not_trivial

end Tree

/-! ## Look-ups from a workspace -/

namespace Workspace

variable {ws ws' : Workspace} {access : Tree.Access} {p q : Path} {loc : Location} {e : Entry}
  {f : Found} {t : Text}

/-- The tree is proper, and relative paths are seen from a folder. -/
structure Proper (ws : Workspace) : Prop where
  tree : ws.tree.Proper
  here : ws.tree.get? ws.here = some .folder

instance (ws : Workspace) : Decidable ws.Proper :=
  decidable_of_iff (ws.tree.Proper ∧ ws.tree.get? ws.here = some .folder)
    ⟨fun h => ⟨h.1, h.2⟩, fun h => ⟨h.1, h.2⟩⟩

theorem locate_eq_ok_iff :
    ws.locate access p = .ok f ↔
      (p.text ≠ [] ∧ Text.byteSize p.text < Tree.pathLimit) ∧
        ws.tree.Leads access Tree.linkLimit (if p.isAbsolute then [] else ws.here)
          (Tree.stepsOf p.text) f := by
  rw [locate, ← Tree.walkLinks_eq_ok_iff]
  by_cases hempty : p.text = []
  · simp [hempty]
  by_cases hlong : Tree.pathLimit ≤ Text.byteSize p.text
  · simp [hempty, hlong, Nat.not_lt.2 hlong]
  · simp [hempty, hlong, Nat.lt_of_not_le hlong]

theorem entry_eq_ok_iff :
    ws.entry access p = .ok (loc, e) ↔ ws.locate access p = .ok (.entry loc e) := by
  rw [entry]
  cases ws.locate access p with
  | error cause => simp [bind, Except.bind]
  | ok f =>
      cases f with
      | entry loc e => simp [bind, Except.bind, pure, Except.pure]
      | vacant loc => simp [bind, Except.bind, throw, throwThe, MonadExceptOf.throw]

theorem pathExists_iff : ws.pathExists p = true ↔ ∃ x, ws.entry .use p = .ok x := by
  rw [pathExists]
  cases ws.entry .use p <;> simp [Except.toBool]

theorem Proper.fits (hws : ws.Proper) (h : ws.locate access p = .ok f) : ws.tree.Fits f := by
  obtain ⟨_, hleads⟩ := locate_eq_ok_iff.1 h
  refine hleads.fits hws.tree ?_ fun step => Tree.not_mem_of_mem_stepsOf
  split
  · rfl
  · exact hws.here

theorem locate_use (hlink : ∀ loc target, f ≠ .entry loc (.link target))
    (h : ws.locate access p = .ok f) : ws.locate .use p = .ok f := by
  obtain ⟨hp, hleads⟩ := locate_eq_ok_iff.1 h
  exact locate_eq_ok_iff.2 ⟨hp, hleads.use hlink⟩

/-- Paths with the same parts that lead somewhere lead to the same. -/
theorem entry_of_same (hsame : p.same q = true) {x y : Location × Entry}
    (hp : ws.entry .use p = .ok x) (hq : ws.entry .use q = .ok y) : x = y := by
  obtain ⟨habsolute, hmoves⟩ := Path.moves_of_same hsame
  obtain ⟨_, hleads⟩ := locate_eq_ok_iff.1 (entry_eq_ok_iff.1 hp)
  obtain ⟨_, hleads'⟩ := locate_eq_ok_iff.1 (entry_eq_ok_iff.1 hq)
  -- without the steps that stay in a folder, both paths take the same way
  have hthin := hleads.thin (Tree.thin_filter _)
  have hthin' := hleads'.thin (Tree.thin_filter _)
  rw [Path.filter_stepsOf, habsolute, hmoves] at hthin
  rw [Path.filter_stepsOf] at hthin'
  have heq := hthin.walkLinks_eq.symm.trans hthin'.walkLinks_eq
  simpa [Prod.ext_iff] using heq

/-! ## More files -/

/-- A workspace has what another one has, and files where there was nothing. -/
structure MoreFiles (ws ws' : Workspace) : Prop where
  here : ws'.here = ws.here
  tree : ws.tree.MoreFiles ws'.tree

theorem MoreFiles.locate (hmore : ws.MoreFiles ws') (h : ws.locate access p = .ok f) :
    ws'.locate access p = .ok (ws'.tree.seen f) := by
  obtain ⟨hp, hleads⟩ := locate_eq_ok_iff.1 h
  rw [← hmore.here] at hleads
  exact locate_eq_ok_iff.2 ⟨hp, hleads.moreFiles hmore.tree⟩

theorem MoreFiles.entry (hmore : ws.MoreFiles ws') (h : ws.entry access p = .ok (loc, e)) :
    ws'.entry access p = .ok (loc, e) :=
  entry_eq_ok_iff.2 (hmore.locate (entry_eq_ok_iff.1 h))

end Workspace

end Unmangle
