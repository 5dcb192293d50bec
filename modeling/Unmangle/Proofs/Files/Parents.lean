import Mathlib.Data.List.TakeWhile
import Unmangle.Proofs.Files.Steps

set_option autoImplicit false

/-! # Parents of a path

The parent of a path has the same parts without the last one. So a path has finitely many parents,
and each one has fewer parts than those before it: no path comes twice, whether the first one is
absolute, relative or made of dots.

* `Path.parent?_of_moves`: what the parent is if a step leaves a folder.
* `Path.parts_of_parent?`: a path has one part more than its parent.
* `Path.rises_ancestors`: the ancestors of a path are the path and its parents, up to the end.
* `Path.Rises.pairwise_length`: their numbers of parts descend.
-/

namespace Unmangle

/-! ## Cuts of a path -/

namespace Path

variable {p up : Path} {head name : Text} {body front before : List Text} {folders : List Path}

/-- After a leading single dot comes a slash, if anything. -/
def HeadFits (head : Text) (body : List Text) : Prop :=
  head = [] ∨ head = ['/'] ∨ head = ['.'] ∧ ∀ cut ∈ body.head?, cut = []

theorem HeadFits.of_isPrefix (h : HeadFits head body) (hfront : front <+: body) :
    HeadFits head front := by
  refine h.imp_right (Or.imp_right fun ⟨hhead, hcut⟩ => ⟨hhead, fun cut hmem => hcut cut ?_⟩)
  obtain ⟨last, rfl⟩ := hfront
  cases front with
  | nil => cases hmem
  | cons first front => exact hmem

theorem isPrefix_intercalate (h : front <+: body) :
    ['/'].intercalate front <+: ['/'].intercalate body := by
  induction front generalizing body with
  | nil => exact List.nil_prefix
  | cons first front ih =>
      obtain ⟨last, rfl⟩ := h
      cases front with
      | nil =>
          cases last with
          | nil => exact List.prefix_rfl
          | cons next last =>
              rw [List.singleton_append, List.intercalate_cons_cons, List.intercalate_singleton,
                List.append_assoc]
              exact List.prefix_append _ _
      | cons next front =>
          have hrest := ih ⟨last, rfl⟩
          rw [List.cons_append, List.cons_append, List.intercalate_cons_cons,
            List.intercalate_cons_cons]
          exact (List.prefix_append_right_inj _).2 hrest

/-- The head of a path and its cuts make up the path again. -/
theorem cuts_spec (p : Path) :
    glue p.cuts.1 p.cuts.2 = p ∧ HeadFits p.cuts.1 p.cuts.2 ∧ ∀ cut ∈ p.cuts.2, '/' ∉ cut := by
  obtain ⟨t⟩ := p
  have hslash : ∀ t cut, cut ∈ Text.splitOn '/' t → '/' ∉ cut :=
    fun t cut hcut => (Text.of_mem_splitOn hcut).1
  rw [cuts]
  split
  · rename_i rest ht
    obtain rfl : t = '/' :: rest := ht
    refine ⟨?_, .inr (.inl rfl), hslash rest⟩
    rw [glue, Text.intercalate_splitOn]
    rfl
  · rename_i ht
    obtain rfl : t = ['.'] := ht
    exact ⟨rfl, .inr (.inr ⟨rfl, by simp⟩), fun cut hcut => absurd hcut List.not_mem_nil⟩
  · rename_i rest ht
    obtain rfl : t = '.' :: '/' :: rest := ht
    refine ⟨?_, .inr (.inr ⟨rfl, by simp⟩), List.forall_mem_cons.2 ⟨by simp, hslash rest⟩⟩
    obtain ⟨first, more, hcuts⟩ : ∃ first more, Text.splitOn '/' rest = first :: more := by
      rw [Text.splitOn_eq]
      exact List.exists_cons_of_ne_nil (List.splitOn_ne_nil _ _)
    have hrest := Text.intercalate_splitOn '/' rest
    rw [hcuts] at hrest
    rw [glue, hcuts, List.intercalate_cons_cons, hrest]
    rfl
  · refine ⟨?_, .inl rfl, hslash t⟩
    rw [glue, Text.intercalate_splitOn]
    rfl

theorem filter_splitOn_intercalate (hslash : ∀ cut ∈ body, '/' ∉ cut) :
    (Text.splitOn '/' (['/'].intercalate body)).filter (!isTrivial ·) =
      body.filter (!isTrivial ·) := by
  by_cases hbody : body = []
  · rw [hbody]
    rfl
  · rw [Text.splitOn_eq, List.splitOn_intercalate '/' hslash hbody]

/-- A head adds no step that leaves a folder. -/
theorem moves_glue (hhead : HeadFits head body) (hslash : ∀ cut ∈ body, '/' ∉ cut) :
    (glue head body).moves = body.filter (!isTrivial ·) := by
  rw [← filter_splitOn_intercalate hslash, filter_splitOn, moves, glue]
  rcases hhead with rfl | rfl | ⟨rfl, hcut⟩
  · rfl
  · show (Tree.namesOf ([] ++ '/' :: _)).filter _ = _
    rw [Tree.namesOf_append]
    rfl
  · cases body with
    | nil => rfl
    | cons first body =>
        obtain rfl := hcut first rfl
        cases body with
        | nil => rfl
        | cons next body =>
            rw [List.intercalate_cons_cons]
            show (Tree.namesOf (['.'] ++ '/' :: _)).filter _ =
              (Tree.namesOf ([] ++ '/' :: _)).filter _
            rw [Tree.namesOf_append, Tree.namesOf_append]
            rfl

/-! ## Parents -/

/-- What a path starts with, told by its text. -/
theorem front_eq (p : Path) :
    p.front = if p.text.head? = some '/' then [.root]
      else if p.text = ['.'] ∨ ['.', '/'] <+: p.text then [.here] else [] := by
  obtain ⟨t⟩ := p
  rw [front, cuts]
  split
  · rename_i rest ht
    obtain rfl : t = '/' :: rest := ht
    rfl
  · rename_i ht
    obtain rfl : t = ['.'] := ht
    rfl
  · rename_i rest ht
    obtain rfl : t = '.' :: '/' :: rest := ht
    simp
  · rename_i hroot hhere hdot
    have habsolute : t.head? ≠ some '/' := by
      intro h
      obtain ⟨rest, rfl⟩ := List.head?_eq_some_iff.1 h
      exact hroot rest rfl
    have hstart : ¬ (t = ['.'] ∨ ['.', '/'] <+: t) := by
      rintro (rfl | ⟨rest, rfl⟩)
      · exact hhere rfl
      · exact hdot rest rfl
    rw [if_neg habsolute, if_neg hstart]
    rfl

/-- A path without the cuts from some place on starts in the same way, if the last cut that stays
is a step. -/
theorem front_glue (hfits : HeadFits p.cuts.1 body) (hslash : ∀ cut ∈ body, '/' ∉ cut)
    (hlast : ∀ cut ∈ body.getLast?, isTrivial cut = false)
    (hstart : (glue p.cuts.1 body).text <+: p.text) : (glue p.cuts.1 body).front = p.front := by
  have hfront : p.front =
      if p.cuts.1 = ['/'] then [.root] else if p.cuts.1 = ['.'] then [.here] else [] := rfl
  rcases hfits with hhead | hhead | ⟨hhead, hcut⟩
  · rw [hhead] at hfront hstart ⊢
    -- none of the tests on the text can hold for the shorter text only
    have hnil : p.front = [] := hfront
    rw [hnil, front_eq]
    rw [front_eq] at hnil
    split at hnil
    · cases hnil
    rename_i hroot
    split at hnil
    · cases hnil
    rename_i hhere
    have habsolute : (glue [] body).text.head? ≠ some '/' := by
      intro h
      obtain ⟨rest, htext⟩ := List.head?_eq_some_iff.1 h
      obtain ⟨more, hmore⟩ := hstart
      exact hroot (by rw [← hmore, htext]; rfl)
    have hdot : ¬ ((glue [] body).text = ['.'] ∨ ['.', '/'] <+: (glue [] body).text) := by
      rintro (hdot | hdot)
      · -- a single dot is one cut, and no step
        have hsplit : List.splitOn '/' (['/'].intercalate body) = List.splitOn '/' ['.'] :=
          congrArg (List.splitOn '/') hdot
        have hbody : body ≠ [] := by
          rintro rfl
          cases hdot
        rw [List.splitOn_intercalate '/' hslash hbody, ← Text.splitOn_eq,
          Text.splitOn_of_not_mem (by simp)] at hsplit
        subst hsplit
        cases hlast ['.'] rfl
      · exact hhere (.inr (hdot.trans hstart))
    rw [if_neg habsolute, if_neg hdot]
  · rw [hfront, hhead, front_eq]
    rfl
  · rw [hfront, hhead, front_eq]
    cases body with
    | nil => rfl
    | cons first body =>
        obtain rfl := hcut first rfl
        cases body with
        | nil => rfl
        | cons next body =>
            rw [glue, List.intercalate_cons_cons]
            simp

/-- The parent of a path that takes a step is the path without the last one. -/
theorem parent?_of_moves (hmoves : p.moves = before ++ [name]) :
    ∃ up, p.parent? = some up ∧ up.front = p.front ∧ up.moves = before := by
  obtain ⟨hglue, hhead, hslash⟩ := p.cuts_spec
  -- seen from the end: trivial cuts, the last step, and trivial cuts again before the parent
  have hreverse : p.cuts.2.reverse.filter (!isTrivial ·) = name :: before.reverse := by
    rw [List.filter_reverse, filter_cuts, hmoves, List.reverse_concat]
  obtain ⟨last, rest, hcuts, hlast, hname, hrest⟩ := List.filter_eq_cons_iff.1 hreverse
  have hdrop : p.cuts.2.reverse.dropWhile isTrivial = name :: rest := by
    rw [hcuts, List.dropWhile_append_of_pos (by simpa using hlast)]
    exact List.dropWhile_cons_of_neg (by simpa using hname)
  have hfront : (rest.dropWhile isTrivial).reverse <+: p.cuts.2 := by
    rw [← List.reverse_reverse p.cuts.2, hcuts, List.reverse_prefix]
    exact (List.dropWhile_suffix _).trans ⟨last ++ [name], by simp⟩
  have hfilter : (rest.dropWhile isTrivial).reverse.filter (!isTrivial ·) = before := by
    have htake : (rest.takeWhile isTrivial).filter (!isTrivial ·) = [] := by
      rw [List.filter_eq_nil_iff]
      intro cut hcut
      simpa using List.all_eq_true.1 List.all_takeWhile cut hcut
    have hsplit := congrArg (List.filter (!isTrivial ·)) (List.takeWhile_append_dropWhile
      (p := isTrivial) (l := rest))
    rw [List.filter_append, htake, List.nil_append, hrest] at hsplit
    rw [List.filter_reverse, hsplit, List.reverse_reverse]
  have hstep : ∀ cut ∈ (rest.dropWhile isTrivial).reverse.getLast?, isTrivial cut = false := by
    intro cut hcut
    rw [List.getLast?_reverse] at hcut
    have hnot := List.head?_dropWhile_not isTrivial rest
    rw [Option.mem_def.1 hcut] at hnot
    exact hnot
  have hstart : (glue p.cuts.1 (rest.dropWhile isTrivial).reverse).text <+: p.text := by
    conv_rhs => rw [← hglue]
    exact (List.prefix_append_right_inj _).2 (isPrefix_intercalate hfront)
  have hfits := hhead.of_isPrefix hfront
  have hslash' : ∀ cut ∈ (rest.dropWhile isTrivial).reverse, '/' ∉ cut :=
    fun cut hcut => hslash cut (hfront.subset hcut)
  refine ⟨glue p.cuts.1 (rest.dropWhile isTrivial).reverse, ?_,
    front_glue hfits hslash' hstep hstart, ?_⟩
  · rw [parent?]
    simp only [hdrop]
  · rw [moves_glue hfits hslash', hfilter]

/-- A path has one part more than its parent. -/
theorem parts_of_parent? (h : p.parent? = some up) : ∃ part, p.parts = up.parts ++ [part] := by
  rcases List.eq_nil_or_concat' p.moves with hmoves | ⟨before, name, hmoves⟩
  · -- without a step, only a leading single dot has a parent
    have hdrop : p.cuts.2.reverse.dropWhile isTrivial = [] := by
      rw [List.dropWhile_eq_nil_iff]
      intro cut hcut
      rw [← filter_cuts, List.filter_eq_nil_iff] at hmoves
      simpa using hmoves cut (List.mem_reverse.1 hcut)
    rw [parent?] at h
    simp only [hdrop] at h
    split at h
    · rename_i hhead
      obtain rfl := Option.some.inj h
      refine ⟨.here, ?_⟩
      rw [parts_eq, hmoves, front, hhead]
      rfl
    · cases h
  · obtain ⟨up', hparent, hfront, hup⟩ := parent?_of_moves hmoves
    obtain rfl := Option.some.inj (hparent.symm.trans h)
    refine ⟨partOf name, ?_⟩
    rw [parts_eq, parts_eq, hfront, hmoves, hup, List.map_append, List.append_assoc]
    rfl

/-! ## Parts of a joined path -/

/-- A name that is joined to a path does not change how the path starts. -/
theorem front_join (hslash : '/' ∉ name) (hname : isTrivial name = false) (p : Path) :
    (p.join ⟨name⟩).front = p.front := by
  rw [front_eq, front_eq]
  rcases join_name hslash p with ⟨hempty, htext⟩ | ⟨hne, before, hbefore, htext⟩
  · have hroot : name.head? ≠ some '/' := fun h => hslash (List.mem_of_mem_head? h)
    have hdot : ¬ (name = ['.'] ∨ ['.', '/'] <+: name) := by
      rintro (rfl | ⟨rest, rfl⟩)
      · cases hname
      · simp at hslash
    rw [htext, hempty, if_neg hroot, if_neg hdot]
    simp
  · rw [htext]
    -- how a path starts is told by two characters
    cases before with
    | nil => rcases hbefore with hbefore | hbefore <;> simp_all
    | cons c before =>
        cases before with
        | nil => rcases hbefore with hbefore | hbefore <;> simp [hbefore, @eq_comm _ '.' c]
        | cons d before => rcases hbefore with hbefore | hbefore <;> simp [hbefore]

theorem parts_join (hslash : '/' ∉ name) (hname : isTrivial name = false) (p : Path) :
    (p.join ⟨name⟩).parts = p.parts ++ [partOf name] := by
  rw [parts_eq, parts_eq, front_join hslash hname, moves_join hslash hname, List.map_append,
    List.append_assoc]
  rfl

/-! ## Ancestors -/

/-- A path and its parents, one after another, up to one that has none. -/
inductive Rises : Path → List Path → Prop
  | last {p : Path} : p.parent? = none → Rises p [p]
  | next {p up : Path} {above : List Path} :
      p.parent? = some up → Rises up above → Rises p (p :: above)

theorem rises_go {fuel : Nat} (h : p.parts.length ≤ fuel) : Rises p (ancestors.go fuel p) := by
  induction fuel generalizing p with
  | zero =>
      refine .last ?_
      cases hparent : p.parent? with
      | none => rfl
      | some up =>
          obtain ⟨part, hparts⟩ := parts_of_parent? hparent
          rw [hparts, List.length_append, List.length_singleton] at h
          omega
  | succ fuel ih =>
      rw [ancestors.go]
      cases hparent : p.parent? with
      | none => exact .last hparent
      | some up =>
          obtain ⟨part, hparts⟩ := parts_of_parent? hparent
          rw [hparts, List.length_append, List.length_singleton] at h
          exact .next hparent (ih (by omega))

/-- The ancestors of a path are the path and its parents, up to the end. -/
theorem rises_ancestors (p : Path) : Rises p p.ancestors := by
  refine rises_go ?_
  have hfront : p.front.length ≤ 1 := by
    rw [front_eq]
    split
    · simp
    · split <;> simp
  have hmoves : p.moves.length ≤ p.cuts.2.length := by
    rw [← filter_cuts]
    exact List.length_filter_le _ _
  rw [parts_eq, List.length_append, List.length_map]
  omega

/-- Every path has fewer parts than those before it. -/
theorem Rises.pairwise_length (h : Rises p folders) :
    folders.Pairwise fun a b => b.parts.length < a.parts.length := by
  have hle : ∀ {p folders}, Rises p folders → ∀ a ∈ folders, a.parts.length ≤ p.parts.length := by
    intro p folders h
    induction h with
    | last => simp
    | next hparent _ ih =>
        obtain ⟨part, hparts⟩ := parts_of_parent? hparent
        refine List.forall_mem_cons.2 ⟨Nat.le_refl _, fun a ha => ?_⟩
        have := ih a ha
        rw [hparts, List.length_append, List.length_singleton]
        omega
  induction h with
  | last => exact List.pairwise_singleton _ _
  | next hparent hrest ih =>
      obtain ⟨part, hparts⟩ := parts_of_parent? hparent
      refine List.pairwise_cons.2 ⟨fun a ha => ?_, ih⟩
      have := hle hrest a ha
      rw [hparts, List.length_append, List.length_singleton]
      omega

end Path

end Unmangle
