import Mathlib.Data.List.Basic
import Unmangle.Files.Sibling
import Unmangle.Proofs.Text.Lines

set_option autoImplicit false

/-! # The steps of a path

The parts of a path tell what a look-up does with it, up to steps that stay in a folder: two paths
with the same parts start at the same place and take the same other steps (`Path.filter_stepsOf`,
`Path.isAbsolute_iff`). Joining a name to a path adds one step (`Path.stepsOf_foldl_join`).

A name with one more dot is a name again and one character longer (`dottedName_eq`,
`Path.fileName?_addDot`).
-/

namespace Unmangle

/-! ## Steps and parts -/

namespace Text

theorem length_le_byteSize (t : Text) : t.length ≤ byteSize t := by
  induction t with
  | nil => simp
  | cons c rest ih =>
      have hpos := c.utf8Size_pos
      rw [List.length_cons, byteSize]
      omega

end Text

namespace Tree

theorem namesOf_append (a b : Text) : namesOf (a ++ '/' :: b) = namesOf a ++ namesOf b := by
  rw [namesOf, Text.splitOn_append, List.filter_append]
  rfl

theorem namesOf_of_not_mem {t : Text} (hslash : '/' ∉ t) (ht : t ≠ []) : namesOf t = [t] := by
  rw [namesOf, Text.splitOn_of_not_mem hslash]
  simp [ht]

theorem not_mem_of_mem_stepsOf {t step : Text} (h : step ∈ stepsOf t) : '/' ∉ step := by
  rcases List.mem_append.1 h with h | h
  · exact (Text.of_mem_splitOn (List.mem_filter.1 h).1).1
  · split at h
    · obtain rfl : step = [] := by simpa using h
      simp
    · cases h

end Tree

namespace Path

variable {p q : Path} {name : Text}

/-- The steps of a path that leave a folder, or try to. -/
def moves (p : Path) : List Text := (Tree.namesOf p.text).filter (!isTrivial ·)

theorem filter_splitOn (t : Text) :
    (Text.splitOn '/' t).filter (!isTrivial ·) = (Tree.namesOf t).filter (!isTrivial ·) := by
  rw [Tree.namesOf, List.filter_filter]
  refine List.filter_congr fun step _ => ?_
  cases step <;> simp [isTrivial]

theorem filter_stepsOf (p : Path) : (Tree.stepsOf p.text).filter (!isTrivial ·) = p.moves := by
  rw [Tree.stepsOf, List.filter_append, ← moves]
  split <;> exact List.append_nil _

/-- The cuts of a path that count are those of its whole text. -/
theorem filter_cuts (p : Path) : p.cuts.2.filter (!isTrivial ·) = p.moves := by
  rw [cuts, moves]
  split
  · rename_i rest ht
    rw [ht, filter_splitOn, show '/' :: rest = [] ++ '/' :: rest from rfl, Tree.namesOf_append]
    rfl
  · rename_i ht
    rw [ht]
    rfl
  · rename_i rest ht
    rw [ht, show '.' :: '/' :: rest = ['.'] ++ '/' :: rest from rfl, Tree.namesOf_append,
      List.filter_append, ← filter_splitOn rest]
    rfl
  · exact filter_splitOn _

def Part.step? : Part → Option Text
  | .root => none
  | .here => none
  | .up => some ['.', '.']
  | .name n => some n

theorem step?_partOf (cut : Text) : (partOf cut).step? = some cut := by
  rw [partOf]
  split
  · rename_i hup
    rw [hup]
    rfl
  · rfl

/-- The parts of a path before the steps that it takes. -/
def front (p : Path) : List Part :=
  if p.cuts.1 = ['/'] then [.root] else if p.cuts.1 = ['.'] then [.here] else []

theorem parts_eq (p : Path) : p.parts = p.front ++ p.moves.map partOf := by
  rw [← filter_cuts]
  rfl

/-- The parts of a path tell its steps. -/
theorem filterMap_parts (p : Path) : p.parts.filterMap Part.step? = p.moves := by
  have hfront : p.front.filterMap Part.step? = [] := by
    rw [front]
    split
    · rfl
    · split <;> rfl
  have hcomp : Part.step? ∘ partOf = some := funext step?_partOf
  rw [parts_eq, List.filterMap_append, hfront, List.filterMap_map, hcomp]
  exact List.filterMap_some

theorem root_mem_front_iff {p : Path} : .root ∈ p.front ↔ p.isAbsolute = true := by
  rw [front, cuts, isAbsolute, beq_iff_eq, List.head?_eq_some_iff]
  split <;> simp_all

/-- The parts of a path tell whether it starts at the root. -/
theorem root_mem_parts_iff {p : Path} : .root ∈ p.parts ↔ p.isAbsolute = true := by
  have hmoves : .root ∉ p.moves.map partOf := by
    intro h
    obtain ⟨cut, _, hcut⟩ := List.mem_map.1 h
    have hstep := step?_partOf cut
    rw [hcut] at hstep
    cases hstep
  rw [parts_eq, List.mem_append, root_mem_front_iff]
  exact or_iff_left hmoves

/-- Paths with the same parts start at the same place and take the same steps. -/
theorem moves_of_same (h : p.same q = true) :
    p.isAbsolute = q.isAbsolute ∧ p.moves = q.moves := by
  have hparts : p.parts = q.parts := by simpa [same] using h
  refine ⟨Bool.eq_iff_iff.2 ?_, ?_⟩
  · rw [← root_mem_parts_iff, ← root_mem_parts_iff, hparts]
  · rw [← filterMap_parts, ← filterMap_parts, hparts]

/-! ## Joining names -/

/-- A name joined to a path is all of it or stands after a slash. -/
theorem join_name (hslash : '/' ∉ name) (p : Path) :
    p.text = [] ∧ (p.join ⟨name⟩).text = name ∨
      p.text ≠ [] ∧ ∃ before, (p.text = before ∨ p.text = before ++ ['/']) ∧
        (p.join ⟨name⟩).text = before ++ '/' :: name := by
  have hrelative : isAbsolute ⟨name⟩ = false := by
    refine Bool.eq_false_iff.2 fun habsolute => hslash ?_
    exact List.mem_of_mem_head? (by simpa [isAbsolute] using habsolute)
  rw [join, hrelative, if_neg Bool.false_ne_true]
  by_cases hempty : p.text = []
  · rw [if_pos (.inl hempty), hempty]
    exact .inl ⟨rfl, rfl⟩
  refine .inr ⟨hempty, ?_⟩
  -- a slash is put between the two, unless the path ends in one
  by_cases hlast : p.text.getLast? = some '/'
  · obtain ⟨before, hbefore⟩ := List.getLast?_eq_some_iff.1 hlast
    refine ⟨before, .inr hbefore, ?_⟩
    rw [if_pos (.inr hlast), hbefore]
    simp
  · refine ⟨p.text, .inl rfl, ?_⟩
    rw [if_neg (by simp [hempty, hlast])]

theorem namesOf_join (hslash : '/' ∉ name) (hname : name ≠ []) (p : Path) :
    Tree.namesOf (p.join ⟨name⟩).text = Tree.namesOf p.text ++ [name] := by
  rcases join_name hslash p with ⟨hempty, htext⟩ | ⟨_, before, hbefore, htext⟩
  · rw [htext, hempty, Tree.namesOf_of_not_mem hslash hname]
    rfl
  · rw [htext, Tree.namesOf_append, Tree.namesOf_of_not_mem hslash hname]
    rcases hbefore with hbefore | hbefore
    · rw [hbefore]
    · rw [hbefore, Tree.namesOf_append]
      simp [Tree.namesOf, Text.splitOn]

theorem stepsOf_join (hslash : '/' ∉ name) (hname : name ≠ []) (p : Path) :
    Tree.stepsOf (p.join ⟨name⟩).text = Tree.namesOf p.text ++ [name] := by
  have hlast : (p.join ⟨name⟩).text.getLast? ≠ some '/' := by
    have hend : name.getLast? ≠ some '/' := fun h => hslash (List.mem_of_getLast? h)
    rcases join_name hslash p with ⟨_, htext⟩ | ⟨_, before, _, htext⟩
    · rwa [htext]
    · rwa [htext, List.append_cons, List.getLast?_append_of_ne_nil _ hname]
  rw [Tree.stepsOf, if_neg hlast, List.append_nil, namesOf_join hslash hname]

theorem isAbsolute_join (hslash : '/' ∉ name) (hp : p.text ≠ []) :
    (p.join ⟨name⟩).text ≠ [] ∧ (p.join ⟨name⟩).isAbsolute = p.isAbsolute := by
  rcases join_name hslash p with ⟨hempty, _⟩ | ⟨_, before, hbefore, htext⟩
  · exact absurd hempty hp
  · refine ⟨by simp [htext], ?_⟩
    rw [isAbsolute, isAbsolute, htext]
    rcases hbefore with hbefore | hbefore
    · rw [hbefore] at hp ⊢
      cases before with
      | nil => exact absurd rfl hp
      | cons c before => rfl
    · rw [hbefore]
      cases before <;> rfl

/-- The names along which a path goes on are its last steps. -/
theorem stepsOf_along {names : List Text} (hnames : names ≠ [])
    (hproper : ∀ name ∈ names, '/' ∉ name ∧ name ≠ []) (hp : p.text ≠ []) :
    (p.along names).text ≠ [] ∧ (p.along names).isAbsolute = p.isAbsolute ∧
      Tree.stepsOf (p.along names).text = Tree.namesOf p.text ++ names := by
  induction names generalizing p with
  | nil => exact absurd rfl hnames
  | cons name names ih =>
      obtain ⟨hslash, hname⟩ := hproper name List.mem_cons_self
      obtain ⟨hne, habsolute⟩ := isAbsolute_join hslash hp
      by_cases hrest : names = []
      · subst hrest
        exact ⟨hne, habsolute, stepsOf_join hslash hname p⟩
      · obtain ⟨hne', habsolute', hsteps⟩ :=
          ih hrest (fun name h => hproper name (List.mem_cons_of_mem _ h)) hne
        refine ⟨hne', habsolute'.trans habsolute, hsteps.trans ?_⟩
        rw [namesOf_join hslash hname, List.append_assoc]
        rfl

/-! ## File names -/

theorem moves_join (hslash : '/' ∉ name) (hname : isTrivial name = false) (p : Path) :
    (p.join ⟨name⟩).moves = p.moves ++ [name] := by
  have hne : name ≠ [] := by
    rintro rfl
    cases hname
  rw [moves, namesOf_join hslash hne, List.filter_append, ← moves]
  simp [hname]

/-- The file name is the last step of a path, unless that goes up. -/
theorem fileName?_eq_some_iff :
    p.fileName? = some name ↔ name ≠ ['.', '.'] ∧ ∃ before, p.moves = before ++ [name] := by
  have hlast : p.fileName? = some name ↔ p.parts.getLast? = some (.name name) := by
    rw [fileName?]
    split <;> simp_all
  rw [hlast, List.getLast?_eq_some_iff]
  constructor
  · -- the parts tell the steps, so the last part is the last step
    rintro ⟨before, hparts⟩
    refine ⟨?_, before.filterMap Part.step?, ?_⟩
    · rintro rfl
      have hmem : .name ['.', '.'] ∈ p.front ++ p.moves.map partOf := by
        rw [← parts_eq, hparts]
        simp
      -- two dots are the part that goes up, never a name
      rcases List.mem_append.1 hmem with hmem | hmem
      · rw [front] at hmem
        split at hmem
        · simp at hmem
        · split at hmem <;> simp at hmem
      · obtain ⟨cut, _, hcut⟩ := List.mem_map.1 hmem
        have hstep := step?_partOf cut
        rw [hcut] at hstep
        obtain rfl : ['.', '.'] = cut := by simpa [Part.step?] using hstep
        cases hcut
    · rw [← filterMap_parts, hparts, List.filterMap_append]
      rfl
  · rintro ⟨hup, before, hmoves⟩
    refine ⟨p.front ++ before.map partOf, ?_⟩
    rw [parts_eq, hmoves, List.map_append, List.append_assoc, List.map_singleton, partOf,
      if_neg hup]

/-- A file name is a name. -/
theorem isTrivial_fileName (h : p.fileName? = some name) :
    isTrivial name = false ∧ '/' ∉ name ∧ name.length ≤ p.text.length := by
  obtain ⟨_, before, hmoves⟩ := fileName?_eq_some_iff.1 h
  have hmem : name ∈ p.moves := by
    rw [hmoves]
    simp
  obtain ⟨hmem, htrivial⟩ := List.mem_filter.1 hmem
  have hpiece := Text.of_mem_splitOn (List.mem_filter.1 hmem).1
  exact ⟨by simpa using htrivial, hpiece⟩

theorem fileName?_join (hslash : '/' ∉ name) (hname : isTrivial name = false)
    (hup : name ≠ ['.', '.']) (p : Path) : (p.join ⟨name⟩).fileName? = some name :=
  fileName?_eq_some_iff.2 ⟨hup, p.moves, moves_join hslash hname p⟩

/-- A name is cut at a dot that does not open it. -/
theorem cutName_eq {stem extension : Text} (h : cutName name = (stem, some extension)) :
    stem ≠ [] ∧ name = stem ++ '.' :: extension := by
  rw [cutName] at h
  split at h
  · cases h
  split at h
  · cases h
  rename_i dot rest hdrop
  split at h
  · cases h
  rename_i hstem
  obtain ⟨rfl, rfl⟩ : rest.reverse = stem ∧
      (name.reverse.takeWhile (· != '.')).reverse = extension := by simpa using h
  have hdot : dot = '.' := by
    have := List.head?_dropWhile_not (· != '.') name.reverse
    rw [hdrop] at this
    simpa using this
  refine ⟨by simpa using hstem, ?_⟩
  have hname := List.takeWhile_append_dropWhile (p := (· != '.')) (l := name.reverse)
  rw [hdrop, hdot] at hname
  have := congrArg List.reverse hname
  simpa using this.symm

end Path

/-- The dot is put into a name, not at its start. -/
theorem dottedName_eq {p : Path} {name : Text} (h : p.fileName? = some name) :
    ∃ stem last, stem ≠ [] ∧ name = stem ++ last ∧ dottedName p = stem ++ '.' :: last := by
  rw [dottedName, Path.stem?, Path.extension?, h]
  cases hcut : (Path.cutName name).2 with
  | none =>
      refine ⟨name, [], ?_, (List.append_nil name).symm, ?_⟩
      · rintro rfl
        cases (Path.isTrivial_fileName h).1
      · simp [hcut]
  | some extension =>
      obtain ⟨hstem, hname⟩ := Path.cutName_eq (Prod.ext rfl hcut)
      refine ⟨(Path.cutName name).1, '.' :: extension, hstem, hname, ?_⟩
      simp [hcut]

/-- A name with one more dot is the name of the path with one more dot. -/
theorem Path.fileName?_addDot {p : Path} {name : Text} (h : p.fileName? = some name) :
    p.addDot.fileName? = some (dottedName p) ∧ (dottedName p).length = name.length + 1 := by
  obtain ⟨stem, last, hstem, hname, hdotted⟩ := dottedName_eq h
  obtain ⟨htrivial, hslash, _⟩ := isTrivial_fileName h
  have hlength : (dottedName p).length = name.length + 1 := by
    rw [hdotted, hname, List.length_append, List.length_append, List.length_cons, Nat.add_assoc]
  refine ⟨fileName?_join ?_ ?_ ?_ _, hlength⟩
  · rw [hname] at hslash
    simpa [hdotted] using hslash
  · have hlong : 1 < (dottedName p).length := by
      have := List.length_pos_of_ne_nil hstem
      rw [hlength, hname, List.length_append]
      omega
    refine Bool.eq_false_iff.2 fun htrivial => ?_
    rcases (by simpa [isTrivial] using htrivial : dottedName p = [] ∨ dottedName p = ['.'])
      with hshort | hshort <;> simp [hshort] at hlong
  · intro hup
    -- a name before the dot would be a single dot
    obtain ⟨c, stem, rfl⟩ := List.exists_cons_of_ne_nil hstem
    rw [hdotted] at hup
    cases stem with
    | nil =>
        obtain ⟨rfl, rfl⟩ : c = '.' ∧ last = [] := by simpa using hup
        rw [hname] at htrivial
        cases htrivial
    | cons d stem => simp at hup

end Unmangle
