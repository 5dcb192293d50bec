import Mathlib.Data.List.Basic
import Unmangle.Text.Basic

set_option autoImplicit false

/-! # Pieces and lines of a text

The pieces of a text between the occurrences of a separator are those of the library function
(`Text.splitOn_eq`), so they give the text again when the separators are put back.

The lines of a text are its pieces between line feeds: a piece that a line feed ends loses one
carriage return at its end, and a last piece that is empty is no line (`Text.lines_eq_splitOn`). A
text without carriage returns keeps its lines when one is written before each line feed
(`Text.lines_withReturns`).
-/

namespace Unmangle.Text

/-! ## Pieces of a text -/

section Pieces

variable {sep : Char} {t piece : Text}

/-- The pieces of a text are those of the library function. -/
theorem splitOn_eq (sep : Char) (t : Text) : splitOn sep t = List.splitOn sep t := by
  induction t with
  | nil => exact (List.splitOn_nil sep).symm
  | cons c rest ih =>
      rw [splitOn, List.splitOn_cons_eq_if_modifyHead, ih]
      by_cases hc : c = sep
      · rw [if_pos hc, if_pos (beq_iff_eq.2 hc)]
      · rw [if_neg hc, if_neg (mt beq_iff_eq.1 hc)]
        cases hrest : List.splitOn sep rest with
        | nil => exact absurd hrest (List.splitOn_ne_nil sep rest)
        | cons piece more => rfl

theorem splitOn_append (sep : Char) (a b : Text) :
    splitOn sep (a ++ sep :: b) = splitOn sep a ++ splitOn sep b := by
  rw [splitOn_eq, splitOn_eq, splitOn_eq]
  exact List.splitOn_append_cons_self a b

theorem splitOn_of_not_mem (h : sep ∉ t) : splitOn sep t = [t] := by
  rw [splitOn_eq]
  exact List.splitOn_eq_singleton h

/-- A piece has no separator and is not longer than the text. -/
theorem of_mem_splitOn (h : piece ∈ splitOn sep t) : sep ∉ piece ∧ piece.length ≤ t.length := by
  induction t generalizing piece with
  | nil =>
      obtain rfl : piece = [] := by simpa [splitOn] using h
      simp
  | cons c rest ih =>
      have hlater : ∀ {piece}, piece ∈ splitOn sep rest →
          sep ∉ piece ∧ piece.length ≤ (c :: rest).length :=
        fun h => ⟨(ih h).1, Nat.le_succ_of_le (ih h).2⟩
      rw [splitOn] at h
      split at h
      · rcases List.mem_cons.1 h with rfl | h
        · simp
        · exact hlater h
      rename_i hc
      split at h
      · obtain rfl : piece = [c] := by simpa using h
        simpa using Ne.symm hc
      · rename_i first more hrest
        rcases List.mem_cons.1 h with rfl | h
        · obtain ⟨hsep, hlength⟩ := ih (hrest ▸ List.mem_cons_self)
          exact ⟨by simpa [hsep] using Ne.symm hc, Nat.succ_le_succ hlength⟩
        · exact hlater (hrest ▸ List.mem_cons_of_mem _ h)

theorem intercalate_splitOn (sep : Char) (t : Text) :
    List.intercalate [sep] (splitOn sep t) = t := by
  rw [splitOn_eq]
  exact List.intercalate_splitOn sep

end Pieces

/-! ## Lines of a text -/

/-- A line without one carriage return at its end. -/
def dropReturn (line : Text) : Text :=
  if line.getLast? = some '\r' then line.dropLast else line

theorem dropReturn_cons {c : Char} {line : Text} (h : c ≠ '\r' ∨ line ≠ []) :
    dropReturn (c :: line) = c :: dropReturn line := by
  cases line with
  | nil =>
      have hc : c ≠ '\r' := h.resolve_right (not_not.2 rfl)
      simp [dropReturn, hc]
  | cons d line =>
      by_cases hlast : (d :: line).getLast? = some '\r'
      · simp [dropReturn, hlast]
      · simp [dropReturn, hlast]

/-- A character that ends no line belongs to the first line. -/
theorem lines_cons {c : Char} {rest : Text} (hc : c ≠ '\n')
    (hreturn : c ≠ '\r' ∨ rest.head? ≠ some '\n') :
    lines (c :: rest) = (c :: (lines rest).headD []) :: (lines rest).tail := by
  rw [lines]
  · cases lines rest <;> rfl
  · exact hc
  · rintro more rfl rfl
    simp at hreturn

/-- A line feed ends a line, and takes a carriage return at the end of the line with it. -/
theorem lines_append {line : Text} (h : '\n' ∉ line) (rest : Text) :
    lines (line ++ '\n' :: rest) = dropReturn line :: lines rest := by
  induction line with
  | nil => simp [lines, dropReturn]
  | cons c line ih =>
      obtain ⟨hc, hline⟩ := not_or.1 (mt List.mem_cons.2 h)
      by_cases hreturn : c = '\r' ∧ line = []
      · obtain ⟨rfl, rfl⟩ := hreturn
        simp [lines, dropReturn]
      · have hcons : c ≠ '\r' ∨ line ≠ [] := by tauto
        have hhead : c ≠ '\r' ∨ (line ++ '\n' :: rest).head? ≠ some '\n' := by
          refine hcons.imp_right fun hne => ?_
          obtain ⟨d, more, rfl⟩ := List.exists_cons_of_ne_nil hne
          have hd : '\n' ≠ d := fun heq => hline (heq ▸ List.mem_cons_self)
          simpa using hd.symm
        rw [List.cons_append, lines_cons (Ne.symm hc) hhead, ih hline, dropReturn_cons hcons]
        rfl

/-- A text without line feeds is a line unless it is empty. -/
theorem lines_of_not_mem {t : Text} (h : '\n' ∉ t) (hne : t ≠ []) : lines t = [t] := by
  induction t with
  | nil => exact absurd rfl hne
  | cons c rest ih =>
      obtain ⟨hc, hrest⟩ := not_or.1 (mt List.mem_cons.2 h)
      have hhead : c ≠ '\r' ∨ rest.head? ≠ some '\n' := by
        refine Or.inr fun heq => hrest ?_
        exact List.mem_of_head? heq
      rw [lines_cons (Ne.symm hc) hhead]
      cases rest with
      | nil => simp [lines]
      | cons d rest => rw [ih hrest (List.cons_ne_nil _ _)]; rfl

/-- **Lines.** The lines of a text are its pieces between line feeds. Each piece but the last one is
ended by a line feed and loses one carriage return at its end; the last one stays as it is, and is
no line if it is empty. -/
theorem lines_eq_splitOn (t : Text) :
    ∃ ended last, splitOn '\n' t = ended ++ [last] ∧
      lines t = ended.map dropReturn ++ if last = [] then [] else [last] := by
  have hpieces : ∀ piece ∈ splitOn '\n' t, '\n' ∉ piece := fun piece h => (of_mem_splitOn h).1
  have hne : splitOn '\n' t ≠ [] := by
    rw [splitOn_eq]
    exact List.splitOn_ne_nil _ _
  obtain ⟨ended, last, hsplit⟩ : ∃ ended last, splitOn '\n' t = ended ++ [last] :=
    ⟨_, _, (List.dropLast_append_getLast hne).symm⟩
  refine ⟨ended, last, hsplit, ?_⟩
  have ht := intercalate_splitOn '\n' t
  rw [hsplit] at ht hpieces
  rw [← ht]
  clear hsplit hne ht
  -- by induction on the pieces that a line feed ends
  induction ended with
  | nil =>
      have hlast := hpieces last (by simp)
      by_cases hempty : last = []
      · simp [hempty, lines]
      · simp [hempty, lines_of_not_mem hlast hempty]
  | cons piece ended ih =>
      have hpiece : '\n' ∉ piece := hpieces piece (by simp)
      have hmore := ih fun p hp => hpieces p (List.mem_cons_of_mem _ hp)
      rw [List.cons_append, List.intercalate_cons_of_ne_nil (by simp), List.append_assoc,
        List.singleton_append, lines_append hpiece, hmore]
      rfl

/-- Lines that are put together with line feeds are read back, with a line feed at the end or without
one: no line may have a line feed in it, be empty or lose a carriage return. -/
theorem lines_intercalate {ls : List Text} (hne : ls ≠ [])
    (hls : ∀ l ∈ ls, '\n' ∉ l ∧ l ≠ [] ∧ dropReturn l = l) {ending : Text}
    (hending : ending = [] ∨ ending = ['\n']) :
    lines (List.intercalate ['\n'] ls ++ ending) = ls := by
  induction ls with
  | nil => exact absurd rfl hne
  | cons l ls ih =>
      obtain ⟨hfeed, hsome, hreturn⟩ := hls l List.mem_cons_self
      cases ls with
      | nil =>
          have hsingle : List.intercalate ['\n'] [l] = l := by simp [List.intercalate]
          rw [hsingle]
          rcases hending with rfl | rfl
          · rw [List.append_nil]
            exact lines_of_not_mem hfeed hsome
          · rw [lines_append hfeed, hreturn]
            rfl
      | cons m ls =>
          have hmore := ih (List.cons_ne_nil m ls) fun k hk => hls k (List.mem_cons_of_mem _ hk)
          rw [List.intercalate_cons_of_ne_nil (List.cons_ne_nil m ls), List.append_assoc,
            List.append_assoc, List.singleton_append, lines_append hfeed, hreturn, hmore]

/-- No line has a line feed. -/
theorem not_mem_of_mem_lines {t line : Text} (h : line ∈ lines t) : '\n' ∉ line := by
  obtain ⟨ended, last, hsplit, hlines⟩ := lines_eq_splitOn t
  have hpiece : ∃ piece ∈ splitOn '\n' t, line ⊆ piece := by
    rw [hlines, List.mem_append] at h
    rw [hsplit]
    rcases h with h | h
    · obtain ⟨piece, hpiece, rfl⟩ := List.mem_map.1 h
      refine ⟨piece, List.mem_append_left _ hpiece, ?_⟩
      unfold dropReturn
      split
      · exact List.dropLast_subset piece
      · exact List.Subset.refl piece
    · split at h
      · cases h
      · obtain rfl := List.mem_singleton.1 h
        exact ⟨line, by simp, List.Subset.refl line⟩
  obtain ⟨piece, hpiece, hsub⟩ := hpiece
  exact fun hmem => (of_mem_splitOn hpiece).1 (hsub hmem)

/-- The text with a carriage return before each line feed. -/
def withReturns (t : Text) : Text := t.flatMap fun c => if c = '\n' then ['\r', '\n'] else [c]

/-- A carriage return before each line feed changes no line, if the text had none. -/
theorem lines_withReturns {t : Text} (h : '\r' ∉ t) : lines (withReturns t) = lines t := by
  induction t with
  | nil => rfl
  | cons c rest ih =>
      obtain ⟨hc, hrest⟩ := not_or.1 (mt List.mem_cons.2 h)
      by_cases hfeed : c = '\n'
      · subst hfeed
        have hcons : withReturns ('\n' :: rest) = '\r' :: '\n' :: withReturns rest := rfl
        rw [hcons, lines, lines, ih hrest]
      · have hcons : withReturns (c :: rest) = c :: withReturns rest := by simp [withReturns, hfeed]
        rw [hcons, lines_cons hfeed (Or.inl (Ne.symm hc)), lines_cons hfeed (Or.inl (Ne.symm hc)),
          ih hrest]

end Unmangle.Text
