import Mathlib.Data.List.TakeWhile
import Unmangle.Text.Word

set_option autoImplicit false

/-! # The words of a text

A tokenizer cuts a text into its maximal runs of word characters and the single characters between
them, and notes for each run which character stands before it. It is what the theory of mappings
compares their scans with.

* `chunks` is the list of the parts of a text.
* `chunks_spec` says that put together they are the text, and that each run is maximal.
* `chunksFrom_append` says that the parts go on where no run goes across.
-/

namespace Unmangle

/-! ## Words -/

/-- A text that is not empty and has word characters only. -/
def IsWord (w : Text) : Prop := w ≠ [] ∧ ∀ c ∈ w, isWordChar c = true

instance (w : Text) : Decidable (IsWord w) :=
  decidable_of_iff (w ≠ [] ∧ w.all isWordChar = true) (and_congr Iff.rfl List.all_eq_true)

/-- Whether there is a neighbour that is a word character. -/
def inWord (neighbour : Option Char) : Bool := neighbour.any isWordChar

theorem isBoundary_eq (left right : Option Char) :
    isBoundary left right = (inWord left != inWord right) := rfl

theorem IsWord.inWord_head? {w : Text} (hw : IsWord w) (rest : Text) :
    inWord (w ++ rest).head? = true := by
  obtain ⟨hne, hall⟩ := hw
  cases w with
  | nil => exact absurd rfl hne
  | cons c w => exact hall c List.mem_cons_self

theorem IsWord.inWord_getLast? {w : Text} (hw : IsWord w) (before : Text) :
    inWord (w.reverse ++ before).head? = true := by
  have hreverse : IsWord w.reverse :=
    ⟨mt List.reverse_eq_nil_iff.1 hw.1, fun c hc => hw.2 c (List.mem_reverse.1 hc)⟩
  exact hreverse.inWord_head? before

/-- What follows on a word is found again by taking word characters. -/
theorem takeWhile_word {w rest : Text} (hw : ∀ c ∈ w, isWordChar c = true)
    (hrest : inWord rest.head? = false) : (w ++ rest).takeWhile isWordChar = w := by
  rw [List.takeWhile_append_of_pos hw]
  cases rest with
  | nil => exact List.append_nil w
  | cons c rest =>
      have hc : isWordChar c = false := hrest
      rw [List.takeWhile_cons_of_neg (Bool.eq_false_iff.1 hc), List.append_nil]

/-- A word character starts a word that goes on as long as there are word characters. -/
theorem isWord_takeWhile {c : Char} (hc : isWordChar c = true) (rest : Text) :
    IsWord (c :: rest.takeWhile isWordChar) := by
  refine ⟨List.cons_ne_nil _ _, fun d hd => ?_⟩
  rcases List.mem_cons.1 hd with rfl | hd
  · exact hc
  · exact List.mem_takeWhile_imp hd

theorem inWord_dropWhile (t : Text) : inWord (t.dropWhile isWordChar).head? = false := by
  have hnot := List.head?_dropWhile_not isWordChar t
  cases hhead : (t.dropWhile isWordChar).head? with
  | none => rfl
  | some c =>
      rw [hhead] at hnot
      exact hnot

/-! ## The tokenizer -/

/-- A part of a text. -/
inductive Chunk where
  /-- A character that is no word character. -/
  | other (c : Char)
  /-- A run of word characters, with the character that stands before it in the text. -/
  | word (left : Option Char) (run : Text)
  deriving DecidableEq, Repr

def Chunk.text : Chunk → Text
  | .other c => [c]
  | .word _ run => run

/-- The parts of the rest of a text, given the character that stands before it. -/
def chunksFrom (left : Option Char) : Text → List Chunk
  | [] => []
  | c :: rest =>
      if isWordChar c then
        let run := c :: rest.takeWhile isWordChar
        .word left run :: chunksFrom run.getLast? (rest.dropWhile isWordChar)
      else .other c :: chunksFrom (some c) rest
termination_by t => t.length
decreasing_by
  · exact Nat.lt_succ_of_le (List.length_dropWhile_le _ _)
  · exact Nat.lt_succ_self _

def chunks (t : Text) : List Chunk := chunksFrom none t

theorem chunksFrom_text (left : Option Char) (t : Text) :
    (chunksFrom left t).flatMap Chunk.text = t := by
  fun_induction chunksFrom left t with
  | case1 left => rfl
  | case2 left c rest hc run ih =>
      rw [List.flatMap_cons, ih]
      show c :: (rest.takeWhile isWordChar ++ rest.dropWhile isWordChar) = c :: rest
      rw [List.takeWhile_append_dropWhile]
  | case3 left c rest hc ih =>
      rw [List.flatMap_cons, ih]
      rfl

theorem not_wordChar_of_other (left : Option Char) (t : Text) :
    ∀ c, .other c ∈ chunksFrom left t → isWordChar c = false := by
  fun_induction chunksFrom left t with
  | case1 left =>
      intro d hd
      cases hd
  | case2 left c rest hc run ih =>
      intro d hd
      rcases List.mem_cons.1 hd with hd | hd
      · cases hd
      · exact ih d hd
  | case3 left c rest hc ih =>
      intro d hd
      rcases List.mem_cons.1 hd with hd | hd
      · cases hd
        exact Bool.eq_false_iff.2 hc
      · exact ih d hd

/-- Each run is maximal: the characters next to it are no word characters. By induction on the
text, from any place that is not inside a word. -/
theorem chunksFrom_word (left : Option Char) (t : Text)
    (hedge : inWord left = false ∨ inWord t.head? = false) :
    ∀ pre l run post, chunksFrom left t = pre ++ .word l run :: post →
      l = (pre.flatMap Chunk.text).getLast?.or left ∧ IsWord run ∧ inWord l = false ∧
        inWord (post.flatMap Chunk.text).head? = false := by
  fun_induction chunksFrom left t with
  | case1 left =>
      intro pre l run post h
      exact absurd h.symm (List.append_ne_nil_of_right_ne_nil pre (List.cons_ne_nil _ _))
  | case2 left c rest hc run₀ ih =>
      intro pre l run post h
      have hrest : inWord (rest.dropWhile isWordChar).head? = false := inWord_dropWhile rest
      cases pre with
      | nil =>
          obtain ⟨hword, rfl⟩ := List.cons_eq_cons.1 h
          cases hword
          refine ⟨rfl, isWord_takeWhile hc rest, ?_, ?_⟩
          · have hhead : inWord (c :: rest).head? = true := hc
            rw [hhead] at hedge
            exact hedge.resolve_right Bool.noConfusion
          · rw [chunksFrom_text]
            exact hrest
      | cons chunk pre =>
          obtain ⟨rfl, htail⟩ := List.cons_eq_cons.1 h
          obtain ⟨hl, hspec⟩ := ih (Or.inr hrest) pre l run post htail
          refine ⟨?_, hspec⟩
          have hlast : run₀.getLast? = some (run₀.getLast (List.cons_ne_nil _ _)) :=
            List.getLast?_eq_some_getLast _
          show l = ((run₀ ++ pre.flatMap Chunk.text).getLast?).or left
          rw [hl, List.getLast?_append, Option.or_assoc, hlast, Option.some_or]
  | case3 left c rest hc ih =>
      intro pre l run post h
      have hother : isWordChar c = false := Bool.eq_false_iff.2 hc
      cases pre with
      | nil => cases h
      | cons chunk pre =>
          obtain ⟨rfl, htail⟩ := List.cons_eq_cons.1 h
          obtain ⟨hl, hspec⟩ := ih (Or.inl hother) pre l run post htail
          refine ⟨?_, hspec⟩
          show l = (([c] ++ pre.flatMap Chunk.text).getLast?).or left
          rw [hl, List.getLast?_append, Option.or_assoc]
          rfl

/-- **The tokenizer.** The parts of a text are the text. Single characters are no word characters,
and each run is a word with the character before it and no word character next to it. -/
theorem chunks_spec (t : Text) :
    (chunks t).flatMap Chunk.text = t ∧
      (∀ c, .other c ∈ chunks t → isWordChar c = false) ∧
      ∀ pre left run post, chunks t = pre ++ .word left run :: post →
        left = (pre.flatMap Chunk.text).getLast? ∧ IsWord run ∧ inWord left = false ∧
          inWord (post.flatMap Chunk.text).head? = false := by
  refine ⟨chunksFrom_text none t, not_wordChar_of_other none t, fun pre left run post h => ?_⟩
  obtain ⟨hleft, hspec⟩ := chunksFrom_word none t (Or.inl rfl) pre left run post h
  rw [Option.or_none] at hleft
  exact ⟨hleft, hspec⟩

theorem isWord_of_mem_chunks {t : Text} {left : Option Char} {run : Text}
    (h : .word left run ∈ chunks t) : IsWord run := by
  obtain ⟨pre, post, hsplit⟩ := List.append_of_mem h
  exact ((chunks_spec t).2.2 pre left run post hsplit).2.1

/-! ## Texts put together -/

/-- What stands before a text matters only to a run at its start. -/
theorem chunksFrom_of_not_inWord {t : Text} (h : inWord t.head? = false)
    (left left' : Option Char) : chunksFrom left t = chunksFrom left' t := by
  cases t with
  | nil => rw [chunksFrom, chunksFrom]
  | cons c rest =>
      have hc : ¬ isWordChar c = true := Bool.eq_false_iff.1 h
      rw [chunksFrom, chunksFrom, if_neg hc, if_neg hc]

theorem chunksFrom_word_append {run : Text} (hrun : IsWord run) {rest : Text}
    (hrest : inWord rest.head? = false) (left : Option Char) :
    chunksFrom left (run ++ rest) = .word left run :: chunksFrom none rest := by
  obtain ⟨hne, hall⟩ := hrun
  cases run with
  | nil => exact absurd rfl hne
  | cons c run =>
      have hc : isWordChar c = true := hall c List.mem_cons_self
      have hrun : ∀ d ∈ run, isWordChar d = true := fun d hd => hall d (List.mem_cons_of_mem _ hd)
      have htake : (run ++ rest).takeWhile isWordChar = run := takeWhile_word hrun hrest
      have hdrop : (run ++ rest).dropWhile isWordChar = rest := by
        have hsplit := List.takeWhile_append_dropWhile (p := isWordChar) (l := run ++ rest)
        rw [htake] at hsplit
        exact List.append_cancel_left hsplit
      rw [List.cons_append, chunksFrom, if_pos hc, htake, hdrop]
      exact congrArg _ (chunksFrom_of_not_inWord hrest _ _)

theorem chunksFrom_word_self {run : Text} (hrun : IsWord run) (left : Option Char) :
    chunksFrom left run = [.word left run] := by
  have hend : inWord ([] : Text).head? = false := rfl
  have hself := chunksFrom_word_append hrun hend left
  rw [List.append_nil] at hself
  rw [hself, chunksFrom]

/-- The parts of a text go on where no run goes across. -/
theorem chunksFrom_append {rest : Text} (hrest : inWord rest.head? = false) (left : Option Char)
    (t : Text) : chunksFrom left (t ++ rest) = chunksFrom left t ++ chunksFrom none rest := by
  fun_induction chunksFrom left t with
  | case1 left => exact chunksFrom_of_not_inWord hrest left none
  | case2 left c u hc run ih =>
      have hrun : IsWord run := isWord_takeWhile hc u
      have hsplit : c :: u = run ++ u.dropWhile isWordChar :=
        congrArg (c :: ·) List.takeWhile_append_dropWhile.symm
      have hedge : inWord (u.dropWhile isWordChar ++ rest).head? = false := by
        rw [List.head?_append]
        cases hhead : (u.dropWhile isWordChar).head? with
        | none => exact hrest
        | some d =>
            have hd := inWord_dropWhile u
            rw [hhead] at hd
            exact hd
      rw [hsplit, List.append_assoc, chunksFrom_word_append hrun hedge,
        chunksFrom_of_not_inWord hedge none run.getLast?, ih]
      rfl
  | case3 left c u hc ih =>
      rw [List.cons_append, chunksFrom, if_neg hc, ih]
      rfl

/-! ## Runs -/

def Chunk.run? : Chunk → Option Text
  | .other _ => none
  | .word _ run => some run

/-- The maximal runs of word characters of a text. -/
def runs (t : Text) : List Text := (chunks t).filterMap Chunk.run?

/-- The runs of a text do not depend on what stands before it. -/
theorem filterMap_run?_chunksFrom (left : Option Char) (t : Text) :
    (chunksFrom left t).filterMap Chunk.run? = runs t := by
  rw [runs, chunks]
  cases t with
  | nil => rw [chunksFrom, chunksFrom]
  | cons c rest =>
      rw [chunksFrom, chunksFrom]
      split
      · rfl
      · rfl

end Unmangle
