import Mathlib.Algebra.Group.Defs
import Mathlib.Algebra.GroupWithZero.Nat
import Mathlib.Data.List.Forall2
import Unmangle.Decode.Decoder
import Unmangle.Proofs.Decode.Longest
import Unmangle.Proofs.Text.Chunks

set_option autoImplicit false

/-! # Renaming words

Where all keys of a mapping are words, its pattern, its scan and its look at the character before a
match come down to a map on the parts of a text: a run of word characters that is a key becomes its
value, unless it is to be left alone after a double quote, and everything else stays.

A key fits at a place only if it is the whole run that starts there (`wordFits_run_iff`), so the
scan cuts the text as the tokenizer does (`scanFrom_chunks`). The main statement is
`Decoder.decode_renames`.
-/

namespace Unmangle

/-! ## Keys that are words -/

theorem wordFits_run_iff {before run rest w : Text} (hbefore : inWord before.head? = false)
    (hrun : IsWord run) (hrest : inWord rest.head? = false) (hw : IsWord w) :
    wordFits before (run ++ rest) w = true ↔ w = run := by
  rw [wordFits_iff]
  constructor
  · rintro ⟨tail, heq, -, hend⟩
    -- the boundary at its end forbids the word to stop inside the run
    rw [isBoundary_eq, hw.inWord_getLast? before] at hend
    have htail : inWord tail.head? = false := by simpa using hend
    calc w = (w ++ tail).takeWhile isWordChar := (takeWhile_word hw.2 htail).symm
      _ = (run ++ rest).takeWhile isWordChar := by rw [heq]
      _ = run := takeWhile_word hrun.2 hrest
  · rintro rfl
    have hstart := hrun.inWord_head? rest
    have hend := hrun.inWord_getLast? before
    refine ⟨rest, rfl, ?_, ?_⟩
    · rw [isBoundary_eq, hbefore, hstart]
      rfl
    · rw [isBoundary_eq, hend, hrest]
      rfl

/-- No word starts inside a run or at a character that is no word character. -/
theorem not_wordFits {before after w : Text} (hw : IsWord w)
    (h : inWord before.head? = true ∨ inWord after.head? = false) :
    wordFits before after w = false := by
  refine Bool.eq_false_iff.2 fun hfits => ?_
  obtain ⟨rest, rfl, hstart, -⟩ := (wordFits_iff _ _ _).1 hfits
  have hhead := hw.inWord_head? rest
  rcases h with h | h
  · rw [isBoundary_eq, h, hhead] at hstart
    exact absurd hstart (by decide)
  · rw [hhead] at h
    cases h

section Longest

variable {keys : List Text} {before : Text}

theorem longest?_eq_none {after : Text} (hkeys : ∀ w ∈ keys, IsWord w)
    (h : inWord before.head? = true ∨ inWord after.head? = false) :
    longest? keys before after = none := by
  have hfilter : keys.filter (wordFits before after) = [] := by
    refine List.filter_eq_nil_iff.2 fun w hw => ?_
    rw [not_wordFits (hkeys w hw) h]
    exact Bool.false_ne_true
  rw [longest?, hfilter]
  rfl

/-- At the start of a run, the longest key is the run, if that is a key. -/
theorem longest?_run {run rest : Text} (hkeys : ∀ w ∈ keys, IsWord w)
    (hbefore : inWord before.head? = false) (hrun : IsWord run)
    (hrest : inWord rest.head? = false) :
    longest? keys before (run ++ rest) = if run ∈ keys then some run.length else none := by
  have hfits : ∀ w ∈ keys, wordFits before (run ++ rest) w = true ↔ w = run :=
    fun w hw => wordFits_run_iff hbefore hrun hrest (hkeys w hw)
  by_cases hmem : run ∈ keys
  · rw [if_pos hmem, longest?, List.max?_eq_some_iff]
    constructor
    · exact List.mem_map.2 ⟨run, List.mem_filter.2 ⟨hmem, (hfits run hmem).2 rfl⟩, rfl⟩
    · intro n hn
      obtain ⟨w, hw, rfl⟩ := List.mem_map.1 hn
      obtain ⟨hw, hfit⟩ := List.mem_filter.1 hw
      rw [(hfits w hw).1 hfit]
  · rw [if_neg hmem, longest?, List.max?_eq_none_iff, List.map_eq_nil_iff, List.filter_eq_nil_iff]
    intro w hw hfit
    rw [(hfits w hw).1 hfit] at hw
    exact hmem hw

end Longest

/-! ## The scan -/

/-- The pieces that a part of a text is cut into: a key is a hit, other characters stand alone. -/
def piecesOf (keys : List Text) : Chunk → List Piece
  | .other c => [.plain c]
  | .word left run => if keys.contains run then [.hit left run] else run.map .plain

section Scan

variable {e : Pattern} {keys : List Text}
  (hhit : ∀ before after, e.hit? before after = longest? keys before after)
  (hkeys : ∀ w ∈ keys, IsWord w)

include hhit hkeys

/-- A scan goes through the rest of a run without a hit. -/
theorem scanFrom_inside_word {u : Text} (hu : ∀ c ∈ u, isWordChar c = true) (before rest : Text)
    (hbefore : inWord before.head? = true) :
    e.scanFrom before (u ++ rest) 0 false =
      u.map .plain ++ e.scanFrom (u.reverse ++ before) rest 0 false := by
  induction u generalizing before with
  | nil => rfl
  | cons c u ih =>
      have hc : isWordChar c = true := hu c List.mem_cons_self
      have hnone : e.hit? before (c :: (u ++ rest)) = none :=
        (hhit _ _).trans (longest?_eq_none hkeys (Or.inl hbefore))
      have hrest := ih (fun d hd => hu d (List.mem_cons_of_mem _ hd)) (c :: before) hc
      have hreverse : u.reverse ++ c :: before = (c :: u).reverse ++ before := by simp
      rw [List.cons_append, Pattern.scanFrom_of_none hnone, hrest, hreverse]
      rfl

/-- One run: it is a hit if it is a key, and is passed otherwise. -/
theorem scanFrom_word {run rest : Text} (hrun : IsWord run) {before : Text}
    (hbefore : inWord before.head? = false) (hrest : inWord rest.head? = false)
    (touching : Bool) :
    ∃ touching', e.scanFrom before (run ++ rest) 0 touching =
      piecesOf keys (.word before.head? run) ++
        e.scanFrom (run.reverse ++ before) rest 0 touching' := by
  have hlongest := (hhit _ _).trans (longest?_run hkeys hbefore hrun hrest)
  obtain ⟨c, u, rfl⟩ := List.exists_cons_of_ne_nil hrun.1
  have hreverse : u.reverse ++ c :: before = (c :: u).reverse ++ before := by simp
  by_cases hmem : c :: u ∈ keys
  -- the hit is the whole run, and the scan goes on behind it
  · rw [if_pos hmem, List.cons_append] at hlongest
    have hlength : u.length ≤ (u ++ rest).length := by
      rw [List.length_append]
      omega
    have hstep := Pattern.scanFrom_of_succ hlongest hlength touching
    rw [List.take_left, List.drop_left] at hstep
    refine ⟨true, ?_⟩
    rw [piecesOf, if_pos (List.contains_iff_mem.2 hmem)]
    exact hstep
  -- no key fits at the start, and none can start inside the run
  · rw [if_neg hmem, List.cons_append] at hlongest
    have hc : isWordChar c = true := hrun.2 c List.mem_cons_self
    have hinside := scanFrom_inside_word hhit hkeys
      (fun d hd => hrun.2 d (List.mem_cons_of_mem _ hd)) (c :: before) rest hc
    refine ⟨false, ?_⟩
    rw [piecesOf, if_neg (mt List.contains_iff_mem.1 hmem), List.cons_append,
      Pattern.scanFrom_of_none hlongest, hinside, hreverse]
    rfl

/-- The scan cuts a text as the tokenizer does: by induction on the parts of the text, from any
place that is not inside a run. -/
theorem scanFrom_chunks (left : Option Char) (t : Text) :
    ∀ (before : Text) (touching : Bool), before.head? = left →
      (inWord left = false ∨ inWord t.head? = false) →
      e.scanFrom before t 0 touching = (chunksFrom left t).flatMap (piecesOf keys) := by
  fun_induction chunksFrom left t with
  | case1 left =>
      intro before touching hleft hedge
      have hnone : e.hit? before [] = none :=
        (hhit _ _).trans (longest?_eq_none hkeys (Or.inr rfl))
      rw [Pattern.scanFrom_nil, hnone]
      rfl
  | case2 left c rest hc run ih =>
      intro before touching hleft hedge
      have hhead : inWord (c :: rest).head? = true := hc
      have hbefore : inWord before.head? = false := by
        rw [hhead] at hedge
        rw [hleft]
        exact hedge.resolve_right Bool.noConfusion
      have hrun : IsWord run := isWord_takeWhile hc rest
      have hsplit : c :: rest = run ++ rest.dropWhile isWordChar :=
        congrArg (c :: ·) List.takeWhile_append_dropWhile.symm
      have hlast : (run.reverse ++ before).head? = run.getLast? := by
        rw [List.head?_append, List.head?_reverse,
          List.getLast?_eq_some_getLast (List.cons_ne_nil _ _), Option.some_or]
      obtain ⟨touching', hstep⟩ := scanFrom_word hhit hkeys hrun hbefore
        (inWord_dropWhile rest) touching
      rw [hsplit, hstep, ih _ touching' hlast (Or.inr (inWord_dropWhile rest)),
        List.flatMap_cons, hleft]
  | case3 left c rest hc ih =>
      intro before touching hleft hedge
      have hother : inWord (c :: rest).head? = false := Bool.eq_false_iff.2 hc
      have hnone : e.hit? before (c :: rest) = none :=
        (hhit _ _).trans (longest?_eq_none hkeys (Or.inr hother))
      rw [Pattern.scanFrom_of_none hnone, ih (c :: before) false rfl (Or.inl hother)]
      rfl

end Scan

/-! ## What a renaming makes of a text -/

/-- A renaming of words: the words that get a new name, and whether words directly after a double
quote are left alone. -/
structure Renaming where
  value? : Text → Option Text
  skipQuoted : Bool

namespace Renaming

/-- The renaming that some pairs describe; a word with an empty value gets no new name. -/
def ofPairs (pairs : Pairs) (skipQuoted : Bool) : Renaming where
  value? word := (pairs.get? word).filter fun value => !value.isEmpty
  skipQuoted := skipQuoted

/-- Whether a part is a word that has a new name. -/
def names (r : Renaming) : Chunk → Bool
  | .other _ => false
  | .word _ run => (r.value? run).isSome

def quoted (r : Renaming) : Chunk → Bool
  | .other _ => false
  | .word left _ => r.skipQuoted && left == some '"'

def renamed (r : Renaming) : Chunk → Text
  | .other c => [c]
  | .word left run => if r.quoted (.word left run) then run else (r.value? run).getD run

def text (r : Renaming) (t : Text) : Text := (chunks t).flatMap r.renamed

/-- How many words are renamed, and how many with a new name are left alone. -/
def stats (r : Renaming) (t : Text) : Stats where
  replaced := (chunks t).countP fun part => r.names part && !r.quoted part
  skippedQuoted := (chunks t).countP fun part => r.names part && r.quoted part

/-- Some renamings, each with the text that it is applied to: what the one before it made. -/
def stages : List Renaming → Text → List (Renaming × Text)
  | [], _ => []
  | r :: rest, t => (r, t) :: stages rest (r.text t)

/-- The sums of the counts over all stages. -/
def totals (rs : List Renaming) (t : Text) : Stats where
  replaced := ((stages rs t).map fun stage => (stage.1.stats stage.2).replaced).sum
  skippedQuoted := ((stages rs t).map fun stage => (stage.1.stats stage.2).skippedQuoted).sum

theorem totals_cons (r : Renaming) (rs : List Renaming) (t : Text) :
    totals (r :: rs) t = r.stats t + totals rs (r.text t) := rfl

end Renaming

/-! ## Applying a mapping -/

namespace Stats

theorem zero_add (s : Stats) : zero + s = s := by
  show Stats.mk (0 + s.replaced) (0 + s.skippedQuoted) = s
  rw [Nat.zero_add, Nat.zero_add]

theorem add_assoc (a b c : Stats) : a + b + c = a + (b + c) := by
  show Stats.mk (a.replaced + b.replaced + c.replaced)
    (a.skippedQuoted + b.skippedQuoted + c.skippedQuoted) = _
  rw [Nat.add_assoc, Nat.add_assoc]
  rfl

theorem add_comm (a b : Stats) : a + b = b + a := by
  show Stats.mk (a.replaced + b.replaced) (a.skippedQuoted + b.skippedQuoted) = _
  rw [Nat.add_comm a.replaced, Nat.add_comm a.skippedQuoted]
  rfl

instance : Zero Stats := ⟨zero⟩

instance : AddCommMonoid Stats where
  add_assoc := add_assoc
  zero_add := zero_add
  add_zero s := (add_comm s zero).trans (zero_add s)
  add_comm := add_comm
  nsmul := nsmulRec

end Stats

namespace Mapping

/-- The mapping is compiled, for some engine, from pairs whose keys are words, and they describe the
renaming. -/
def Renames (m : Mapping) (r : Renaming) : Prop :=
  ∃ (_ : Pattern.Engine) (category : String) (pairs : Pairs) (skipQuoted : Bool),
    (compile category pairs skipQuoted).result = .ok m ∧
      (∀ key ∈ keysOf pairs, IsWord key) ∧ r = .ofPairs pairs skipQuoted

theorem contains_keysOf (pairs : Pairs) (skipQuoted : Bool) (word : Text) :
    (keysOf pairs).contains word = ((Renaming.ofPairs pairs skipQuoted).value? word).isSome := by
  have hkeys : keysOf pairs = (pairs.filter fun _ value => !value.isEmpty).keys := rfl
  rw [Bool.eq_iff_iff, List.contains_iff_mem, hkeys, Dict.mem_keys_iff, Dict.get?_filter,
    ← Option.isSome_iff_exists]
  rfl

theorem appliedStats_append (m : Mapping) (xs ys : List Piece) :
    m.appliedStats (xs ++ ys) = m.appliedStats xs + m.appliedStats ys := by
  induction xs with
  | nil => exact (Stats.zero_add _).symm
  | cons x xs ih =>
      show (m.applyPiece x).2 + m.appliedStats (xs ++ ys) = _
      rw [ih, ← Stats.add_assoc]
      rfl

/-! ### Characters that stand alone -/

theorem appliedText_plain (m : Mapping) (run : Text) : m.appliedText (run.map .plain) = run := by
  induction run with
  | nil => rfl
  | cons c run ih =>
      have hcons : m.appliedText ((c :: run).map .plain) =
          c :: m.appliedText (run.map .plain) := rfl
      rw [hcons, ih]

theorem appliedStats_plain (m : Mapping) (run : Text) :
    m.appliedStats (run.map .plain) = .zero := by
  induction run with
  | nil => rfl
  | cons c run ih =>
      have hcons : m.appliedStats ((c :: run).map .plain) =
          .zero + m.appliedStats (run.map .plain) := rfl
      rw [hcons, ih]
      rfl

theorem any_isHit_plain (run : Text) : (run.map Piece.plain).any (·.isHit) = false := by
  rw [List.any_map]
  exact List.any_eq_false.2 fun c _ => Bool.false_ne_true

/-! ### One part -/

section Parts

variable {m : Mapping} {r : Renaming} {keys : List Text}
  (hskip : m.skipQuoted = r.skipQuoted) (hget : ∀ w, m.replacements.get? w = r.value? w)
  (hkeys : ∀ w, keys.contains w = (r.value? w).isSome)

include hskip hget in
theorem applyPiece_hit {left : Option Char} {run value : Text} (h : r.value? run = some value) :
    m.applyPiece (.hit left run) =
      if r.quoted (.word left run) then (run, ⟨0, 1⟩) else (value, ⟨1, 0⟩) := by
  rw [applyPiece, hskip, hget, h]
  rfl

include hkeys in
theorem any_isHit_piecesOf (part : Chunk) :
    (piecesOf keys part).any (·.isHit) = r.names part := by
  cases part with
  | other c => rfl
  | word left run =>
      rw [piecesOf, Renaming.names, hkeys]
      cases r.value? run with
      | some value => rfl
      | none => exact any_isHit_plain run

include hskip hget hkeys

theorem appliedText_piecesOf (part : Chunk) :
    m.appliedText (piecesOf keys part) = r.renamed part := by
  cases part with
  | other c => rfl
  | word left run =>
      rw [piecesOf, Renaming.renamed, hkeys]
      cases hvalue : r.value? run with
      | some value =>
          have htext : m.appliedText [.hit left run] = (m.applyPiece (.hit left run)).1 :=
            List.append_nil _
          show m.appliedText [.hit left run] = _
          rw [htext, applyPiece_hit hskip hget hvalue]
          split
          · rfl
          · rfl
      | none =>
          have htext : m.appliedText (run.map .plain) = run := appliedText_plain m run
          exact htext.trans (ite_self run).symm

theorem appliedStats_piecesOf (part : Chunk) :
    m.appliedStats (piecesOf keys part) =
      ⟨if r.names part && !r.quoted part then 1 else 0,
        if r.names part && r.quoted part then 1 else 0⟩ := by
  cases part with
  | other c => rfl
  | word left run =>
      have hnames : r.names (.word left run) = (r.value? run).isSome := rfl
      rw [piecesOf, hnames, hkeys]
      cases hvalue : r.value? run with
      | some value =>
          have hstats : m.appliedStats [.hit left run] = (m.applyPiece (.hit left run)).2 := rfl
          show m.appliedStats [.hit left run] = _
          rw [hstats, applyPiece_hit hskip hget hvalue]
          cases r.quoted (.word left run) with
          | true => rfl
          | false => rfl
      | none => exact appliedStats_plain m run

/-! ### All parts -/

theorem appliedText_parts (parts : List Chunk) :
    m.appliedText (parts.flatMap (piecesOf keys)) = parts.flatMap r.renamed := by
  induction parts with
  | nil => rfl
  | cons part parts ih =>
      have happend : m.appliedText (piecesOf keys part ++ parts.flatMap (piecesOf keys)) =
          m.appliedText (piecesOf keys part) ++ m.appliedText (parts.flatMap (piecesOf keys)) :=
        List.flatMap_append
      rw [List.flatMap_cons, happend, ih, appliedText_piecesOf hskip hget hkeys,
        List.flatMap_cons]

theorem appliedStats_parts (parts : List Chunk) :
    m.appliedStats (parts.flatMap (piecesOf keys)) =
      ⟨parts.countP fun part => r.names part && !r.quoted part,
        parts.countP fun part => r.names part && r.quoted part⟩ := by
  induction parts with
  | nil => rfl
  | cons part parts ih =>
      rw [List.flatMap_cons, appliedStats_append, ih, appliedStats_piecesOf hskip hget hkeys,
        List.countP_cons, List.countP_cons]
      show Stats.mk _ _ = _
      rw [Nat.add_comm, Nat.add_comm (if r.names part && r.quoted part then 1 else 0)]

end Parts

theorem eq_compiled [Pattern.Engine] {category : String} {pairs : Pairs} {skipQuoted : Bool}
    {m : Mapping} (h : (compile category pairs skipQuoted).result = .ok m) :
    m = compiled category pairs skipQuoted := by
  rw [compile_result] at h
  cases hfault : (compiled category pairs skipQuoted).pattern.fault? with
  | none =>
      rw [hfault] at h
      exact (Except.ok.inj h).symm
  | some fault =>
      rw [hfault] at h
      cases h

/-- A mapping with words as its keys renames the words of a text. -/
theorem Renames.apply_eq {m : Mapping} {r : Renaming} (h : m.Renames r) (t : Text) :
    m.apply t = (if (chunks t).any r.names then some (r.text t) else none, r.stats t) := by
  obtain ⟨_, category, pairs, skipQuoted, hcompile, hwords, rfl⟩ := h
  obtain rfl := eq_compiled hcompile
  have hscan : (compiled category pairs skipQuoted).scan t =
      (chunks t).flatMap (piecesOf (keysOf pairs)) :=
    scanFrom_chunks (hit?_compiled category pairs skipQuoted) hwords none t [] false rfl
      (Or.inl rfl)
  have hkeys := contains_keysOf pairs skipQuoted
  have hget : ∀ w, (compiled category pairs skipQuoted).replacements.get? w =
      (Renaming.ofPairs pairs skipQuoted).value? w := fun w => Dict.get?_filter _ _ w
  have hhits : ((chunks t).flatMap (piecesOf (keysOf pairs))).any (·.isHit) =
      (chunks t).any (Renaming.ofPairs pairs skipQuoted).names := by
    rw [List.any_flatMap]
    exact congrArg _ (funext fun part => any_isHit_piecesOf hkeys part)
  rw [apply, hscan, hhits, appliedText_parts rfl hget hkeys, appliedStats_parts rfl hget hkeys]
  rfl

end Mapping

/-- A text without words that have a new name stays as it is. -/
theorem Renaming.text_eq_self {r : Renaming} {t : Text} (h : (chunks t).any r.names = false) :
    r.text t = t := by
  have hparts : ∀ part ∈ chunks t, r.renamed part = part.text := by
    intro part hpart
    have hnames : ¬ r.names part = true := List.any_eq_false.1 h part hpart
    cases part with
    | other c => rfl
    | word left run =>
        have hnone : r.value? run = none := Option.not_isSome_iff_eq_none.1 hnames
        rw [renamed, hnone]
        exact ite_self run
  calc r.text t = (chunks t).flatMap Chunk.text := List.flatMap_congr hparts
    _ = t := (chunks_spec t).1

theorem Mapping.Renames.getD_apply {m : Mapping} {r : Renaming} (h : m.Renames r) (t : Text) :
    (m.apply t).1.getD t = r.text t := by
  rw [h.apply_eq]
  by_cases hnames : (chunks t).any r.names = true
  · rw [if_pos hnames]
    rfl
  · rw [if_neg hnames]
    exact (Renaming.text_eq_self (Bool.eq_false_iff.2 hnames)).symm

/-! ## Decoding -/

namespace Decoder

theorem step_renames {m : Mapping} {r : Renaming} (h : m.Renames r) (t : Text) (stats : Stats) :
    step m (t, stats) = (r.text t, stats + r.stats t) := by
  show ((m.apply t).1.getD t, stats + (m.apply t).2) = _
  rw [h.getD_apply, h.apply_eq]

/-- The steps of a decoder, from any text and counts: by induction on the mappings. -/
theorem foldl_step {d : Decoder} {rs : List Renaming} (h : List.Forall₂ Mapping.Renames d rs)
    (t : Text) (stats : Stats) :
    d.foldl (fun state m => step m state) (t, stats) =
      (rs.foldl (fun text r => r.text text) t, stats + Renaming.totals rs t) := by
  induction h generalizing t stats with
  | nil => rfl
  | @cons m r d rs hm hrest ih =>
      rw [List.foldl_cons, step_renames hm, ih, Renaming.totals_cons, Stats.add_assoc]
      rfl

/-- **Renaming words.** A mapping whose keys are words makes of every text what its renaming makes
of it, counts the words that are renamed and those that are left alone, and gives no new text if no
word has a new name. A list of such mappings applies their renamings one after another, and its
counts are the sums over them. -/
theorem decode_renames :
    (∀ (m : Mapping) (r : Renaming), m.Renames r → ∀ t,
      m.apply t = (if (chunks t).any r.names then some (r.text t) else none, r.stats t) ∧
        (m.apply t).1.getD t = r.text t) ∧
    ∀ (d : Decoder) (rs : List Renaming), List.Forall₂ Mapping.Renames d rs → ∀ t,
      d.decode t = (rs.foldl (fun text r => r.text text) t, Renaming.totals rs t) := by
  refine ⟨fun m r h t => ⟨h.apply_eq t, h.getD_apply t⟩, fun d rs h t => ?_⟩
  have hsteps := foldl_step h t .zero
  rw [Stats.zero_add] at hsteps
  exact hsteps

/-- Two mappings, where the second one renames what the first one made; a quoted word stays. -/
theorem decode_renames_twice :
    ∃ m n : Mapping,
      m.Renames (.ofPairs (Dict.ofList [(['a'], ['b'])]) true) ∧
      n.Renames (.ofPairs (Dict.ofList [(['b'], ['c'])]) true) ∧
      (m.apply "a+b".toList).1.getD [] = "b+b".toList ∧
      Decoder.decode [m, n] "a \"b".toList = ("c \"b".toList, ⟨2, 1⟩) := by
  have hm : (Mapping.compiled "fields" (Dict.ofList [(['a'], ['b'])]) true).Renames
      (.ofPairs (Dict.ofList [(['a'], ['b'])]) true) := by
    exact ⟨.unbounded, "fields", _, true, Mapping.compile_of_fault? (by decide), by decide, rfl⟩
  have hn : (Mapping.compiled "methods" (Dict.ofList [(['b'], ['c'])]) true).Renames
      (.ofPairs (Dict.ofList [(['b'], ['c'])]) true) := by
    exact ⟨.unbounded, "methods", _, true, Mapping.compile_of_fault? (by decide), by decide, rfl⟩
  refine ⟨_, _, hm, hn, ?_, ?_⟩
  · rw [(decode_renames.1 _ _ hm _).1]
    decide +kernel
  · rw [decode_renames.2 _ _ (.cons hm (.cons hn .nil))]
    decide +kernel

end Decoder

end Unmangle
