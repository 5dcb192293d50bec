import Unmangle.Decode.Mapping
import Unmangle.Proofs.Trie.Preference

set_option autoImplicit false

/-! # The longest whole word

A mapping finds whole words with a pattern that prefers matches by the order of its alternatives.
This module compares it with a scan that does not know about patterns: at each place it takes the
longest of the keys that stand there between word boundaries, if there is one, and goes on behind
it.

* `longest?` is the length of that key, `Mapping.longestSpans` the ranges of bytes of the scan.
* `Trie.Represents.hit?_eq_longest?`: the preferred match at a place is the longest key.
* `Mapping.compile_spans`: a compiled mapping finds the ranges of that scan.
-/

namespace Unmangle

/-! ## The longest key at a place -/

/-- Whether a word stands at a place and starts and ends at a word boundary. -/
def wordFits (before after word : Text) : Bool :=
  word.isPrefixOf after && isBoundary before.head? after.head? &&
    isBoundary (word.reverse ++ before).head? (after.drop word.length).head?

theorem wordFits_iff (before after word : Text) :
    wordFits before after word = true ↔
      ∃ rest, after = word ++ rest ∧ isBoundary before.head? after.head? = true ∧
        isBoundary (word.reverse ++ before).head? rest.head? = true := by
  rw [wordFits, Bool.and_eq_true, Bool.and_eq_true, List.isPrefixOf_iff_prefix]
  constructor
  · rintro ⟨⟨⟨rest, rfl⟩, hstart⟩, hend⟩
    rw [List.drop_left] at hend
    exact ⟨rest, rfl, hstart, hend⟩
  · rintro ⟨rest, rfl, hstart, hend⟩
    rw [List.drop_left]
    exact ⟨⟨⟨rest, rfl⟩, hstart⟩, hend⟩

/-- The length of the longest of some words that fit at a place. -/
def longest? (keys : List Text) (before after : Text) : Option Nat :=
  ((keys.filter (wordFits before after)).map List.length).max?

theorem longest?_le_length {keys : List Text} {before after : Text} {n : Nat}
    (h : longest? keys before after = some n) : n ≤ after.length := by
  obtain ⟨word, hword, rfl⟩ := List.mem_map.1 (List.max?_mem h)
  obtain ⟨rest, rfl, -, -⟩ := (wordFits_iff _ _ _).1 (List.mem_filter.1 hword).2
  rw [List.length_append]
  omega

/-! ## The preferred match -/

/-- The first place of a list with the longest first has the greatest count. -/
theorem LongestFirst.head?_taken {l : List Place} (h : LongestFirst l) :
    l.head?.map (·.taken) = (l.map (·.taken)).max? := by
  cases l with
  | nil => rfl
  | cons p rest =>
      have hlt := (List.pairwise_cons.1 h).1
      refine Eq.symm (List.max?_eq_some_iff.2 ⟨List.mem_cons_self, fun n hn => ?_⟩)
      rcases List.mem_cons.1 hn with rfl | hn
      · exact Nat.le_refl _
      · obtain ⟨q, hq, rfl⟩ := List.mem_map.1 hn
        exact Nat.le_of_lt (hlt q hq)

/-- The greatest number of a list depends on its members only. -/
theorem max?_eq_of_mem_iff {l m : List Nat} (h : ∀ n, n ∈ l ↔ n ∈ m) : l.max? = m.max? := by
  refine Option.ext fun n => ?_
  rw [List.max?_eq_some_iff, List.max?_eq_some_iff]
  constructor
  · rintro ⟨hmem, hle⟩
    exact ⟨(h n).1 hmem, fun k hk => hle k ((h k).2 hk)⟩
  · rintro ⟨hmem, hle⟩
    exact ⟨(h n).2 hmem, fun k hk => hle k ((h k).1 hk)⟩

theorem flatMap_boundary (l : List Place) :
    l.flatMap Pattern.boundary.ends = l.filter Place.atBoundary := by
  induction l with
  | nil => rfl
  | cons p rest ih =>
      rw [List.flatMap_cons, ih, List.filter_cons, Pattern.ends]
      by_cases hp : p.atBoundary = true
      · rw [if_pos hp, if_pos hp]
        rfl
      · rw [if_neg hp, if_neg hp]
        rfl

/-- The expression of a mapping: the pattern of a trie between word boundaries. -/
def Trie.wordPattern (t : Trie) : Pattern := .seq .boundary (.seq (.group t.body) .boundary)

theorem Trie.parse?_sourceOf (t : Trie) :
    Pattern.parse? (Mapping.sourceOf t) = some t.wordPattern := by
  have hread := (Pattern.ReadsAs.boundary.append t.pattern_readsAs).append Pattern.ReadsAs.boundary
  have hboundary : "\\b".toList = Pattern.written [.boundary] := by decide
  rw [Mapping.sourceOf, hboundary, pattern_eq_written, ← Pattern.written_append,
    ← Pattern.written_append]
  exact hread.parse?

/-- The text of a mapping's pattern is never malformed. -/
theorem Trie.compile_sourceOf [Pattern.Engine] (t : Trie) :
    Pattern.compile (Mapping.sourceOf t) =
      t.wordPattern.fault?.elim (.ok t.wordPattern) .error := by
  rw [Pattern.compile, t.parse?_sourceOf]
  cases hfault : t.wordPattern.fault? <;> simp [hfault]

theorem Trie.ends_wordPattern (t : Trie) (p : Place) :
    t.wordPattern.ends p =
      if p.atBoundary then (t.body.ends p).filter Place.atBoundary else [] := by
  have hends : t.wordPattern.ends p =
      (Pattern.boundary.ends p).flatMap fun q => (t.body.ends q).flatMap Pattern.boundary.ends :=
    rfl
  rw [hends, Pattern.ends]
  by_cases hp : p.atBoundary = true
  · rw [if_pos hp, if_pos hp, ← flatMap_boundary]
    exact List.append_nil _
  · rw [if_neg hp, if_neg hp]
    rfl

/-- **The preferred match is the longest.** At each place the expression of a mapping takes the
longest member that starts and ends at a word boundary; the closing boundary passes over longer
ones that do not. -/
theorem Trie.Represents.hit?_eq_longest? {t : Trie} {s : Finset Text} (h : t.Represents s)
    {keys : List Text} (hkeys : ∀ w, w ∈ keys ↔ t.contains w = true) (before after : Text) :
    t.wordPattern.hit? before after = longest? keys before after := by
  have hsorted : LongestFirst (t.wordPattern.ends (.between before after)) := by
    rw [ends_wordPattern]
    split
    · exact (h.longestFirst_body _).filter _
    · exact List.Pairwise.nil
  rw [Pattern.hit?, hsorted.head?_taken, longest?]
  -- it is left to compare which lengths match and which keys fit, in whatever order
  refine max?_eq_of_mem_iff fun n => ?_
  rw [List.mem_map, List.mem_map, ends_wordPattern]
  constructor
  · rintro ⟨q, hq, rfl⟩
    split at hq
    · rename_i hstart
      obtain ⟨hq, hend⟩ := List.mem_filter.1 hq
      obtain ⟨w, rest, rfl, rfl, hw⟩ := (h.mem_ends_body _ _ _).1 hq
      have hfits : wordFits before (w ++ rest) w = true :=
        (wordFits_iff _ _ _).2 ⟨rest, rfl, hstart, hend⟩
      exact ⟨w, List.mem_filter.2 ⟨(hkeys w).2 hw, hfits⟩, (Nat.zero_add _).symm⟩
    · cases hq
  · rintro ⟨w, hw, rfl⟩
    obtain ⟨hmem, hfits⟩ := List.mem_filter.1 hw
    obtain ⟨rest, rfl, hstart, hend⟩ := (wordFits_iff _ _ _).1 hfits
    have hmatch : .past before 0 w rest ∈ t.body.ends (.between before (w ++ rest)) :=
      (h.mem_ends_body before _ _).2 ⟨w, rest, rfl, rfl, (hkeys w).1 hmem⟩
    have hstart : (Place.between before (w ++ rest)).atBoundary = true := hstart
    have hend : (Place.past before 0 w rest).atBoundary = true := hend
    refine ⟨.past before 0 w rest, ?_, Nat.zero_add w.length⟩
    rw [if_pos hstart]
    exact List.mem_filter.2 ⟨hmatch, hend⟩

/-! ## One step of a scan -/

namespace Pattern

/-- A scan inside a hit goes on at its end. -/
theorem scanFrom_inside (e : Pattern) (before : Text) {n : Nat} {t : Text} (h : n ≤ t.length)
    (touching : Bool) :
    e.scanFrom before t n touching =
      e.scanFrom ((t.take n).reverse ++ before) (t.drop n) 0 touching := by
  induction n generalizing before t with
  | zero => rfl
  | succ n ih =>
      cases t with
      | nil => cases h
      | cons c rest =>
          have hrest : n ≤ rest.length := Nat.le_of_succ_le_succ h
          have hbefore : ((c :: rest).take (n + 1)).reverse ++ before =
              (rest.take n).reverse ++ c :: before := by simp
          rw [scanFrom, ih (c :: before) hrest, hbefore]
          rfl

/-- The piece of an empty hit, unless another hit ends where it stands. -/
def emptyHit (left : Option Char) (touching : Bool) : List Piece :=
  if touching then [] else [.hit left []]

variable {e : Pattern} {before rest : Text} {c : Char}

theorem scanFrom_nil (e : Pattern) (before : Text) (touching : Bool) :
    e.scanFrom before [] 0 touching =
      if (e.hit? before []).isSome then emptyHit before.head? touching else [] := by
  unfold scanFrom
  cases e.hit? before [] with
  | none => rfl
  | some n => rfl

theorem scanFrom_of_none (h : e.hit? before (c :: rest) = none) (touching : Bool) :
    e.scanFrom before (c :: rest) 0 touching =
      .plain c :: e.scanFrom (c :: before) rest 0 false := by
  rw [scanFrom, h]

theorem scanFrom_of_zero (h : e.hit? before (c :: rest) = some 0) (touching : Bool) :
    e.scanFrom before (c :: rest) 0 touching =
      emptyHit before.head? touching ++ .plain c :: e.scanFrom (c :: before) rest 0 false := by
  rw [scanFrom, h]
  rfl

theorem scanFrom_of_succ {n : Nat} (h : e.hit? before (c :: rest) = some (n + 1))
    (hn : n ≤ rest.length) (touching : Bool) :
    e.scanFrom before (c :: rest) 0 touching =
      .hit before.head? (c :: rest.take n) ::
        e.scanFrom ((c :: rest.take n).reverse ++ before) (rest.drop n) 0 true := by
  have hbefore : (c :: rest.take n).reverse ++ before = (rest.take n).reverse ++ c :: before := by
    simp
  rw [scanFrom, h, hbefore, ← scanFrom_inside e (c :: before) hn true]
  rfl

end Pattern

/-! ## The scan -/

namespace Mapping

/-- The keys that a mapping of some pairs replaces: those with a value that is not empty. -/
def keysOf (pairs : Pairs) : List Text :=
  (pairs.entries.filter fun e => !e.2.isEmpty).map (·.1)

theorem mem_keysOf {pairs : Pairs} {key : Text} :
    key ∈ keysOf pairs ↔ ∃ value, pairs.get? key = some value ∧ value ≠ [] := by
  have hkeys : keysOf pairs = (pairs.filter fun _ value => !value.isEmpty).keys := rfl
  simp only [hkeys, Dict.mem_keys_iff, Dict.get?_filter, Option.filter_eq_some_iff,
    Bool.not_eq_true', List.isEmpty_eq_false_iff]

/-- The range of an empty match at an offset, unless another match ends there. -/
def emptySpan (offset : Nat) (touching : Bool) : List (Nat × Nat) :=
  if touching then [] else [(offset, offset)]

/-- The ranges of bytes of the longest keys in the rest of a text, given what stands before it,
nearest first, and where it starts. The flag tells whether a match ends here. -/
def longestSpansFrom (keys : List Text) (before : Text) (offset : Nat) (touching : Bool) :
    Text → List (Nat × Nat)
  | [] => if (longest? keys before []).isSome then emptySpan offset touching else []
  | c :: rest =>
      match longest? keys before (c :: rest) with
      | none => longestSpansFrom keys (c :: before) (offset + c.utf8Size) false rest
      | some 0 =>
          emptySpan offset touching ++
            longestSpansFrom keys (c :: before) (offset + c.utf8Size) false rest
      | some (n + 1) =>
          let word := c :: rest.take n
          let stop := offset + Text.byteSize word
          (offset, stop) :: longestSpansFrom keys (word.reverse ++ before) stop true (rest.drop n)
termination_by t => t.length

def longestSpans (keys : List Text) (t : Text) : List (Nat × Nat) :=
  longestSpansFrom keys [] 0 false t

end Mapping

namespace Mapping

theorem spans_emptyHit (offset : Nat) (left : Option Char) (touching : Bool)
    (pieces : List Piece) :
    Piece.spans offset (Pattern.emptyHit left touching ++ pieces) =
      emptySpan offset touching ++ Piece.spans offset pieces := by
  cases touching with
  | true => rfl
  | false => rfl

/-- The pieces of a scan with the longest keys have the ranges of the longest keys: by induction on
what the longest keys leave of the text. -/
theorem spans_scanFrom {e : Pattern} {keys : List Text}
    (h : ∀ before after, e.hit? before after = longest? keys before after)
    (before : Text) (offset : Nat) (touching : Bool) (t : Text) :
    Piece.spans offset (e.scanFrom before t 0 touching) =
      longestSpansFrom keys before offset touching t := by
  fun_induction longestSpansFrom keys before offset touching t with
  | case1 before offset touching hsome =>
      rw [Pattern.scanFrom_nil, h, if_pos hsome, ← List.append_nil (Pattern.emptyHit _ _),
        spans_emptyHit]
      exact List.append_nil _
  | case2 before offset touching hnone =>
      rw [Pattern.scanFrom_nil, h, if_neg hnone]
      rfl
  | case3 before offset touching c rest hnone ih =>
      rw [Pattern.scanFrom_of_none ((h _ _).trans hnone)]
      exact ih
  | case4 before offset touching c rest hzero ih =>
      rw [Pattern.scanFrom_of_zero ((h _ _).trans hzero), spans_emptyHit, ← ih]
      rfl
  | case5 before offset touching c rest n hsucc word stop ih =>
      have hn : n + 1 ≤ rest.length + 1 := longest?_le_length hsucc
      rw [Pattern.scanFrom_of_succ ((h _ _).trans hsucc) (Nat.le_of_succ_le_succ hn), ← ih]
      rfl

/-- The second range starts behind the first one, and not directly at its end if it is empty. -/
def Apart (a b : Nat × Nat) : Prop := a.2 ≤ b.1 ∧ (b.1 = b.2 → a.2 < b.1)

/-- The ranges of the longest keys start at the offset or later, and not at the offset where a
match ends there and they are empty. -/
theorem longestSpansFrom_bounds (keys : List Text) (before : Text) (offset : Nat)
    (touching : Bool) (t : Text) :
    ∀ span ∈ longestSpansFrom keys before offset touching t,
      offset ≤ span.1 ∧ (touching = true → span.1 = span.2 → offset < span.1) := by
  have hempty : ∀ offset touching, ∀ span ∈ emptySpan offset touching,
      offset ≤ span.1 ∧ (touching = true → span.1 = span.2 → offset < span.1) := by
    intro offset touching span hspan
    cases touching with
    | true => cases hspan
    | false =>
        obtain rfl := List.mem_singleton.1 hspan
        exact ⟨Nat.le_refl _, fun h => absurd h Bool.false_ne_true⟩
  fun_induction longestSpansFrom keys before offset touching t with
  | case1 before offset touching hsome => exact hempty offset touching
  | case2 before offset touching hnone =>
      intro span hspan
      cases hspan
  | case3 before offset touching c rest hnone ih =>
      intro span hspan
      have hsize := c.utf8Size_pos
      have hstart := (ih span hspan).1
      exact ⟨by omega, fun _ _ => by omega⟩
  | case4 before offset touching c rest hzero ih =>
      intro span hspan
      rcases List.mem_append.1 hspan with hspan | hspan
      · exact hempty offset touching span hspan
      · have hsize := c.utf8Size_pos
        have hstart := (ih span hspan).1
        exact ⟨by omega, fun _ _ => by omega⟩
  | case5 before offset touching c rest n hsucc word stop ih =>
      have hsize := c.utf8Size_pos
      have hword : Text.byteSize word = c.utf8Size + Text.byteSize (rest.take n) := rfl
      have hstop : stop = offset + Text.byteSize word := rfl
      intro span hspan
      rcases List.mem_cons.1 hspan with rfl | hspan
      · refine ⟨Nat.le_refl _, fun _ heq => ?_⟩
        have heq : offset = stop := heq
        omega
      · have hstart := (ih span hspan).1
        exact ⟨by omega, fun _ _ => by omega⟩

/-- The ranges of the longest keys do not overlap, and an empty one does not stand directly behind
another one. -/
theorem longestSpansFrom_apart (keys : List Text) (before : Text) (offset : Nat)
    (touching : Bool) (t : Text) :
    (longestSpansFrom keys before offset touching t).Pairwise Apart := by
  fun_induction longestSpansFrom keys before offset touching t with
  | case1 before offset touching hsome =>
      cases touching with
      | true => exact List.Pairwise.nil
      | false => exact List.pairwise_singleton _ _
  | case2 before offset touching hnone => exact List.Pairwise.nil
  | case3 before offset touching c rest hnone ih => exact ih
  | case4 before offset touching c rest hzero ih =>
      cases touching with
      | true => exact ih
      | false =>
          refine List.pairwise_cons.2 ⟨fun span hspan => ?_, ih⟩
          have hsize := c.utf8Size_pos
          have hstart := (longestSpansFrom_bounds _ _ _ _ _ span hspan).1
          exact ⟨by show offset ≤ _; omega, fun _ => by show offset < _; omega⟩
  | case5 before offset touching c rest n hsucc word stop ih =>
      refine List.pairwise_cons.2 ⟨fun span hspan => ?_, ih⟩
      obtain ⟨hstart, hempty⟩ := longestSpansFrom_bounds _ _ _ _ _ span hspan
      exact ⟨hstart, hempty rfl⟩

/-! ## The compiled mapping -/

/-- The mapping of some pairs, if its expression can be used. -/
def compiled (category : String) (pairs : Pairs) (skipQuoted : Bool) : Mapping where
  category := category
  source := sourceOf (Trie.ofList (keysOf pairs))
  pattern := (Trie.ofList (keysOf pairs)).wordPattern
  replacements := pairs.filter fun _ value => !value.isEmpty
  skipQuoted := skipQuoted

theorem compile_result [Pattern.Engine] (category : String) (pairs : Pairs) (skipQuoted : Bool) :
    (compile category pairs skipQuoted).result =
      (compiled category pairs skipQuoted).pattern.fault?.elim
        (.ok (compiled category pairs skipQuoted))
        fun fault => .error (.invalidPattern category fault) := by
  have hpattern := (Trie.ofList (keysOf pairs)).compile_sourceOf
  have hkeys : (pairs.filter fun _ value => !value.isEmpty).keys = keysOf pairs := rfl
  have hsame : (compiled category pairs skipQuoted).pattern =
      (Trie.ofList (keysOf pairs)).wordPattern := rfl
  rw [compile]
  simp only [Traced.result_bind, Traced.result_report, Except.bind, hkeys, hpattern, hsame]
  cases (Trie.ofList (keysOf pairs)).wordPattern.fault? <;> rfl

theorem compile_of_fault? [Pattern.Engine] {category : String} {pairs : Pairs} {skipQuoted : Bool}
    (h : (compiled category pairs skipQuoted).pattern.fault? = none) :
    (compile category pairs skipQuoted).result = .ok (compiled category pairs skipQuoted) := by
  rw [compile_result, h]
  rfl

theorem hit?_compiled (category : String) (pairs : Pairs) (skipQuoted : Bool)
    (before after : Text) :
    (compiled category pairs skipQuoted).pattern.hit? before after =
      longest? (keysOf pairs) before after := by
  have hrep := Trie.Represents.ofList (keysOf pairs)
  refine hrep.hit?_eq_longest? (fun w => ?_) before after
  rw [hrep.contains_iff, List.mem_toFinset]

/-- **Whole words, the longest first.** The text of a mapping's pattern reads as its expression,
and compiling gives the mapping unless that expression nests too deeply or its program is too large.
In every text the mapping finds the ranges of the longest keys with a value that is not empty, and
these do not overlap. -/
theorem compile_spans [Pattern.Engine] (category : String) (pairs : Pairs) (skipQuoted : Bool) :
    ∃ m : Mapping,
      m.source = "\\b".toList ++ (Trie.ofList (keysOf pairs)).pattern ++ "\\b".toList ∧
      Pattern.parse? m.source = some m.pattern ∧
      (compile category pairs skipQuoted).result =
        (if m.pattern.depth ≤ Pattern.depthLimit then
          if Pattern.Engine.programSize m.pattern ≤ Pattern.sizeLimit then .ok m
          else .error (.invalidPattern category .tooLarge)
        else .error (.invalidPattern category .tooDeep)) ∧
      ∀ t, m.spans t = longestSpans (keysOf pairs) t ∧ (m.spans t).Pairwise Apart := by
  refine ⟨compiled category pairs skipQuoted, rfl, Trie.parse?_sourceOf _,
    (compile_result category pairs skipQuoted).trans (Pattern.elim_fault? _ _ _), fun t => ?_⟩
  have hspans : (compiled category pairs skipQuoted).spans t = longestSpans (keysOf pairs) t :=
    spans_scanFrom (hit?_compiled category pairs skipQuoted) [] 0 false t
  rw [hspans]
  exact ⟨rfl, longestSpansFrom_apart _ _ _ _ _⟩

/-- A long key that a word goes on behind gives way to a short one. -/
example : longestSpans ["a".toList, "a-b".toList] "a-b a-bc".toList = [(0, 3), (4, 5)] := by cbv

end Mapping

end Unmangle
