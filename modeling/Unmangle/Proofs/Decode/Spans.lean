import Unmangle.Proofs.Decode.Words

set_option autoImplicit false

/-! # A text with its spans replaced

What a compiled mapping makes of a text is told here by the ranges of bytes that its pattern finds
and by the text that was given, without the pieces of the scan: the text between the ranges is
copied, and each range is replaced by the value of the word that stands there, unless the character
before it in the given text is a double quote and the mapping leaves such words alone
(`Mapping.substitute?`).

* `Mapping.scanFrom_cut`: the pieces of a scan are the text, and every hit is a key with a value.
* `Mapping.Cut.substitute`: pieces with this property make of the text what its ranges tell.
* `Decoder.decode_substitutes`: the main statement, for one mapping and for a list of them.
-/

namespace Unmangle

/-! ## Ranges of bytes -/

namespace Text

theorem dropBytes?_append (a b : Text) : dropBytes? (byteSize a) (a ++ b) = some b := by
  induction a with
  | nil => simp [byteSize, dropBytes?]
  | cons c a ih =>
      have hpos := c.utf8Size_pos
      obtain ⟨n, hn⟩ : ∃ n, c.utf8Size + byteSize a = n + 1 :=
        ⟨c.utf8Size + byteSize a - 1, by omega⟩
      have hle : c.utf8Size ≤ n + 1 := by omega
      have hrest : n + 1 - c.utf8Size = byteSize a := by omega
      rw [byteSize, hn, List.cons_append, dropBytes?, if_pos hle, hrest, ih]

theorem takeBytes?_append (a b : Text) : takeBytes? (byteSize a) (a ++ b) = some a := by
  induction a with
  | nil => simp [byteSize, takeBytes?]
  | cons c a ih =>
      have hpos := c.utf8Size_pos
      obtain ⟨n, hn⟩ : ∃ n, c.utf8Size + byteSize a = n + 1 :=
        ⟨c.utf8Size + byteSize a - 1, by omega⟩
      have hle : c.utf8Size ≤ n + 1 := by omega
      have hrest : n + 1 - c.utf8Size = byteSize a := by omega
      rw [byteSize, hn, List.cons_append, takeBytes?, if_pos hle, hrest, ih, Option.map_some]

/-- The part of a text between two of its places. -/
theorem slice?_append (a g b : Text) :
    slice? (a ++ (g ++ b)) (byteSize a) (byteSize (a ++ g)) = some g := by
  have hsize : byteSize (a ++ g) - byteSize a = byteSize g := by
    rw [byteSize_append]
    omega
  rw [slice?, dropBytes?_append, hsize]
  exact takeBytes?_append g b

end Text

/-! ## The reference -/

namespace Mapping

/-- Whether a mapping leaves a range of a text alone: the character before it is a double quote. -/
def leaves (m : Mapping) (t : Text) (span : Nat × Nat) : Bool :=
  m.skipQuoted && ((Text.takeBytes? span.1 t).bind List.getLast?) == some '"'

/-- What stands in the place of a range: the value of its word, or the word itself if the range is
left alone. There is nothing to say of a range whose word has no value. -/
def spanText? (m : Mapping) (t : Text) (span : Nat × Nat) : Option Text :=
  (Text.slice? t span.1 span.2).bind fun word =>
    (m.replacements.get? word).map fun value => if m.leaves t span then word else value

/-- The text from an offset on, with some ranges replaced and everything between them copied. -/
def substituteFrom? (m : Mapping) (t : Text) : Nat → List (Nat × Nat) → Option Text
  | offset, [] => Text.dropBytes? offset t
  | offset, span :: rest =>
      (Text.slice? t offset span.1).bind fun gap =>
        (m.spanText? t span).bind fun changed =>
          (m.substituteFrom? t span.2 rest).map fun later => gap ++ changed ++ later

/-- The text with the ranges replaced that the mapping finds in it. -/
def substitute? (m : Mapping) (t : Text) : Option Text := m.substituteFrom? t 0 (m.spans t)

/-- What is counted for some ranges of a text: each one is left alone or replaced. -/
def spanStats (m : Mapping) (t : Text) (spans : List (Nat × Nat)) : Stats where
  replaced := spans.countP fun span => !m.leaves t span
  skippedQuoted := spans.countP (m.leaves t)

theorem spanStats_cons (m : Mapping) (t : Text) (span : Nat × Nat) (rest : List (Nat × Nat)) :
    m.spanStats t (span :: rest) =
      (if m.leaves t span then ⟨0, 1⟩ else ⟨1, 0⟩) + m.spanStats t rest := by
  rw [spanStats, List.countP_cons, List.countP_cons]
  cases m.leaves t span with
  | true => exact congrArg₂ Stats.mk (Nat.add_comm _ _) (Nat.add_comm _ _)
  | false => exact congrArg₂ Stats.mk (Nat.add_comm _ _) (Nat.add_comm _ _)

theorem spanStats_sum (m : Mapping) (t : Text) (spans : List (Nat × Nat)) :
    (m.spanStats t spans).replaced + (m.spanStats t spans).skippedQuoted = spans.length := by
  induction spans with
  | nil => rfl
  | cons span rest ih =>
      rw [spanStats_cons, List.length_cons, ← ih]
      cases m.leaves t span with
      | true =>
          show 0 + _ + (1 + _) = _
          omega
      | false =>
          show 1 + _ + (0 + _) = _
          omega

/-- The mapping was compiled from some pairs, for some engine. -/
def IsCompiled (m : Mapping) : Prop :=
  ∃ (_ : Pattern.Engine) (category : String) (pairs : Pairs) (skipQuoted : Bool),
    (compile category pairs skipQuoted).result = .ok m

theorem isCompiled_compiled {category : String} {pairs : Pairs} {skipQuoted : Bool}
    (hdepth : (compiled category pairs skipQuoted).pattern.depth ≤ Pattern.depthLimit) :
    (compiled category pairs skipQuoted).IsCompiled := by
  refine ⟨.unbounded, category, pairs, skipQuoted, compile_of_fault? ?_⟩
  exact Pattern.fault?_eq_none_iff.2 ⟨hdepth, Nat.zero_le _⟩

/-! ## The pieces of a scan -/

/-- Pieces of a text, given what stands before them, nearest first: every hit has a value, and
knows the character before it. -/
def Cut (m : Mapping) : Text → List Piece → Prop
  | _, [] => True
  | before, .plain c :: rest => m.Cut (c :: before) rest
  | before, .hit left word :: rest =>
      left = before.head? ∧ (∃ value, m.replacements.get? word = some value) ∧
        m.Cut (word.reverse ++ before) rest

/-- A word that is cut out is a key. -/
theorem Cut.exists_value {m : Mapping} {before word : Text} {pieces : List Piece}
    {left : Option Char} (h : m.Cut before pieces) (hmem : .hit left word ∈ pieces) :
    ∃ value, m.replacements.get? word = some value := by
  induction pieces generalizing before with
  | nil => exact absurd hmem List.not_mem_nil
  | cons piece rest ih =>
      cases piece with
      | plain c => exact ih h (List.mem_of_ne_of_mem (by simp) hmem)
      | hit left' word' =>
          obtain ⟨-, hvalue, hrest⟩ := h
          rcases List.mem_cons.1 hmem with heq | hmem
          · cases heq
            exact hvalue
          · exact ih hrest hmem

/-- What the longest key takes of the rest of a text is one of the keys. -/
theorem take_mem_of_longest? {keys : List Text} {before after : Text} {n : Nat}
    (h : longest? keys before after = some n) : after.take n ∈ keys := by
  obtain ⟨word, hword, rfl⟩ := List.mem_map.1 (List.max?_mem h)
  obtain ⟨hmem, hfits⟩ := List.mem_filter.1 hword
  obtain ⟨rest, rfl, -, -⟩ := (wordFits_iff _ _ _).1 hfits
  rw [List.take_left]
  exact hmem

section Scan

variable {m : Mapping} {keys : List Text}
  (hhit : ∀ before after, m.pattern.hit? before after = longest? keys before after)
  (hvalue : ∀ word ∈ keys, ∃ value, m.replacements.get? word = some value)

include hhit hvalue

/-- The pieces of a scan are the text put together, and every hit has a value: by induction on what
the longest keys leave of the text. -/
theorem scanFrom_cut (before : Text) (touching : Bool) (t : Text) :
    (m.pattern.scanFrom before t 0 touching).flatMap Piece.text = t ∧
      m.Cut before (m.pattern.scanFrom before t 0 touching) := by
  -- an empty hit adds nothing to the text, and its word is a key
  have hempty : ∀ {before t : Text} {touching : Bool} {pieces : List Piece},
      longest? keys before t = some 0 → pieces.flatMap Piece.text = t → m.Cut before pieces →
      (Pattern.emptyHit before.head? touching ++ pieces).flatMap Piece.text = t ∧
        m.Cut before (Pattern.emptyHit before.head? touching ++ pieces) := by
    intro before t touching pieces hzero htext hcut
    cases touching with
    | true => exact ⟨htext, hcut⟩
    | false => exact ⟨htext, rfl, hvalue _ (take_mem_of_longest? hzero), hcut⟩
  -- the ranges of the longest keys are found at the same places, from whatever offset they count
  suffices hfrom : ∀ offset : Nat, (m.pattern.scanFrom before t 0 touching).flatMap Piece.text = t ∧
      m.Cut before (m.pattern.scanFrom before t 0 touching) from hfrom 0
  intro offset
  fun_induction longestSpansFrom keys before offset touching t with
  | case1 before offset touching hsome =>
      obtain ⟨n, hn⟩ := Option.isSome_iff_exists.1 hsome
      have hzero : n = 0 := Nat.le_zero.1 (longest?_le_length hn)
      rw [Pattern.scanFrom_nil, hhit, if_pos hsome, ← List.append_nil (Pattern.emptyHit _ _)]
      exact hempty (hzero ▸ hn) rfl trivial
  | case2 before offset touching hnone =>
      rw [Pattern.scanFrom_nil, hhit, if_neg hnone]
      exact ⟨rfl, trivial⟩
  | case3 before offset touching c rest hnone ih =>
      rw [Pattern.scanFrom_of_none ((hhit _ _).trans hnone)]
      exact ⟨congrArg (c :: ·) ih.1, ih.2⟩
  | case4 before offset touching c rest hzero ih =>
      rw [Pattern.scanFrom_of_zero ((hhit _ _).trans hzero)]
      exact hempty hzero (congrArg (c :: ·) ih.1) ih.2
  | case5 before offset touching c rest n hsucc word stop ih =>
      have hn : n + 1 ≤ rest.length + 1 := longest?_le_length hsucc
      rw [Pattern.scanFrom_of_succ ((hhit _ _).trans hsucc) (Nat.le_of_succ_le_succ hn)]
      refine ⟨?_, rfl, hvalue _ (take_mem_of_longest? hsucc), ih.2⟩
      rw [List.flatMap_cons, ih.1]
      exact congrArg (c :: ·) (List.take_append_drop n rest)

end Scan

/-! ## From pieces to ranges -/

namespace Cut

variable {m : Mapping}

/-- What a hit is replaced by, and what is counted for it, as its range in the text tells. -/
theorem applyPiece_hit {left : Option Char} {word a b : Text}
    (hleft : left = a.getLast?) (hvalue : ∃ value, m.replacements.get? word = some value) :
    let span := (Text.byteSize a, Text.byteSize (a ++ word))
    m.spanText? (a ++ (word ++ b)) span = some (m.applyPiece (.hit left word)).1 ∧
      (m.applyPiece (.hit left word)).2 =
        if m.leaves (a ++ (word ++ b)) span then ⟨0, 1⟩ else ⟨1, 0⟩ := by
  intro span
  obtain ⟨value, hvalue⟩ := hvalue
  have hquoted : m.leaves (a ++ (word ++ b)) span = (m.skipQuoted && left == some '"') := by
    rw [leaves, Text.takeBytes?_append, Option.bind_some, hleft]
  have hslice : Text.slice? (a ++ (word ++ b)) span.1 span.2 = some word :=
    Text.slice?_append a word b
  rw [spanText?, hslice, Option.bind_some, hvalue, Option.map_some, hquoted, applyPiece, hvalue]
  cases m.skipQuoted && left == some '"' with
  | true => exact ⟨rfl, rfl⟩
  | false => exact ⟨rfl, rfl⟩

/-- **Replacing by ranges.** Where the text from `g` on has not been copied yet, replacing the
ranges of the pieces copies `g` and what the pieces become: by induction on the pieces, where a
character outside of all hits goes to what is still to copy, and a hit leaves nothing. -/
theorem substitute {pieces : List Piece} (a g : Text) (h : m.Cut (a ++ g).reverse pieces) :
    m.substituteFrom? (a ++ (g ++ pieces.flatMap Piece.text)) (Text.byteSize a)
        (Piece.spans (Text.byteSize (a ++ g)) pieces) = some (g ++ m.appliedText pieces) := by
  induction pieces generalizing a g with
  | nil =>
      show Text.dropBytes? (Text.byteSize a) (a ++ (g ++ [])) = some (g ++ [])
      exact Text.dropBytes?_append a _
  | cons piece pieces ih =>
      cases piece with
      | plain c =>
          -- the character goes to what is still to copy
          have hcut : m.Cut (a ++ (g ++ [c])).reverse pieces := by
            have hreverse : (a ++ (g ++ [c])).reverse = c :: (a ++ g).reverse := by simp
            rw [hreverse]
            exact h
          have hsize : Text.byteSize (a ++ (g ++ [c])) =
              Text.byteSize (a ++ g) + Text.byteSize [c] := by
            rw [← List.append_assoc, Text.byteSize_append]
          have hstep := ih a (g ++ [c]) hcut
          rw [hsize, List.append_assoc, List.append_assoc] at hstep
          exact hstep
      | hit left word =>
          -- the gap is copied and the range replaced; what follows starts with nothing to copy
          obtain ⟨hleft, hvalue, hcut⟩ := h
          rw [List.head?_reverse] at hleft
          have hgap := Text.slice?_append a g (word ++ pieces.flatMap Piece.text)
          have hpiece := (applyPiece_hit (b := pieces.flatMap Piece.text) hleft hvalue).1
          have hlater := ih (a ++ g ++ word) [] (by simpa using hcut)
          simp only [List.nil_append, List.append_nil, List.append_assoc] at hpiece hlater
          have hsize : Text.byteSize (a ++ g) + Text.byteSize word =
              Text.byteSize (a ++ (g ++ word)) := by
            rw [← Text.byteSize_append, List.append_assoc]
          show m.substituteFrom? (a ++ (g ++ (word ++ pieces.flatMap Piece.text)))
            (Text.byteSize a) ((Text.byteSize (a ++ g), Text.byteSize (a ++ g) +
              Text.byteSize word) :: Piece.spans (Text.byteSize (a ++ g) + Text.byteSize word)
                pieces) = _
          rw [hsize, substituteFrom?, hgap, Option.bind_some, hpiece, Option.bind_some, hlater,
            Option.map_some, List.append_assoc]
          rfl

/-- Every range holds a word with a value, and the counts are those of the ranges. -/
theorem count {pieces : List Piece} (a : Text) (h : m.Cut a.reverse pieces) :
    let t := a ++ pieces.flatMap Piece.text
    let spans := Piece.spans (Text.byteSize a) pieces
    (∀ span ∈ spans, ∃ word value, Text.slice? t span.1 span.2 = some word ∧
        m.replacements.get? word = some value) ∧
      m.appliedStats pieces = m.spanStats t spans := by
  induction pieces generalizing a with
  | nil => exact ⟨List.forall_mem_nil _, rfl⟩
  | cons piece pieces ih =>
      have hmore := ih (a ++ piece.text)
      rw [List.append_assoc, Text.byteSize_append, List.reverse_append] at hmore
      have hsum : m.appliedStats (piece :: pieces) =
          (m.applyPiece piece).2 + m.appliedStats pieces := rfl
      rw [hsum]
      cases piece with
      | plain c =>
          have hstats : (m.applyPiece (.plain c)).2 = .zero := rfl
          rw [hstats, Stats.zero_add]
          exact hmore h
      | hit left word =>
          obtain ⟨hleft, ⟨value, hvalue⟩, hcut⟩ := h
          rw [List.head?_reverse] at hleft
          obtain ⟨hspans, hrest⟩ := hmore hcut
          have hslice := Text.slice?_append a word (pieces.flatMap Piece.text)
          have hstats := (applyPiece_hit (b := pieces.flatMap Piece.text) hleft ⟨value, hvalue⟩).2
          rw [Text.byteSize_append] at hslice hstats
          refine ⟨List.forall_mem_cons.2 ⟨⟨word, value, hslice, hvalue⟩, hspans⟩, ?_⟩
          rw [hstats, hrest]
          exact (spanStats_cons _ _ _ _).symm

end Cut

/-- There is a range for each hit. -/
theorem spans_eq_nil_iff (offset : Nat) (pieces : List Piece) :
    Piece.spans offset pieces = [] ↔ pieces.any (·.isHit) = false := by
  induction pieces generalizing offset with
  | nil => simp [Piece.spans]
  | cons piece pieces ih =>
      cases piece with
      | plain c => exact ih _
      | hit left word => simp [Piece.spans, Piece.isHit]

/-- Pieces without a hit become the text that they are. -/
theorem appliedText_of_no_hit {m : Mapping} {pieces : List Piece}
    (h : pieces.any (·.isHit) = false) : m.appliedText pieces = pieces.flatMap Piece.text := by
  refine List.flatMap_congr fun piece hpiece => ?_
  have hplain := List.any_eq_false.1 h piece hpiece
  cases piece with
  | plain c => rfl
  | hit left word => exact absurd rfl hplain

/-! ## Compiled mappings -/

namespace IsCompiled

variable {m : Mapping}

/-- A compiled mapping takes the longest of its keys at each place. -/
theorem hit?_eq (h : m.IsCompiled) (before after : Text) :
    m.pattern.hit? before after = longest? m.replacements.keys before after := by
  obtain ⟨_, category, pairs, skipQuoted, hcompile⟩ := h
  obtain rfl := eq_compiled hcompile
  exact hit?_compiled category pairs skipQuoted before after

theorem scan_cut (h : m.IsCompiled) (t : Text) :
    (m.scan t).flatMap Piece.text = t ∧ m.Cut [] (m.scan t) := by
  refine scanFrom_cut h.hit?_eq (fun word hword => ?_) [] false t
  exact Dict.mem_keys_iff.1 hword

theorem spans_spec (h : m.IsCompiled) (t : Text) :
    (∀ span ∈ m.spans t, ∃ word value, Text.slice? t span.1 span.2 = some word ∧
        m.replacements.get? word = some value) ∧
      (m.apply t).2 = m.spanStats t (m.spans t) := by
  obtain ⟨htext, hcut⟩ := h.scan_cut t
  have hcount := Cut.count [] hcut
  simp only [List.nil_append, htext] at hcount
  exact hcount

/-- A text that has no match is what its pieces become, too. -/
theorem getD_apply (h : m.IsCompiled) (t : Text) :
    (m.apply t).1.getD t = m.appliedText (m.scan t) := by
  cases hhit : (m.scan t).any (·.isHit) with
  | true => simp [apply, hhit]
  | false => simp [apply, hhit, appliedText_of_no_hit hhit, (h.scan_cut t).1]

/-- The text that a compiled mapping makes of a text is the one with the ranges replaced. -/
theorem substitute?_eq (h : m.IsCompiled) (t : Text) :
    m.substitute? t = some ((m.apply t).1.getD t) := by
  obtain ⟨htext, hcut⟩ := h.scan_cut t
  have hsubstitute := Cut.substitute [] [] hcut
  simp only [List.nil_append, htext] at hsubstitute
  rw [h.getD_apply]
  exact hsubstitute

theorem isSome_apply_iff (m : Mapping) (t : Text) :
    (m.apply t).1.isSome = true ↔ m.spans t ≠ [] := by
  rw [spans, Ne, spans_eq_nil_iff, Bool.not_eq_false]
  cases hhit : (m.scan t).any (·.isHit) with
  | true => simp [apply, hhit]
  | false => simp [apply, hhit]

end IsCompiled

end Mapping

namespace Decoder

/-- The text that the steps of a decoder lead to, from any counts: by induction on the mappings. -/
theorem foldl_substitute {d : Decoder} (h : ∀ m ∈ d, m.IsCompiled) (t : Text) (stats : Stats) :
    d.foldlM (fun text m => m.substitute? text) t =
      some (d.foldl (fun state m => step m state) (t, stats)).1 := by
  induction d generalizing t stats with
  | nil => rfl
  | cons m d ih =>
      obtain ⟨hm, hd⟩ := List.forall_mem_cons.1 h
      have hstep : step m (t, stats) = ((m.apply t).1.getD t, stats + (m.apply t).2) := rfl
      rw [List.foldlM_cons, hm.substitute?_eq, List.foldl_cons, hstep]
      exact ih hd _ _

/-- **Replacing spans.** In every text, each span that a compiled mapping finds holds a key with a
value. What the mapping makes of the text is the text with each span replaced by the value of its
key, or left alone where the character before it in that text is a double quote and such words are
left alone; everything between the spans is copied. Each span counts once, as replaced or as left
alone, and there is a new text exactly when there is a span. A list of compiled mappings makes of a
text what they make of it one after another. -/
theorem decode_substitutes :
    (∀ m : Mapping, m.IsCompiled → ∀ t,
      (∀ span ∈ m.spans t, ∃ word value, Text.slice? t span.1 span.2 = some word ∧
        m.replacements.get? word = some value) ∧
      m.substitute? t = some ((m.apply t).1.getD t) ∧
      (m.apply t).2 = m.spanStats t (m.spans t) ∧
      (m.apply t).2.replaced + (m.apply t).2.skippedQuoted = (m.spans t).length ∧
      ((m.apply t).1.isSome = true ↔ m.spans t ≠ [])) ∧
    ∀ d : Decoder, (∀ m ∈ d, m.IsCompiled) → ∀ t,
      d.foldlM (fun text m => m.substitute? text) t = some (d.decode t).1 := by
  refine ⟨fun m h t => ?_, fun d h t => foldl_substitute h t .zero⟩
  obtain ⟨hspans, hstats⟩ := h.spans_spec t
  refine ⟨hspans, h.substitute?_eq t, hstats, ?_, Mapping.IsCompiled.isSome_apply_iff m t⟩
  rw [hstats]
  exact m.spanStats_sum t _

/-- Two mappings whose keys are not words: the first one leaves a quoted key alone, and the second
one has the empty key and writes at every word boundary. -/
theorem decode_substitutes_twice :
    ∃ m n : Mapping, m.IsCompiled ∧ n.IsCompiled ∧
      m.spans "\"a-b a-b".toList = [(1, 4), (5, 8)] ∧
      m.substitute? "\"a-b a-b".toList = some "\"a-b $1".toList ∧
      (m.apply "\"a-b a-b".toList).2 = ⟨1, 1⟩ ∧
      (Decoder.decode [m, n] "a-b".toList).1 = "$<>1<>".toList := by
  have hm : (Mapping.compiled "fields" (Dict.ofList [("a-b".toList, "$1".toList)])
      true).IsCompiled := Mapping.isCompiled_compiled (by decide)
  have hn : (Mapping.compiled "methods" (Dict.ofList [([], "<>".toList)]) true).IsCompiled :=
    Mapping.isCompiled_compiled (by decide)
  obtain ⟨-, hsubstitute, hstats, -, -⟩ := decode_substitutes.1 _ hm "\"a-b a-b".toList
  have hdecode := decode_substitutes.2 [_, _] (List.forall_mem_cons.2
    ⟨hm, List.forall_mem_singleton.2 hn⟩) "a-b".toList
  refine ⟨_, _, hm, hn, by decide +kernel, ?_, ?_, ?_⟩
  · rw [hsubstitute]
    decide +kernel
  · rw [hstats]
    decide +kernel
  · refine Option.some.inj (hdecode.symm.trans ?_)
    decide +kernel

end Decoder

end Unmangle
