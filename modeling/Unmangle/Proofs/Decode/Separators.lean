import Mathlib.Algebra.Group.Basic
import Unmangle.Proofs.Decode.Spans
import Unmangle.Proofs.Table.Lines

set_option autoImplicit false

/-! # Decoding part by part

A character that is no word character and stands in no key of a mapping separates a text: what a
match may be on one side of it does not depend on the other side. No match goes across it, a word
boundary next to it is one at an end of the text, and after it a mapping sees no double quote. So
the two sides can be decoded on their own (`Decoder.decode_append_cons`), which holds for a list of
mappings even where values bring in more of these characters.

A line feed is such a character for the mappings of tables, since a key is a field of a line
(`Mapping.IsOfTable.not_mem_of_mem_keys`). The main statement is `Decoder.decode_separates`.
-/

namespace Unmangle

/-! ## What a separator means to a word -/

section Fits

variable {c : Char} {keys : List Text}

/-- A separator is to a word what an end of the text is. -/
theorem inWord_append_cons (hc : isWordChar c = false) (u v : Text) :
    inWord (u ++ c :: v).head? = inWord u.head? := by
  cases u with
  | nil => exact hc
  | cons d u => rfl

theorem wordFits_append_cons (hc : isWordChar c = false) {word : Text} (hword : c ∉ word)
    (before u v : Text) : wordFits before (u ++ c :: v) word = wordFits before u word := by
  rw [Bool.eq_iff_iff, wordFits_iff, wordFits_iff, isBoundary_eq, isBoundary_eq,
    inWord_append_cons hc]
  constructor
  · rintro ⟨rest, heq, hstart, hend⟩
    -- the word stops before the separator, which it does not have
    obtain ⟨middle, rfl, hrest⟩ : ∃ middle, u = word ++ middle ∧ rest = middle ++ c :: v := by
      rcases List.append_eq_append_iff.1 heq with ⟨more, hmore, hcons⟩ | ⟨middle, hu, hrest⟩
      · cases more with
        | nil => exact ⟨[], by simpa using hmore.symm, by simpa using hcons.symm⟩
        | cons d more =>
            obtain ⟨rfl, -⟩ := List.cons_eq_cons.1 hcons
            exact absurd (hmore ▸ by simp) hword
      · exact ⟨middle, hu, hrest⟩
    rw [hrest, isBoundary_eq, inWord_append_cons hc] at hend
    exact ⟨middle, rfl, hstart, hend⟩
  · rintro ⟨rest, rfl, hstart, hend⟩
    refine ⟨rest ++ c :: v, List.append_assoc word rest (c :: v), hstart, ?_⟩
    rw [isBoundary_eq, inWord_append_cons hc]
    exact hend

theorem wordFits_congr {a b : Text} (h : inWord a.head? = inWord b.head?) (after word : Text) :
    wordFits a after word = wordFits b after word := by
  have hlast : inWord (word.reverse ++ a).head? = inWord (word.reverse ++ b).head? := by
    cases word.reverse with
    | nil => exact h
    | cons d rest => rfl
  rw [wordFits, wordFits, isBoundary_eq, isBoundary_eq, isBoundary_eq, isBoundary_eq, h, hlast]

/-- The longest key before a separator does not depend on what follows it. -/
theorem longest?_append_cons (hc : isWordChar c = false) (hkeys : ∀ key ∈ keys, c ∉ key)
    (before u v : Text) : longest? keys before (u ++ c :: v) = longest? keys before u := by
  have hfits : keys.filter (wordFits before (u ++ c :: v)) = keys.filter (wordFits before u) :=
    List.filter_congr fun key hkey => wordFits_append_cons hc (hkeys key hkey) before u v
  rw [longest?, longest?, hfits]

/-- The longest key at a place depends on what stands before it only by whether that is a word
character. -/
theorem longest?_congr {a b : Text} (h : inWord a.head? = inWord b.head?) (after : Text) :
    longest? keys a after = longest? keys b after := by
  have hfits : keys.filter (wordFits a after) = keys.filter (wordFits b after) :=
    List.filter_congr fun key _ => wordFits_congr h after key
  rw [longest?, longest?, hfits]

end Fits

/-! ## The scan on both sides of a separator -/

section Scan

variable {m : Mapping} {c : Char} {keys : List Text}
  (hhit : ∀ before after, m.pattern.hit? before after = longest? keys before after)

include hhit

/-- A scan looks back at one character only. -/
theorem scanFrom_congr {a b : Text} (h : a.head? = b.head?) (t : Text) (inside : Nat)
    (touching : Bool) :
    m.pattern.scanFrom a t inside touching = m.pattern.scanFrom b t inside touching := by
  have heq : ∀ {a b : Text} (after : Text), a.head? = b.head? →
      m.pattern.hit? a after = m.pattern.hit? b after := by
    intro a b after h
    rw [hhit, hhit, longest?_congr (congrArg inWord h)]
  induction t generalizing a b inside touching with
  | nil =>
      unfold Pattern.scanFrom
      rw [heq [] h, h]
  | cons d rest ih =>
      have hrest : ∀ inside touching, m.pattern.scanFrom (d :: a) rest inside touching =
          m.pattern.scanFrom (d :: b) rest inside touching :=
        fun inside touching => ih (a := d :: a) (b := d :: b) rfl inside touching
      cases inside with
      | zero => simp only [Pattern.scanFrom, heq (d :: rest) h, h, hrest]
      | succ inside => exact hrest inside touching

/-- The scan before a separator is that of the text which ends there: by induction on this text,
from any place inside or outside of a hit that ends in it. -/
theorem scanFrom_append_cons (hc : isWordChar c = false) (hkeys : ∀ key ∈ keys, c ∉ key)
    (u v before : Text) {inside : Nat} (hinside : inside ≤ u.length) (touching : Bool) :
    m.pattern.scanFrom before (u ++ c :: v) inside touching =
      m.pattern.scanFrom before u inside touching ++
        .plain c :: m.pattern.scanFrom (c :: (u.reverse ++ before)) v 0 false := by
  induction u generalizing before inside touching with
  | nil =>
      obtain rfl := Nat.le_zero.1 hinside
      have hlongest := longest?_append_cons hc hkeys before [] v
      rw [← hhit, ← hhit, List.nil_append] at hlongest
      have hnil := Pattern.scanFrom_nil m.pattern before touching
      cases hfound : m.pattern.hit? before [] with
      | none =>
          rw [hfound] at hlongest hnil
          rw [List.nil_append, Pattern.scanFrom_of_none hlongest, hnil]
          rfl
      | some n =>
          -- at an end, only the empty key can fit
          have hzero : n = 0 := Nat.le_zero.1 (longest?_le_length ((hhit _ _).symm.trans hfound))
          rw [hfound, hzero] at hlongest
          rw [hfound] at hnil
          rw [List.nil_append, Pattern.scanFrom_of_zero hlongest, hnil]
          rfl
  | cons d u ih =>
      have hreverse : (d :: u).reverse ++ before = u.reverse ++ d :: before := by simp
      rw [List.cons_append, hreverse]
      cases inside with
      | succ inside => exact ih (d :: before) (Nat.le_of_succ_le_succ hinside) touching
      | zero =>
          have hlongest := longest?_append_cons hc hkeys before (d :: u) v
          rw [← hhit, ← hhit, List.cons_append] at hlongest
          cases hfound : m.pattern.hit? before (d :: u) with
          | none =>
              rw [hfound] at hlongest
              rw [Pattern.scanFrom_of_none hlongest, Pattern.scanFrom_of_none hfound,
                ih (d :: before) (Nat.zero_le _)]
              rfl
          | some n =>
              rw [hfound] at hlongest
              have hn : n ≤ u.length + 1 :=
                longest?_le_length ((hhit _ _).symm.trans hfound)
              cases n with
              | zero =>
                  rw [Pattern.scanFrom_of_zero hlongest, Pattern.scanFrom_of_zero hfound,
                    ih (d :: before) (Nat.zero_le _), List.append_assoc]
                  rfl
              | succ n =>
                  have htake : (d :: u ++ c :: v).take (n + 1) = (d :: u).take (n + 1) :=
                    List.take_append_of_le_length hn
                  rw [List.cons_append] at htake
                  simp only [Pattern.scanFrom, hlongest, hfound, htake]
                  rw [ih (d :: before) (Nat.le_of_succ_le_succ hn)]
                  rfl

/-- Behind a separator that is no double quote, a mapping does with the pieces what it does with those
of the text that starts there. -/
theorem map_applyPiece_scanFrom (hc : isWordChar c = false) (hquote : c ≠ '"') (before v : Text) :
    (m.pattern.scanFrom (c :: before) v 0 false).map m.applyPiece =
      (m.scan v).map m.applyPiece := by
  have hleft : ∀ word, m.applyPiece (.hit (some c) word) = m.applyPiece (.hit none word) := by
    intro word
    have hsome : (some c == some '"') = false := by simp [hquote]
    have hnone : ((none : Option Char) == some '"') = false := rfl
    rw [Mapping.applyPiece, Mapping.applyPiece, hsome, hnone]
  have heq : ∀ after, m.pattern.hit? (c :: before) after = m.pattern.hit? [] after := by
    intro after
    have hedge : inWord (c :: before).head? = inWord ([] : Text).head? := hc
    rw [hhit, hhit, longest?_congr hedge]
  rw [Mapping.scan, Pattern.scan]
  cases v with
  | nil =>
      rw [Pattern.scanFrom_nil, Pattern.scanFrom_nil, heq]
      cases m.pattern.hit? [] [] with
      | none => rfl
      | some n => simp [Pattern.emptyHit, hleft]
  | cons d rest =>
      -- after the first character both scans look back at the same one
      have hrest : ∀ inside touching, m.pattern.scanFrom (d :: c :: before) rest inside touching =
          m.pattern.scanFrom [d] rest inside touching :=
        fun inside touching => scanFrom_congr hhit (a := d :: c :: before) (b := [d]) rfl rest inside
          touching
      cases hfound : m.pattern.hit? [] (d :: rest) with
      | none => simp [Pattern.scanFrom, heq, hfound, hrest]
      | some n =>
          cases n with
          | zero => simp [Pattern.scanFrom, heq, hfound, hrest, hleft]
          | succ n => simp [Pattern.scanFrom, heq, hfound, hrest, hleft]

end Scan

/-! ## Mappings and decoders -/

namespace Mapping

theorem appliedText_append (m : Mapping) (xs ys : List Piece) :
    m.appliedText (xs ++ ys) = m.appliedText xs ++ m.appliedText ys :=
  List.flatMap_append

/-- What pieces become depends on what the mapping does with each of them. -/
theorem applied_congr {m : Mapping} {xs ys : List Piece}
    (h : xs.map m.applyPiece = ys.map m.applyPiece) :
    m.appliedText xs = m.appliedText ys ∧ m.appliedStats xs = m.appliedStats ys := by
  have htext : ∀ pieces, m.appliedText pieces = (pieces.map m.applyPiece).flatMap (·.1) :=
    fun pieces => (List.flatMap_map ..).symm
  have hstats : ∀ pieces, m.appliedStats pieces =
      (pieces.map m.applyPiece).foldr (fun applied stats => applied.2 + stats) .zero := by
    intro pieces
    rw [appliedStats, List.foldr_map]
  rw [htext, htext, hstats, hstats, h]
  exact ⟨rfl, rfl⟩

/-- A compiled mapping applies to the two sides of a separator on their own. -/
theorem IsCompiled.apply_append_cons {m : Mapping} (h : m.IsCompiled) {c : Char}
    (hc : isWordChar c = false) (hquote : c ≠ '"') (hkeys : ∀ key ∈ m.replacements.keys, c ∉ key)
    (u v : Text) :
    (m.apply (u ++ c :: v)).1.getD (u ++ c :: v) =
        (m.apply u).1.getD u ++ c :: (m.apply v).1.getD v ∧
      (m.apply (u ++ c :: v)).2 = (m.apply u).2 + (m.apply v).2 := by
  have hscan : m.scan (u ++ c :: v) =
      m.scan u ++ .plain c :: m.pattern.scanFrom (c :: (u.reverse ++ [])) v 0 false :=
    scanFrom_append_cons h.hit?_eq hc hkeys u v [] (Nat.zero_le _) false
  obtain ⟨htext, hstats⟩ :=
    applied_congr (map_applyPiece_scanFrom h.hit?_eq hc hquote (u.reverse ++ []) v)
  constructor
  · rw [h.getD_apply, h.getD_apply, h.getD_apply, hscan, appliedText_append, ← htext]
    rfl
  · have hcounts : ∀ t, (m.apply t).2 = m.appliedStats (m.scan t) := fun t => rfl
    have hcons : ∀ pieces, m.appliedStats (.plain c :: pieces) = .zero + m.appliedStats pieces :=
      fun pieces => rfl
    rw [hcounts, hcounts, hcounts, hscan, appliedStats_append, hcons, Stats.zero_add, hstats]

/-! ### Mappings of tables -/

section OfTable

variable [Pattern.Engine] {m : Mapping} {category : String} {table : Table} {column : Text}
  {skipQuoted : Bool}

theorem compile_of_ofTable (h : (ofTable category table column skipQuoted).result = .ok m) :
    (compile category (table.columnValues column) skipQuoted).result = .ok m := by
  rw [ofTable] at h
  split at h
  · cases h
  · exact h

/-- A table without rows needs no column. -/
theorem ofTable_result (h : table.isEmpty || table.hasColumn column) :
    (ofTable category table column skipQuoted).result =
      (compile category (table.columnValues column) skipQuoted).result := by
  have hnot : ¬ (!table.isEmpty && !table.hasColumn column) = true := by
    rw [← Bool.not_or, h]
    exact Bool.false_ne_true
  rw [ofTable, if_neg hnot]

/-- A table that has the column gives its mapping, if the pattern can be used. -/
theorem ofTable_eq_compiled (hcolumn : table.isEmpty || table.hasColumn column)
    (hfault : (compiled category (table.columnValues column) skipQuoted).pattern.fault? = none) :
    (ofTable category table column skipQuoted).result =
      .ok (compiled category (table.columnValues column) skipQuoted) := by
  rw [ofTable_result hcolumn, compile_of_fault? hfault]

/-- The replacements of the mapping of a table are the names in its column. -/
theorem get?_replacements_ofTable (h : (ofTable category table column skipQuoted).result = .ok m)
    (key : Text) :
    m.replacements.get? key = (table.get? key column).filter fun value => !value.isEmpty := by
  obtain rfl := eq_compiled (compile_of_ofTable h)
  show ((table.columnValues column).filter _).get? key = _
  rw [Dict.get?_filter, Table.columnValues, Dict.get?_filterMap]
  rfl

theorem mem_keys_of_ofTable (h : (ofTable category table column skipQuoted).result = .ok m)
    {key : Text} (hkey : key ∈ m.replacements.keys) : key ∈ table.keys := by
  obtain ⟨value, hvalue⟩ := Dict.mem_keys_iff.1 hkey
  rw [get?_replacements_ofTable h, Option.filter_eq_some_iff] at hvalue
  obtain ⟨row, hrow, -⟩ := Option.bind_eq_some_iff.1 hvalue.1
  exact Dict.mem_keys_iff.2 ⟨row, hrow⟩

end OfTable

/-- The mapping was compiled, for some engine, from a column of the table of a text. -/
def IsOfTable (m : Mapping) : Prop :=
  ∃ (_ : Pattern.Engine) (category : String) (text column : Text) (skipQuoted : Bool),
    (ofTable category (Table.ofText text) column skipQuoted).result = .ok m

namespace IsOfTable

variable {m : Mapping}

theorem isCompiled (h : m.IsOfTable) : m.IsCompiled := by
  obtain ⟨_, category, text, column, skipQuoted, hresult⟩ := h
  exact ⟨_, category, _, skipQuoted, compile_of_ofTable hresult⟩

/-- The keys of a mapping of a table are keys of the table, and have no line feed. -/
theorem not_mem_of_mem_keys (h : m.IsOfTable) : ∀ key ∈ m.replacements.keys, '\n' ∉ key := by
  obtain ⟨_, category, text, column, skipQuoted, hresult⟩ := h
  exact fun key hkey => Table.not_mem_of_mem_keys (mem_keys_of_ofTable hresult hkey)

end IsOfTable

end Mapping

namespace Decoder

/-- The steps of a decoder go through the two sides of a separator on their own, from any counts: by
induction on the mappings, whatever text the ones before have made of the sides. -/
theorem foldl_append_cons {d : Decoder} (hd : ∀ m ∈ d, m.IsCompiled) {c : Char}
    (hc : isWordChar c = false) (hquote : c ≠ '"')
    (hkeys : ∀ m ∈ d, ∀ key ∈ m.replacements.keys, c ∉ key) (u v : Text) (a b : Stats) :
    d.foldl (fun state m => step m state) (u ++ c :: v, a + b) =
      ((d.foldl (fun state m => step m state) (u, a)).1 ++
          c :: (d.foldl (fun state m => step m state) (v, b)).1,
        (d.foldl (fun state m => step m state) (u, a)).2 +
          (d.foldl (fun state m => step m state) (v, b)).2) := by
  induction d generalizing u v a b with
  | nil => rfl
  | cons m d ih =>
      obtain ⟨hm, hd⟩ := List.forall_mem_cons.1 hd
      obtain ⟨hkey, hkeys⟩ := List.forall_mem_cons.1 hkeys
      obtain ⟨htext, hstats⟩ := hm.apply_append_cons hc hquote hkey u v
      have hstep : ∀ t stats, step m (t, stats) = ((m.apply t).1.getD t, stats + (m.apply t).2) :=
        fun t stats => rfl
      rw [List.foldl_cons, List.foldl_cons, List.foldl_cons, hstep, hstep, hstep, htext, hstats,
        add_add_add_comm]
      exact ih hd hkeys _ _ _ _

theorem decode_append_cons {d : Decoder} (hd : ∀ m ∈ d, m.IsCompiled) {c : Char}
    (hc : isWordChar c = false) (hquote : c ≠ '"')
    (hkeys : ∀ m ∈ d, ∀ key ∈ m.replacements.keys, c ∉ key) (u v : Text) :
    d.decode (u ++ c :: v) =
      ((d.decode u).1 ++ c :: (d.decode v).1, (d.decode u).2 + (d.decode v).2) :=
  foldl_append_cons hd hc hquote hkeys u v .zero .zero

/-- Parts of a text are decoded one by one, and separators are put between them again. -/
def decodeParts (d : Decoder) (c : Char) (parts : List Text) : Text × Stats :=
  (List.intercalate [c] (parts.map fun part => (d.decode part).1),
    (parts.map fun part => (d.decode part).2).sum)

theorem decode_intercalate {d : Decoder} (hd : ∀ m ∈ d, m.IsCompiled) {c : Char}
    (hc : isWordChar c = false) (hquote : c ≠ '"')
    (hkeys : ∀ m ∈ d, ∀ key ∈ m.replacements.keys, c ∉ key) {parts : List Text}
    (hparts : parts ≠ []) : d.decode (List.intercalate [c] parts) = d.decodeParts c parts := by
  induction parts with
  | nil => exact absurd rfl hparts
  | cons part parts ih =>
      cases parts with
      | nil => simp [decodeParts]
      | cons next parts =>
          rw [List.intercalate_cons_cons, List.append_assoc, List.singleton_append,
            decode_append_cons hd hc hquote hkeys, ih (List.cons_ne_nil _ _)]
          simp [decodeParts, List.intercalate_cons_cons]

/-- **Parts of a text.** Where a character that is no word character and no double quote stands in
no key, the two sides of it are decoded on their own, and the counts are the sums. So a decoder of
tables, whose keys have no line feed, decodes a text line by line. -/
theorem decode_separates :
    (∀ d : Decoder, (∀ m ∈ d, m.IsCompiled) → ∀ c, isWordChar c = false → c ≠ '"' →
      (∀ m ∈ d, ∀ key ∈ m.replacements.keys, c ∉ key) → ∀ u v,
        d.decode (u ++ c :: v) =
          ((d.decode u).1 ++ c :: (d.decode v).1, (d.decode u).2 + (d.decode v).2)) ∧
    ∀ d : Decoder, (∀ m ∈ d, m.IsOfTable) →
      (∀ m ∈ d, ∀ key ∈ m.replacements.keys, '\n' ∉ key) ∧
        ∀ t, d.decode t = d.decodeParts '\n' (Text.splitOn '\n' t) := by
  refine ⟨fun d hd c hc hquote hkeys u v => decode_append_cons hd hc hquote hkeys u v,
    fun d hd => ?_⟩
  have hkeys : ∀ m ∈ d, ∀ key ∈ m.replacements.keys, '\n' ∉ key :=
    fun m hm => (hd m hm).not_mem_of_mem_keys
  refine ⟨hkeys, fun t => ?_⟩
  have hlines : Text.splitOn '\n' t ≠ [] := by
    rw [Text.splitOn_eq]
    exact List.splitOn_ne_nil _ _
  have hdecode := decode_intercalate (fun m hm => (hd m hm).isCompiled) (by decide) (by decide)
    hkeys hlines
  rw [Text.intercalate_splitOn] at hdecode
  exact hdecode

/-- A semicolon that a value brings in, and the empty key, which writes at every word boundary; then
the same key in a table. -/
theorem decode_separates_empty_key :
    let m := Mapping.compiled "fields" (Dict.ofList [(['a'], "b;".toList)]) true
    let n := Mapping.compiled "methods" (Dict.ofList [([], "<>".toList)]) true
    let k := Mapping.compiled "fields" ((Table.ofText "k,n\n,<>\n".toList).columnValues ['n']) true
    (m.IsCompiled ∧ n.IsCompiled ∧ k.IsOfTable) ∧
      decode [m, n] "a;\"a".toList =
        ((decode [m, n] "a".toList).1 ++ ';' :: (decode [m, n] "\"a".toList).1,
          (decode [m, n] "a".toList).2 + (decode [m, n] "\"a".toList).2) ∧
      (decode [m, n] "a;\"a".toList).1 = "<>b<>;;\"a<>".toList ∧
      decode [k] "a\n\"a".toList =
        decodeParts [k] '\n' (Text.splitOn '\n' "a\n\"a".toList) := by
  intro m n k
  have hm : m.IsCompiled := Mapping.isCompiled_compiled (by decide)
  have hn : n.IsCompiled := Mapping.isCompiled_compiled (by decide)
  have hk : k.IsOfTable := ⟨.unbounded, "fields", "k,n\n,<>\n".toList, ['n'], true,
    Mapping.ofTable_eq_compiled (by decide +kernel) (by decide +kernel)⟩
  have hboth := List.forall_mem_cons.2 ⟨hm, List.forall_mem_singleton.2 hn⟩
  refine ⟨⟨hm, hn, hk⟩, ?_, by decide +kernel, ?_⟩
  · have hsplit : "a;\"a".toList = "a".toList ++ ';' :: "\"a".toList := by decide
    rw [hsplit]
    exact decode_separates.1 [m, n] hboth ';' (by decide) (by decide) (by decide) _ _
  · exact (decode_separates.2 [k] (List.forall_mem_singleton.2 hk)).2 _

end Decoder

end Unmangle
