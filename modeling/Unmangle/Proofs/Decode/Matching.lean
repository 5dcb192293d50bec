import Unmangle.Proofs.Decode.Separators

set_option autoImplicit false

/-! # What a decoder of tables matches

Every match of a mapping is one of its keys, so a text in which none of them occurs stays as it is
(`Mapping.IsCompiled.apply_of_absent`). The empty text is a key like any other one: a mapping
that has it matches between characters, and this is the only way to match nothing
(`Mapping.IsCompiled.spans_nonempty_iff`).

The mapping of a table has the empty key where the first row without a key has a name in the column
that counts.

* `Decoder.decode_unnamed`: a row without a key puts its name where no key stands.
* `Decoder.decode_matches`: the main statement, with the tables whose decoders match keys of one or
  more characters only.
-/

namespace Unmangle

/-! ## Parts of a text -/

namespace Text

theorem dropBytes?_isSuffix {t rest : Text} {n : Nat} (h : dropBytes? n t = some rest) :
    rest <:+ t := by
  induction t generalizing n with
  | nil =>
      cases n with
      | zero =>
          obtain rfl : [] = rest := by simpa [dropBytes?] using h
          exact List.suffix_refl _
      | succ n => simp [dropBytes?] at h
  | cons c t ih =>
      cases n with
      | zero =>
          obtain rfl : c :: t = rest := by simpa [dropBytes?] using h
          exact List.suffix_refl _
      | succ n =>
          rw [dropBytes?, Option.ite_none_right_eq_some] at h
          exact (ih h.2).trans (List.suffix_cons c t)

theorem takeBytes?_isPrefix {t start : Text} {n : Nat} (h : takeBytes? n t = some start) :
    start <+: t := by
  induction t generalizing n start with
  | nil =>
      cases n with
      | zero =>
          obtain rfl : [] = start := by simpa [takeBytes?] using h
          exact List.nil_prefix
      | succ n => simp [takeBytes?] at h
  | cons c t ih =>
      cases n with
      | zero =>
          obtain rfl : [] = start := by simpa [takeBytes?] using h
          exact List.nil_prefix
      | succ n =>
          rw [takeBytes?, Option.ite_none_right_eq_some] at h
          obtain ⟨start, hstart, rfl⟩ := Option.map_eq_some_iff.1 h.2
          exact List.cons_prefix_cons.2 ⟨rfl, ih hstart⟩

/-- What stands between two places of a text occurs in it. -/
theorem slice?_isInfix {t word : Text} {start stop : Nat} (h : slice? t start stop = some word) :
    word <:+: t := by
  obtain ⟨rest, hrest, hword⟩ := Option.bind_eq_some_iff.1 h
  exact (takeBytes?_isPrefix hword).isInfix.trans (dropBytes?_isSuffix hrest).isInfix

theorem slice?_lt {t word : Text} {start stop : Nat} (h : slice? t start stop = some word)
    (hword : word ≠ []) : start < stop := by
  by_contra hle
  obtain ⟨rest, -, htake⟩ := Option.bind_eq_some_iff.1 h
  have hzero : stop - start = 0 := by omega
  rw [hzero, takeBytes?] at htake
  exact hword (Option.some.inj htake).symm

end Text

/-! ## Matches of a mapping -/

namespace Mapping.IsCompiled

variable {m : Mapping} {t : Text}

/-- A text in which no key occurs has no match. -/
theorem apply_of_absent (h : m.IsCompiled) (hkeys : ∀ key ∈ m.replacements.keys, ¬ key <:+: t) :
    m.apply t = (none, .zero) := by
  obtain ⟨hspans, hstats⟩ := h.spans_spec t
  have hnone : m.spans t = [] := by
    refine List.eq_nil_iff_forall_not_mem.2 fun span hspan => ?_
    obtain ⟨word, value, hslice, hvalue⟩ := hspans span hspan
    exact hkeys word (Dict.mem_keys_iff.2 ⟨value, hvalue⟩) (Text.slice?_isInfix hslice)
  have htext : (m.apply t).1 = none := by
    rw [← Option.not_isSome_iff_eq_none, isSome_apply_iff, hnone]
    exact not_not.2 rfl
  rw [hnone] at hstats
  exact Prod.ext htext hstats

/-- In a run that is longer than every key, the empty key is the only one that fits at the start. -/
theorem longest?_replicate {keys : List Text} (hempty : [] ∈ keys) :
    ∃ n, longest? keys [] (List.replicate (n + 1) 'a') = some 0 := by
  have hlong : ∀ key ∈ keys, key.length ≤ keys.flatten.length :=
    fun key hkey => (List.sublist_flatten_of_mem hkey).length_le
  refine ⟨keys.flatten.length, ?_⟩
  rw [longest?, List.max?_eq_some_iff]
  constructor
  · refine List.mem_map.2 ⟨[], List.mem_filter.2 ⟨hempty, ?_⟩, rfl⟩
    exact (wordFits_iff _ _ _).2 ⟨_, rfl, rfl, rfl⟩
  · intro k hk
    obtain ⟨key, hkey, rfl⟩ := List.mem_map.1 hk
    obtain ⟨hkey, hfits⟩ := List.mem_filter.1 hkey
    obtain ⟨rest, hsplit, -, hend⟩ := (wordFits_iff _ _ _).1 hfits
    obtain ⟨hlength, hleft, hright⟩ := List.append_eq_replicate_iff.1 hsplit.symm
    have hrest : rest.length ≠ 0 := by
      have := hlong key hkey
      omega
    -- a word that ends inside the run does not end at a word boundary
    rw [hleft, hright, List.reverse_replicate, List.append_nil] at hend
    cases hzero : key.length with
    | zero => exact Nat.le_refl 0
    | succ k =>
        obtain ⟨l, hl⟩ := Nat.exists_eq_succ_of_ne_zero hrest
        rw [hzero, hl] at hend
        cases hend

/-- A mapping matches nothing somewhere exactly if the empty text is one of its keys. -/
theorem spans_nonempty_iff (h : m.IsCompiled) :
    (∀ t, ∀ span ∈ m.spans t, span.1 < span.2) ↔ [] ∉ m.replacements.keys := by
  constructor
  · intro hspans hempty
    obtain ⟨n, hn⟩ := longest?_replicate hempty
    have hfirst : (0, 0) ∈ m.spans (List.replicate (n + 1) 'a') := by
      rw [spans, scan, Pattern.scan, spans_scanFrom h.hit?_eq, List.replicate_succ,
        longestSpansFrom]
      rw [List.replicate_succ] at hn
      rw [hn]
      exact List.mem_cons_self
    exact absurd (hspans _ _ hfirst) (Nat.lt_irrefl 0)
  · intro hempty t span hspan
    obtain ⟨word, value, hslice, hvalue⟩ := (h.spans_spec t).1 span hspan
    refine Text.slice?_lt hslice ?_
    rintro rfl
    exact hempty (Dict.mem_keys_iff.2 ⟨value, hvalue⟩)

end Mapping.IsCompiled

/-! ## Keys of a table -/

namespace Table

/-- The first row without a key, if there is one, has no name in a column. -/
def UnnamedIsEmpty (text column : Text) : Prop :=
  ∀ fields ∈ (dataRows text).find? (keyOf · == []),
    ∀ value ∈ fieldAt? (header text) fields column, value = []

instance (text column : Text) : Decidable (UnnamedIsEmpty text column) :=
  inferInstanceAs (Decidable (∀ fields ∈ (dataRows text).find? (keyOf · == []),
    ∀ value ∈ fieldAt? (header text) fields column, value = []))

/-- The first row without a key keeps the empty key, which no other row can get. -/
theorem readsFirstRow_nil (text column : Text) : ReadsFirstRow text [] column := by
  have hnot : ¬ Repeated ((dataRows text).map keyOf) [] := by
    rintro ⟨key, n, -, hkey⟩
    simp [underscored] at hkey
  obtain ⟨stored, hstored, -, hget⟩ := get?_ofText_stored text
  rw [ReadsFirstRow, hget, hstored.lookup_eq_find? List.not_mem_nil (hstored.own hnot)]

theorem unnamedIsEmpty_iff (text column : Text) :
    UnnamedIsEmpty text column ↔ ∀ value ∈ (ofText text).get? [] column, value = [] := by
  rw [readsFirstRow_nil, UnnamedIsEmpty]
  cases (dataRows text).find? (keyOf · == []) with
  | none => simp
  | some fields => simp

end Table

namespace Mapping

theorem empty_mem_keys_ofTable_iff [Pattern.Engine] {m : Mapping} {category : String}
    {text column : Text} {skipQuoted : Bool}
    (h : (ofTable category (Table.ofText text) column skipQuoted).result = .ok m) :
    [] ∉ m.replacements.keys ↔ Table.UnnamedIsEmpty text column := by
  rw [Table.unnamedIsEmpty_iff, Dict.mem_keys_iff, ← Option.isSome_iff_exists,
    get?_replacements_ofTable h]
  cases (Table.ofText text).get? [] column with
  | none => simp
  | some value => cases value <;> simp

end Mapping

namespace Decoder

/-- The mappings of a decoder are those of one column of the tables of some texts, for some
engine. -/
def OfTables (d : Decoder) (texts : List Text) (column : Text) (skipQuoted : Bool) : Prop :=
  ∃ _ : Pattern.Engine, List.Forall₂ (fun m text => ∃ category,
    (Mapping.ofTable category (Table.ofText text) column skipQuoted).result = .ok m) d texts

theorem forall_mem_of_forall₂ {α β : Type} {R : α → β → Prop} {P : α → Prop} {Q : β → Prop}
    {as : List α} {bs : List β} (h : List.Forall₂ R as bs) (hR : ∀ a b, R a b → Q b → P a)
    (hbs : ∀ b ∈ bs, Q b) : ∀ a ∈ as, P a := by
  induction h with
  | nil => exact fun a ha => absurd ha List.not_mem_nil
  | cons hab _ ih =>
      obtain ⟨hb, hbs⟩ := List.forall_mem_cons.1 hbs
      exact List.forall_mem_cons.2 ⟨hR _ _ hab hb, ih hbs⟩

/-- Mappings without a match leave a text and the counts as they are. -/
theorem foldl_of_apply_eq {d : Decoder} {t : Text} (h : ∀ m ∈ d, m.apply t = (none, .zero))
    (stats : Stats) : d.foldl (fun state m => step m state) (t, stats) = (t, stats) := by
  induction d with
  | nil => rfl
  | cons m d ih =>
      obtain ⟨hm, hd⟩ := List.forall_mem_cons.1 h
      have hstep : step m (t, stats) = (t, stats) := by
        rw [step, hm]
        rfl
      rw [List.foldl_cons, hstep]
      exact ih hd

/-- **Matches of a decoder of tables.** Every match of a mapping is a key under which its table has
a name. The matches have one or more characters, in every text, exactly if in none of the tables the
first row without a key has a name. Then a text in which no key occurs, the empty one apart, stays
as it is. -/
theorem decode_matches (texts : List Text) (column : Text) (skipQuoted : Bool) (d : Decoder)
    (h : d.OfTables texts column skipQuoted) :
    List.Forall₂ (fun m text => ∀ t, ∀ span ∈ m.spans t, ∃ key value,
      Text.slice? t span.1 span.2 = some key ∧
        (Table.ofText text).get? key column = some value ∧ value ≠ []) d texts ∧
    ((∀ m ∈ d, ∀ t, ∀ span ∈ m.spans t, span.1 < span.2) ↔
      ∀ text ∈ texts, Table.UnnamedIsEmpty text column) ∧
    ((∀ text ∈ texts, Table.UnnamedIsEmpty text column) → ∀ t,
      (∀ text ∈ texts, ∀ key ∈ (Table.ofText text).keys, key ≠ [] → ¬ key <:+: t) →
        d.decode t = (t, .zero)) := by
  obtain ⟨_, h⟩ := h
  have hiff : ∀ m text, (∃ category, (Mapping.ofTable category (Table.ofText text) column
      skipQuoted).result = .ok m) →
      ((∀ t, ∀ span ∈ m.spans t, span.1 < span.2) ↔ Table.UnnamedIsEmpty text column) := by
    rintro m text ⟨category, hm⟩
    have hcompiled := Mapping.IsOfTable.isCompiled ⟨_, category, text, column, skipQuoted, hm⟩
    exact hcompiled.spans_nonempty_iff.trans (Mapping.empty_mem_keys_ofTable_iff hm)
  refine ⟨List.Forall₂.imp ?_ h, ⟨?_, ?_⟩, ?_⟩
  · rintro m text ⟨category, hm⟩ t span hspan
    have hcompiled := Mapping.IsOfTable.isCompiled ⟨_, category, text, column, skipQuoted, hm⟩
    obtain ⟨key, value, hslice, hvalue⟩ := (hcompiled.spans_spec t).1 span hspan
    rw [Mapping.get?_replacements_ofTable hm, Option.filter_eq_some_iff] at hvalue
    exact ⟨key, value, hslice, hvalue.1, by simpa using hvalue.2⟩
  · exact forall_mem_of_forall₂ h.flip fun text m hm hspans => (hiff m text hm).1 hspans
  · exact forall_mem_of_forall₂ h fun m text hm hunnamed => (hiff m text hm).2 hunnamed
  · intro hunnamed t hkeys
    have hboth : ∀ text ∈ texts, Table.UnnamedIsEmpty text column ∧
        ∀ key ∈ (Table.ofText text).keys, key ≠ [] → ¬ key <:+: t :=
      fun text htext => ⟨hunnamed text htext, hkeys text htext⟩
    refine foldl_of_apply_eq (forall_mem_of_forall₂ h ?_ hboth) .zero
    rintro m text ⟨category, hm⟩ ⟨hnil, hkeys⟩
    have hcompiled := Mapping.IsOfTable.isCompiled ⟨_, category, text, column, skipQuoted, hm⟩
    refine hcompiled.apply_of_absent fun key hkey =>
      hkeys key (Mapping.mem_keys_of_ofTable hm hkey) ?_
    rintro rfl
    exact (Mapping.empty_mem_keys_ofTable_iff hm).2 hnil hkey

/-- A row without a key that has no name changes no text, and the row after it does. -/
theorem decode_matches_unnamed :
    let texts := ["k,n\n,\na,b\n".toList, "k,n\n".toList]
    let d := texts.map fun text =>
      Mapping.compiled "fields" ((Table.ofText text).columnValues ['n']) true
    OfTables d texts ['n'] true ∧ decode d "int i;".toList = ("int i;".toList, .zero) ∧
      decode d "int a;".toList = ("int b;".toList, ⟨1, 0⟩) := by
  intro texts d
  have hd : OfTables d texts ['n'] true := ⟨.unbounded,
    .cons ⟨"fields", Mapping.ofTable_eq_compiled (by decide +kernel) (by decide +kernel)⟩
      (.cons ⟨"fields", Mapping.ofTable_eq_compiled (by decide +kernel) (by decide +kernel)⟩ .nil)⟩
  refine ⟨hd, ?_, by decide +kernel⟩
  exact (decode_matches texts ['n'] true d hd).2.2 (by decide +kernel) _ (by decide +kernel)

/-- A row without a key puts its name where no key stands, at every word boundary. -/
theorem decode_unnamed :
    let texts := ["searge,name\n,X\n".toList, "searge,name\n".toList]
    let d := texts.map fun text =>
      Mapping.compiled "fields" ((Table.ofText text).columnValues "name".toList) true
    OfTables d texts "name".toList true ∧
      (∀ text ∈ texts, ∀ key ∈ (Table.ofText text).keys, key = []) ∧
      (∃ m ∈ d, (0, 0) ∈ m.spans "int i;".toList) ∧
      decode d "int i;".toList = ("XintX XiX;".toList, ⟨4, 0⟩) := by
  intro texts d
  refine ⟨⟨.unbounded, ?_⟩, by decide +kernel, by decide +kernel, by decide +kernel⟩
  exact .cons ⟨"fields", Mapping.ofTable_eq_compiled (by decide +kernel) (by decide +kernel)⟩
    (.cons ⟨"fields", Mapping.ofTable_eq_compiled (by decide +kernel) (by decide +kernel)⟩ .nil)

end Decoder

end Unmangle
