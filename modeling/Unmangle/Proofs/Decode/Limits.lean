import Unmangle.Proofs.Decode.Matching
import Unmangle.Proofs.Table.Reduced
import Unmangle.Proofs.Trie.Nesting

set_option autoImplicit false

/-! # The nest limit

Compiling a mapping fails when its pattern nests deeper than the limit; if it does not, only the
size of its program can be in the way. The depth depends on the set of keys that have a name, so the
bounds on the depth of a trie's pattern tell which mappings are within the nest limit, whatever the
engine is.

* `Mapping.compile_short_keys`: keys of at most 62 characters always are.
* `Mapping.exists_deepest`: for longer keys there are sets that are not.
* `Mapping.compile_fewer_keys`: a mapping with fewer keys is, if the one with more is.
* `Mapping.ofTable_deeper`: a text with fewer rows may give other keys, and then nest deeper.
-/

namespace Unmangle

/-! ## Tries -/

/-- The text denotes an expression that does not nest too deep. -/
def Pattern.Shallow (t : Text) : Prop :=
  ∃ p, parse? t = some p ∧ p.depth ≤ depthLimit

namespace Trie

theorem shallow_sourceOf_iff (t : Trie) :
    Pattern.Shallow (Mapping.sourceOf t) ↔ t.wordPattern.depth ≤ Pattern.depthLimit := by
  rw [Pattern.Shallow, t.parse?_sourceOf]
  simp

namespace Represents

variable {t u : Trie} {s s' : Finset Text}

/-- Two more than the depth of the members is the depth between the boundaries. -/
theorem depth_le (h : t.Represents s) {n : Nat} (hn : 1 ≤ n) (hshort : ∀ w ∈ s, w.length ≤ n) :
    t.wordPattern.depth ≤ 4 * n + 1 := by
  obtain ⟨m, rfl⟩ : ∃ m, n = m + 1 := ⟨n - 1, by omega⟩
  have hnesting := h.nesting_le hshort
  rw [h.sound.depth_wordPattern]
  omega

theorem depth_mono (ht : t.Represents s) (hu : u.Represents s') (h : s ⊆ s') :
    t.wordPattern.depth ≤ max 3 u.wordPattern.depth := by
  have hnesting := ht.nesting_mono hu h
  rw [ht.sound.depth_wordPattern, hu.sound.depth_wordPattern]
  omega

/-- The pattern without members is far from the limit. -/
theorem shallow_mono (ht : t.Represents s) (hu : u.Represents s') (h : s ⊆ s')
    (hshallow : Pattern.Shallow (Mapping.sourceOf u)) :
    Pattern.Shallow (Mapping.sourceOf t) := by
  rw [shallow_sourceOf_iff] at hshallow ⊢
  have hdepth := ht.depth_mono hu h
  have hlimit : Pattern.depthLimit = 250 := rfl
  omega

end Represents

end Trie

/-! ## Short keys -/

namespace Mapping

/-- A mapping is given unless its program is too large; nothing else is in the way. -/
def GivenUnlessTooLarge [Pattern.Engine] (m : Mapping) (result : Except Error Mapping) : Prop :=
  result =
    if Pattern.Engine.programSize m.pattern ≤ Pattern.sizeLimit then .ok m
    else .error (.invalidPattern m.category .tooLarge)

theorem compile_of_depth_le [Pattern.Engine] {category : String} {pairs : Pairs} {skipQuoted : Bool}
    (h : (compiled category pairs skipQuoted).pattern.depth ≤ Pattern.depthLimit) :
    (compiled category pairs skipQuoted).GivenUnlessTooLarge
      (compile category pairs skipQuoted).result := by
  rw [compile_result, Pattern.elim_fault?, if_pos h]
  rfl

/-- **Short keys compile.** If the keys with a value that is not empty have at most `n` characters,
the pattern of the mapping can be read and nests at most `4 * n + 1` deep, however many keys there
are; so keys of at most 62 characters compile, unless the program of the pattern is too large. -/
theorem compile_short_keys [Pattern.Engine] (pairs : Pairs) (n : Nat) (hn : 1 ≤ n)
    (hkeys : ∀ key ∈ keysOf pairs, key.length ≤ n) :
    (∃ p, Pattern.parse? (sourceOf (Trie.ofList (keysOf pairs))) = some p ∧
      p.depth ≤ 4 * n + 1) ∧
    (n ≤ 62 → ∀ category skipQuoted, (compiled category pairs skipQuoted).GivenUnlessTooLarge
      (compile category pairs skipQuoted).result) := by
  have hdepth := (Trie.Represents.ofList (keysOf pairs)).depth_le hn
    fun w hw => hkeys w (List.mem_toFinset.1 hw)
  refine ⟨⟨_, Trie.parse?_sourceOf _, hdepth⟩, fun hshort category skipQuoted => ?_⟩
  have hlimit : (compiled category pairs skipQuoted).pattern.depth ≤ Pattern.depthLimit := by
    refine Nat.le_trans hdepth ?_
    show 4 * n + 1 ≤ 250
    omega
  exact compile_of_depth_le hlimit

/-- Keys of one character, the empty one with them, and one that has no value. -/
theorem compile_short_keys_one :
    let pairs : Pairs := .ofList
      [([], ['x']), (['a'], ['y']), (['b'], ['z']), ("long".toList, [])]
    (∀ key ∈ keysOf pairs, key.length ≤ 1) ∧
      (∃ p, Pattern.parse? (sourceOf (Trie.ofList (keysOf pairs))) = some p ∧ p.depth ≤ 5) ∧
      (compile "fields" pairs true).result = .ok (compiled "fields" pairs true) := by
  intro pairs
  have hkeys : ∀ key ∈ keysOf pairs, key.length ≤ 1 := by decide +kernel
  obtain ⟨hdepth, hcompile⟩ := compile_short_keys pairs 1 (Nat.le_refl 1) hkeys
  exact ⟨hkeys, hdepth, (hcompile (by decide) "fields" true).trans (if_pos (Nat.zero_le _))⟩

def pairsTo (value : Text) (keys : List Text) : Pairs := .ofList (keys.map fun key => (key, value))

theorem get?_pairsTo (value : Text) (keys : List Text) (key : Text) :
    (pairsTo value keys).get? key = if key ∈ keys then some value else none := by
  have hlookup : ∀ l : List Text, (l.map fun key => (key, value)).lookup key =
      if key ∈ l then some value else none := by
    intro l
    induction l with
    | nil => rfl
    | cons first rest ih =>
        rw [List.map_cons, List.lookup_cons, ih]
        by_cases hkey : key = first
        · simp [hkey]
        · have hbeq : (key == first) = false := by simp [hkey]
          simp [hkey, hbeq]
  rw [pairsTo, Dict.get?_ofList, ← List.map_reverse, hlookup]
  simp

theorem mem_keysOf_pairsTo {value : Text} (hvalue : value ≠ []) {keys : List Text} {key : Text} :
    key ∈ keysOf (pairsTo value keys) ↔ key ∈ keys := by
  simp [mem_keysOf, get?_pairsTo, hvalue]

/-- **The bound is reached** for every length, so no bound above 62 is safe. -/
theorem exists_deepest [Pattern.Engine] (n : Nat) (hn : 1 ≤ n) : ∃ pairs : Pairs,
    (∀ key ∈ keysOf pairs, key.length ≤ n) ∧
      (Trie.ofList (keysOf pairs)).wordPattern.depth = 4 * n + 1 ∧
      (62 < n → ∀ category skipQuoted, (compile category pairs skipQuoted).result =
        .error (.invalidPattern category .tooDeep)) := by
  obtain ⟨m, rfl⟩ : ∃ m, n = m + 1 := ⟨n - 1, by omega⟩
  have hvalue : ['x'] ≠ [] := List.cons_ne_nil _ _
  have hkeys : ∀ key ∈ keysOf (pairsTo ['x'] (ladder 'a' 'b' m)), key.length ≤ m + 1 :=
    fun key hkey => length_le_of_mem_ladder ((mem_keysOf_pairsTo hvalue).1 hkey)
  have hrep := Trie.Represents.ofList (keysOf (pairsTo ['x'] (ladder 'a' 'b' m)))
  have hdepth : (Trie.ofList (keysOf (pairsTo ['x'] (ladder 'a' 'b' m)))).wordPattern.depth =
      4 * (m + 1) + 1 := by
    have hle := hrep.depth_le hn fun w hw => hkeys w (List.mem_toFinset.1 hw)
    have hge := hrep.le_nesting (by decide : 'a' ≠ 'b') fun w hw =>
      List.mem_toFinset.2 ((mem_keysOf_pairsTo hvalue).2 hw)
    rw [hrep.sound.depth_wordPattern] at hle ⊢
    omega
  refine ⟨_, hkeys, hdepth, fun hlong category skipQuoted => ?_⟩
  have hlimit : ¬ (compiled category (pairsTo ['x'] (ladder 'a' 'b' m)) skipQuoted).pattern.depth ≤
      Pattern.depthLimit := by
    show ¬ (Trie.ofList (keysOf _)).wordPattern.depth ≤ 250
    rw [hdepth]
    omega
  rw [compile_result, Pattern.elim_fault?, if_neg hlimit]

/-! ## Fewer keys -/

/-- The names in a column of a reduced table are names there. -/
theorem keysOf_subset_of_reducedFrom {t u : Table} (h : t.ReducedFrom u) (column : Text) :
    keysOf (t.columnValues column) ⊆ keysOf (u.columnValues column) := by
  have hget : ∀ (table : Table) key, (table.columnValues column).get? key = table.get? key column :=
    fun table key => Dict.get?_filterMap _ _ key
  intro key hkey
  rw [mem_keysOf] at hkey ⊢
  obtain ⟨value, hvalue, hne⟩ := hkey
  rw [hget] at hvalue
  have hkept := (h.kept_or_empty key column value hvalue).resolve_left hne
  exact ⟨value, (hget u key).trans hkept, hne⟩

section Engine

variable [Pattern.Engine] {category : String} {skipQuoted : Bool}

theorem GivenUnlessTooLarge.isOk {m : Mapping} {result : Except Error Mapping}
    (h : m.GivenUnlessTooLarge result)
    (hsize : Pattern.Engine.programSize m.pattern ≤ Pattern.sizeLimit) : result.isOk = true := by
  rw [h, if_pos hsize]
  rfl

theorem shallow_of_isOk_compile {pairs : Pairs}
    (h : (compile category pairs skipQuoted).result.isOk = true) :
    Pattern.Shallow (sourceOf (Trie.ofList (keysOf pairs))) := by
  rw [Trie.shallow_sourceOf_iff]
  by_contra hdepth
  have hdeep : ¬ (compiled category pairs skipQuoted).pattern.depth ≤ Pattern.depthLimit := hdepth
  rw [compile_result, Pattern.elim_fault?, if_neg hdeep] at h
  cases h

theorem compile_of_subset {pairs pairs' : Pairs} (h : keysOf pairs ⊆ keysOf pairs')
    (hok : (compile category pairs' skipQuoted).result.isOk = true) :
    (compiled category pairs skipQuoted).GivenUnlessTooLarge
      (compile category pairs skipQuoted).result := by
  have hshallow := (Trie.Represents.ofList (keysOf pairs)).shallow_mono (Trie.Represents.ofList _)
    (fun w hw => List.mem_toFinset.2 (h (List.mem_toFinset.1 hw))) (shallow_of_isOk_compile hok)
  exact compile_of_depth_le ((Trie.shallow_sourceOf_iff _).1 hshallow)

theorem isOk_ofTable_iff (category : String) (table : Table) (column : Text) (skipQuoted : Bool) :
    (ofTable category table column skipQuoted).result.isOk = true ↔
      (table.isEmpty || table.hasColumn column) = true ∧
        (compile category (table.columnValues column) skipQuoted).result.isOk = true := by
  by_cases hcolumn : (table.isEmpty || table.hasColumn column) = true
  · rw [ofTable_result hcolumn]
    exact (and_iff_right hcolumn).symm
  · refine iff_of_false ?_ fun h => hcolumn h.1
    have hmissing : (!table.isEmpty && !table.hasColumn column) = true := by
      rw [← Bool.not_or, Bool.not_eq_true', Bool.eq_false_iff]
      exact hcolumn
    rw [ofTable, if_pos hmissing]
    exact Bool.false_ne_true

theorem ofTable_of_reducedFrom {t u : Table} {column : Text} (h : t.ReducedFrom u)
    (hok : (ofTable category u column skipQuoted).result.isOk = true) :
    (compiled category (t.columnValues column) skipQuoted).GivenUnlessTooLarge
      (ofTable category t column skipQuoted).result := by
  rw [isOk_ofTable_iff, Bool.or_eq_true] at hok
  obtain ⟨hcolumn, hcompile⟩ := hok
  have hgiven : (t.isEmpty || t.hasColumn column) = true := by
    rw [Bool.or_eq_true]
    refine hcolumn.imp h.isEmpty fun hfound => ?_
    rwa [Table.hasColumn, Table.valueColumns, h.columns_eq]
  rw [ofTable_result hgiven]
  exact compile_of_subset (keysOf_subset_of_reducedFrom h column) hcompile

/-- **Fewer keys compile.** If the pattern of some keys does not nest too deeply, neither does the
pattern of a part of them, also after a removal from a trie. So a mapping that is given is not
refused for its nesting without some of the pairs, nor the mapping of a table of which rows are
dropped or values emptied. The same holds for the rows of a text in which no first field is
repeated. -/
theorem compile_fewer_keys :
    (∀ t u : Trie, t.Reachable → u.Reachable →
      (∀ w, t.contains w = true → u.contains w = true) →
        Pattern.Shallow (sourceOf u) → Pattern.Shallow (sourceOf t)) ∧
    (∀ t : Trie, t.Reachable → ∀ w, Pattern.Shallow (sourceOf t) →
      Pattern.Shallow (sourceOf (t.erase w).2)) ∧
    ∀ category skipQuoted,
      (∀ pairs pairs' : Pairs, keysOf pairs ⊆ keysOf pairs' →
        (compile category pairs' skipQuoted).result.isOk = true →
          (compiled category pairs skipQuoted).GivenUnlessTooLarge
            (compile category pairs skipQuoted).result) ∧
      ∀ column,
        (∀ t u : Table, t.ReducedFrom u →
          (ofTable category u column skipQuoted).result.isOk = true →
            (compiled category (t.columnValues column) skipQuoted).GivenUnlessTooLarge
              (ofTable category t column skipQuoted).result) ∧
        ∀ text text' kept, Table.header text = Table.header text' →
          ((Table.dataRows text').map Table.keyOf).Nodup → kept.Sublist (Table.dataRows text') →
            List.Forall₂ Table.EmptiedFrom (Table.dataRows text) kept →
              (ofTable category (Table.ofText text') column skipQuoted).result.isOk = true →
                (compiled category ((Table.ofText text).columnValues column)
                  skipQuoted).GivenUnlessTooLarge
                    (ofTable category (Table.ofText text) column skipQuoted).result := by
  refine ⟨fun t u ht hu hless hshallow => ?_, fun t ht w hshallow => ?_, fun category skipQuoted =>
    ⟨fun pairs pairs' => compile_of_subset, fun column =>
      ⟨fun t u => ofTable_of_reducedFrom, ?_⟩⟩⟩
  · obtain ⟨s, hs⟩ := ht.represents
    obtain ⟨s', hs'⟩ := hu.represents
    refine hs.shallow_mono hs' (fun w hw => ?_) hshallow
    exact (hs'.contains_iff w).1 (hless w ((hs.contains_iff w).2 hw))
  · obtain ⟨s, hs⟩ := ht.represents
    exact (hs.erase w).shallow_mono hs (Finset.erase_subset w s) hshallow
  · intro text text' kept hheader hnodup hkept hrows
    exact ofTable_of_reducedFrom (Table.ofText_reducedFrom hheader hnodup hkept hrows)

end Engine

/-- A trie, pairs, a table and a text of which a part is taken. -/
theorem compile_fewer_keys_parts :
    let text := "searge,name\na,\nb,y\n".toList
    let text' := "searge,name\na,x\nc,z\nb,y\n".toList
    Pattern.Shallow (sourceOf (Trie.ofList ["wo".toList])) ∧
      Pattern.Shallow (sourceOf ((Trie.ofList ["wo".toList]).erase "wo".toList).2) ∧
      (compile "fields" (pairsTo ['x'] [['a']]) true).result.isOk = true ∧
      (ofTable "fields" (.ofColumns ["searge".toList, "name".toList]) "name".toList
        true).result.isOk = true ∧
      (ofTable "fields" (Table.ofText text') "name".toList true).result.isOk = true ∧
      (ofTable "fields" (Table.ofText text) "name".toList true).result.isOk = true := by
  intro text text'
  obtain ⟨htries, herase, hmappings⟩ := compile_fewer_keys
  obtain ⟨hpairs, htables⟩ := hmappings "fields" true
  obtain ⟨hreduced, htexts⟩ := htables "name".toList
  have hmembers : ∀ w, (Trie.ofList ["wo".toList]).contains w = true →
      (Trie.ofList ["wo".toList, "words".toList]).contains w = true := by
    intro w hw
    rw [(Trie.Represents.ofList _).contains_iff, List.mem_toFinset] at hw ⊢
    rw [List.mem_singleton.1 hw]
    exact List.mem_cons_self
  have hkeys : keysOf (pairsTo ['x'] [['a']]) ⊆ keysOf (pairsTo ['x'] [['a'], ['b']]) := by
    intro key hkey
    rw [mem_keysOf_pairsTo (List.cons_ne_nil _ _)] at hkey ⊢
    exact List.mem_append_left [['b']] hkey
  have hnone : (Table.ofColumns ["searge".toList, "name".toList]).ReducedFrom
      (Table.ofText text') := by
    refine ⟨by decide +kernel, List.nil_subset _, fun key column value hvalue => ?_⟩
    cases hvalue
  have hsize : ∀ p, Pattern.Engine.programSize p ≤ Pattern.sizeLimit := fun p => Nat.zero_le _
  have hwhole : (ofTable "fields" (Table.ofText text') "name".toList true).result.isOk = true := by
    decide +kernel
  have hpart := htexts text text' [["a".toList, "x".toList], ["b".toList, "y".toList]]
    (by decide +kernel) (by decide +kernel) (by decide +kernel) (by decide +kernel) hwhole
  refine ⟨htries _ _ (Trie.Reachable.ofList _) (Trie.Reachable.ofList _) hmembers ?_,
    herase _ (Trie.Reachable.ofList _) _ ?_, (hpairs _ _ hkeys (by decide +kernel)).isOk (hsize _),
    (hreduced _ _ hnone hwhole).isOk (hsize _), hwhole, hpart.isOk (hsize _)⟩
  · exact (Trie.shallow_sourceOf_iff _).2 (by decide +kernel)
  · exact (Trie.shallow_sourceOf_iff _).2 (by decide +kernel)

/-! ## Fewer rows, other keys -/

/-- Rows whose keys nest as deeply as the limit allows, and one deeper with a name under `a`. -/
def deepRows : List Text :=
  "b,x".toList :: "ab,x".toList ::
    (List.range 82).map fun i => List.replicate (83 - i) 'a' ++ ",x".toList

def deepText (rows : List Text) : Text :=
  ['\n'].intercalate ("searge,name".toList :: (rows ++ deepRows))

/-- **Fewer rows may nest deeper.** A row with an empty name has taken the key of the row behind it.
Without the former the latter gets its own key, and the pattern of the keys that have a name nests
one deeper: the text with fewer rows does not compile. -/
theorem ofTable_deeper :
    let text := deepText ["a,x".toList]
    let text' := deepText ["a,".toList, "a,x".toList]
    Table.header text = Table.header text' ∧
      Table.dataRows text' = ["a".toList, []] :: Table.dataRows text ∧
      (ofTable "fields" (Table.ofText text') "name".toList true).result.isOk = true ∧
      (ofTable "fields" (Table.ofText text) "name".toList true).result =
        .error (.invalidPattern "fields" .tooDeep) := by
  intro text text'
  refine ⟨by decide +kernel, by decide +kernel, by decide +kernel, ?_⟩
  have hcolumn : ((Table.ofText text).isEmpty ||
      (Table.ofText text).hasColumn "name".toList) = true := by
    decide +kernel
  have hdepth : ¬ (compiled "fields" ((Table.ofText text).columnValues "name".toList)
      true).pattern.depth ≤ Pattern.depthLimit := by
    decide +kernel
  rw [ofTable_result hcolumn, compile_result, Pattern.elim_fault?, if_neg hdepth]

end Mapping

end Unmangle
