import Unmangle.Proofs.Decode.Renamed

set_option autoImplicit false

/-! # Renaming back

Where all names are words and no two words get the same new name, a renaming makes one run of each
run and leaves the characters between them as they are (`Renaming.chunks_text_of_words`). The pairs
the other way round then give every new name the old one again, and find no other word to rename in
a text that had none of the new names. So nothing is lost: `Mapping.apply_inverse`.
-/

namespace Unmangle

/-! ## Pairs the other way round -/

namespace Pairs

/-- Keys and values are words, and no two keys have the same value. -/
structure RenamesWords (pairs : Pairs) : Prop where
  words : ∀ key value, pairs.get? key = some value → IsWord key ∧ IsWord value
  injective : ∀ key key' value, pairs.get? key = some value → pairs.get? key' = some value →
    key = key'

def inverse (pairs : Pairs) : Pairs := .ofList (pairs.entries.map Prod.swap)

variable {pairs : Pairs} {key value : Text}

theorem RenamesWords.get?_inverse (h : pairs.RenamesWords) :
    pairs.inverse.get? value = some key ↔ pairs.get? key = some value := by
  have hmem : ∀ {k v : Text}, (v, k) ∈ (pairs.entries.map Prod.swap).reverse ↔
      pairs.get? k = some v := by
    intro k v
    rw [List.mem_reverse, Dict.get?_eq_some_iff]
    exact ⟨fun h => by simpa using h, fun h => by simpa using h⟩
  rw [inverse, Dict.get?_ofList]
  constructor
  · intro hlookup
    exact hmem.1 (Dict.mem_of_lookup hlookup)
  · intro hget
    -- some key is found for the value, and there is only one that has it
    have hsome : ((pairs.entries.map Prod.swap).reverse.lookup value).isSome = true :=
      List.lookup_isSome_iff.2 ⟨(value, key), hmem.2 hget, beq_self_eq_true value⟩
    obtain ⟨found, hfound⟩ := Option.isSome_iff_exists.1 hsome
    have hget' : pairs.get? found = some value := hmem.1 (Dict.mem_of_lookup hfound)
    rw [hfound, h.injective found key value hget' hget]

theorem RenamesWords.value?_eq (h : pairs.RenamesWords) (skipQuoted : Bool) (word : Text) :
    (Renaming.ofPairs pairs skipQuoted).value? word = pairs.get? word := by
  show (pairs.get? word).filter _ = _
  cases hget : pairs.get? word with
  | none => rfl
  | some value =>
      have hne : value ≠ [] := (h.words word value hget).2.1
      simp [hne]

/-- The pairs the other way round are of the same kind. -/
theorem RenamesWords.swap (h : pairs.RenamesWords) : pairs.inverse.RenamesWords := by
  constructor
  case words =>
    intro value key hget
    exact (h.words key value (h.get?_inverse.1 hget)).symm
  case injective =>
    intro value value' key hget hget'
    have hkey := (h.get?_inverse.1 hget).symm.trans (h.get?_inverse.1 hget')
    exact Option.some.inj hkey

end Pairs

/-! ## Names that are words -/

namespace Renaming

variable {r s : Renaming} {t : Text} {part : Chunk}

/-- The part that a part becomes where all names are words. -/
def becomes (r : Renaming) : Chunk → Chunk
  | .other c => .other c
  | .word left run => .word left (r.renamed (.word left run))

theorem becomes_of_not_replaces (h : r.replaces part = false) : r.becomes part = part := by
  cases part with
  | other c => rfl
  | word left run => exact congrArg _ (renamed_of_not_replaces h)

/-- Where all names are words, every part of a text becomes one part. -/
theorem chunks_text_of_words (hwords : ∀ word value, r.value? word = some value → IsWord value)
    (t : Text) : chunks (r.text t) = (chunks t).map r.becomes := by
  have hparts : ∀ part ∈ chunks t, r.parts part = [r.becomes part] := by
    intro part hpart
    cases hreplaces : r.replaces part with
    | true =>
        obtain ⟨left, run, value, rfl, hvalue, hrenamed⟩ := exists_value_of_replaces hreplaces
        rw [parts, becomes, hrenamed]
        exact chunksFrom_word_self (hwords run value hvalue) left
    | false => rw [becomes_of_not_replaces hreplaces, parts_of_not_replaces hpart hreplaces]
  rw [chunks_text, List.flatMap_congr hparts, List.map_eq_flatMap]

/-- One renaming takes another one back: it gives each new name, a word, the old one again, has no
other names, and leaves the same words alone. -/
structure TakesBack (s r : Renaming) : Prop where
  value?_iff : ∀ word value, s.value? value = some word ↔ r.value? word = some value
  words : ∀ word value, r.value? word = some value → IsWord value
  skipQuoted : s.skipQuoted = r.skipQuoted

namespace TakesBack

/-- A part that is renamed is renamed back, and one that is not stays if it is no new name. -/
theorem becomes (h : s.TakesBack r) (hfree : s.replaces part = false) :
    s.replaces (r.becomes part) = r.replaces part ∧ s.renamed (r.becomes part) = part.text := by
  cases hreplaces : r.replaces part with
  | false =>
      rw [becomes_of_not_replaces hreplaces]
      exact ⟨hfree, renamed_of_not_replaces hfree⟩
  | true =>
      obtain ⟨left, run, value, rfl, hvalue, hrenamed⟩ := exists_value_of_replaces hreplaces
      have hback : s.value? value = some run := (h.value?_iff run value).2 hvalue
      -- the new name stands where the old one stood, so the guard lets it through again
      have hquoted : s.quoted (.word left value) = false := by
        rw [replaces, Bool.and_eq_true, Bool.not_eq_true'] at hreplaces
        rw [quoted, h.skipQuoted]
        exact hreplaces.2
      rw [Renaming.becomes, hrenamed]
      constructor
      · rw [replaces, names, hback, hquoted]
        rfl
      · rw [renamed, hquoted, hback]
        rfl

/-- In a text without new names that the guard lets through, renaming and renaming back restores
every part, and as many parts are renamed back as were renamed. -/
theorem text_text (h : s.TakesBack r) (hfree : ∀ part ∈ chunks t, s.replaces part = false) :
    s.text (r.text t) = t ∧ (s.stats (r.text t)).replaced = (r.stats t).replaced := by
  have hchunks := chunks_text_of_words h.words t
  constructor
  · calc s.text (r.text t) = (chunks t).flatMap fun part => s.renamed (r.becomes part) := by
          rw [text, hchunks, List.flatMap_map]
      _ = (chunks t).flatMap Chunk.text :=
          List.flatMap_congr fun part hpart => (h.becomes (hfree part hpart)).2
      _ = t := (chunks_spec t).1
  · show (chunks (r.text t)).countP s.replaces = (chunks t).countP r.replaces
    rw [hchunks, List.countP_map]
    refine List.countP_congr fun part hpart => ?_
    rw [Function.comp_apply, (h.becomes (hfree part hpart)).1]

end TakesBack

/-- The pairs the other way round take a renaming back. -/
theorem takesBack_inverse {pairs : Pairs} (h : pairs.RenamesWords) (skipQuoted : Bool) :
    (ofPairs pairs.inverse skipQuoted).TakesBack (ofPairs pairs skipQuoted) := by
  constructor
  case value?_iff =>
    intro word value
    rw [h.value?_eq, h.swap.value?_eq, h.get?_inverse]
  case words =>
    intro word value hvalue
    rw [h.value?_eq] at hvalue
    exact (h.words word value hvalue).2
  case skipQuoted => rfl

end Renaming

/-! ## Mappings -/

namespace Mapping

theorem Renames.of_renamesWords [Pattern.Engine] {m : Mapping} {pairs : Pairs}
    (h : pairs.RenamesWords) {category : String} {skipQuoted : Bool}
    (hm : (compile category pairs skipQuoted).result = .ok m) :
    m.Renames (.ofPairs pairs skipQuoted) := by
  refine ⟨_, category, pairs, skipQuoted, hm, fun key hkey => ?_, rfl⟩
  have hcontains : (keysOf pairs).contains key = true := List.contains_iff_mem.2 hkey
  rw [contains_keysOf pairs skipQuoted, h.value?_eq, Option.isSome_iff_exists] at hcontains
  obtain ⟨value, hvalue⟩ := hcontains
  exact (h.words key value hvalue).1

/-- **Renaming back.** A mapping whose keys and values are words, no two keys with the same value,
and the mapping of the pairs the other way round, which leaves the same words alone: in a text where
no run is a value, or only runs that are left alone after a double quote, the second mapping
restores what the first one changed, and both replace as many words. -/
theorem apply_inverse [Pattern.Engine] (pairs : Pairs) (hpairs : pairs.RenamesWords)
    (skipQuoted : Bool) (category category' : String) (m n : Mapping)
    (hm : (compile category pairs skipQuoted).result = .ok m)
    (hn : (compile category' pairs.inverse skipQuoted).result = .ok n) (t : Text)
    (hfree : ∀ left run, .word left run ∈ chunks t → (skipQuoted && left == some '"') = false →
      ∀ key, pairs.get? key ≠ some run) :
    let out := (m.apply t).1.getD t
    (n.apply out).1.getD out = t ∧ (n.apply out).2.replaced = (m.apply t).2.replaced := by
  intro out
  have hrenames := Renames.of_renamesWords hpairs hm
  have hback := Renames.of_renamesWords hpairs.swap hn
  have hnone : ∀ part ∈ chunks t,
      (Renaming.ofPairs pairs.inverse skipQuoted).replaces part = false := by
    intro part hpart
    refine Bool.eq_false_iff.2 fun hreplaces => ?_
    have hguard : (Renaming.ofPairs pairs.inverse skipQuoted).quoted part = false := by
      rw [Renaming.replaces, Bool.and_eq_true, Bool.not_eq_true'] at hreplaces
      exact hreplaces.2
    obtain ⟨left, run, key, rfl, hkey, -⟩ := Renaming.exists_value_of_replaces hreplaces
    rw [hpairs.swap.value?_eq, hpairs.get?_inverse] at hkey
    exact hfree left run hpart hguard key hkey
  have hout : out = (Renaming.ofPairs pairs skipQuoted).text t := hrenames.getD_apply t
  obtain ⟨htext, hcount⟩ := (Renaming.takesBack_inverse hpairs skipQuoted).text_text hnone
  rw [hback.getD_apply, hback.apply_eq, hrenames.apply_eq, hout]
  exact ⟨htext, hcount⟩

/-- Two words of which one gets the name of the other one; where a name stands after a double quote
it is left alone both times. -/
theorem apply_inverse_chain :
    let pairs : Pairs := Dict.ofList [("a".toList, "b".toList), ("b".toList, "c".toList)]
    let t := "a+\"b \"c a".toList
    let out := "b+\"b \"c b".toList
    ∃ m n : Mapping, pairs.RenamesWords ∧
      (compile "fields" pairs true).result = .ok m ∧
      (compile "fields" pairs.inverse true).result = .ok n ∧
      (m.apply t).1 = some out ∧ (n.apply out).1.getD out = t ∧
      (n.apply out).2.replaced = (m.apply t).2.replaced := by
  intro pairs t out
  have hpairs : pairs.RenamesWords := by
    constructor
    case words =>
      intro key value hget
      have hall : ∀ e ∈ pairs.entries, IsWord e.1 ∧ IsWord e.2 := by decide
      exact hall (key, value) (Dict.mem_of_get? hget)
    case injective =>
      intro key key' value hget hget'
      have hall : ∀ e ∈ pairs.entries, ∀ e' ∈ pairs.entries, e.2 = e'.2 → e.1 = e'.1 := by decide
      exact hall (key, value) (Dict.mem_of_get? hget) (key', value) (Dict.mem_of_get? hget') rfl
  have hm : (compile "fields" pairs true).result = .ok (compiled "fields" pairs true) :=
    compile_of_fault? (by decide)
  have hn : (compile "fields" pairs.inverse true).result =
      .ok (compiled "fields" pairs.inverse true) := compile_of_fault? (by decide)
  have hout : ((compiled "fields" pairs true).apply t).1 = some out := by decide +kernel
  -- the only runs that are not left alone are `a`, which is no value
  have hfree : ∀ left run, .word left run ∈ chunks t →
      (true && left == some '"') = false → ∀ key, pairs.get? key ≠ some run := by
    intro left run hpart hguard key hget
    have hall : ∀ part ∈ chunks t, ∀ e ∈ pairs.entries,
        (Renaming.ofPairs pairs true).quoted part = false → part.run? ≠ some e.2 := by
      decide +kernel
    exact hall _ hpart _ (Dict.mem_of_get? hget) hguard rfl
  have hback := apply_inverse pairs hpairs true "fields" "fields" _ _ hm hn t hfree
  rw [hout, Option.getD_some] at hback
  exact ⟨_, _, hpairs, hm, hn, hout, hback⟩

end Mapping

end Unmangle
