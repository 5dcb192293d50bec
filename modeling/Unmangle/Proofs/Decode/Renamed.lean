import Unmangle.Proofs.Decode.Spans

set_option autoImplicit false

/-! # The parts of a renamed text

A renaming goes through a text part by part, and so do the parts of the text that it makes: what a
run becomes stands between characters that are no word characters, so no run of the new text goes
across its ends, and no other run gets another neighbour (`Renaming.chunks_text`).

Where the values of a renaming have no run that another one names (`Renaming.Avoids`), the other one
finds in the new text only runs that were there before, with the same character before them. What
lists of mappings do when they are repeated or reordered follows from this.
-/

namespace Unmangle

namespace Renaming

/-! ## One part -/

/-- Whether a part gets a new name. -/
def replaces (r : Renaming) (part : Chunk) : Bool := r.names part && !r.quoted part

/-- The parts of what a part becomes. -/
def parts (r : Renaming) : Chunk → List Chunk
  | .other c => [.other c]
  | .word left run => chunksFrom left (r.renamed (.word left run))

variable {r s : Renaming} {t : Text} {part : Chunk}

theorem replaces_eq_false (h : r.names part = false) : r.replaces part = false := by
  rw [replaces, h, Bool.false_and]

theorem renamed_of_not_replaces (h : r.replaces part = false) : r.renamed part = part.text := by
  cases part with
  | other c => rfl
  | word left run =>
      rw [renamed]
      cases hquoted : r.quoted (.word left run) with
      | true => rfl
      | false =>
          have hnames : (r.value? run).isSome = false := by simpa [replaces, names, hquoted] using h
          rw [Option.isSome_eq_false_iff, Option.isNone_iff_eq_none] at hnames
          rw [hnames]
          rfl

/-- A part that gets a new name is a run, and becomes its value. -/
theorem exists_value_of_replaces (h : r.replaces part = true) :
    ∃ left run value, part = .word left run ∧ r.value? run = some value ∧
      r.renamed part = value := by
  rw [replaces, Bool.and_eq_true, Bool.not_eq_true'] at h
  cases part with
  | other c => cases h.1
  | word left run =>
      obtain ⟨value, hvalue⟩ := Option.isSome_iff_exists.1 h.1
      refine ⟨left, run, value, rfl, hvalue, ?_⟩
      rw [renamed, h.2, hvalue]
      rfl

theorem flatMap_text_parts (r : Renaming) (part : Chunk) :
    (r.parts part).flatMap Chunk.text = r.renamed part := by
  cases part with
  | other c => rfl
  | word left run => exact chunksFrom_text left _

/-- A part that gets no new name stays one part. -/
theorem parts_of_not_replaces (hpart : part ∈ chunks t) (h : r.replaces part = false) :
    r.parts part = [part] := by
  cases part with
  | other c => rfl
  | word left run =>
      rw [parts, renamed_of_not_replaces h]
      exact chunksFrom_word_self (isWord_of_mem_chunks hpart) left

/-! ## All parts -/

/-- The parts of a renamed text are those of what the parts of the text become: by induction on the
parts, from any place. -/
theorem chunksFrom_renamed (r : Renaming) (left : Option Char) (t : Text) :
    chunksFrom left ((chunksFrom left t).flatMap r.renamed) =
      (chunksFrom left t).flatMap r.parts := by
  -- what is no run stays, so what follows a run still starts with no word character
  have hedge : ∀ (left : Option Char) (t : Text), inWord t.head? = false →
      inWord ((chunksFrom left t).flatMap r.renamed).head? = false := by
    intro left t h
    cases t with
    | nil => rw [chunksFrom]; rfl
    | cons c rest =>
        have hc : ¬ isWordChar c = true := Bool.eq_false_iff.1 h
        rw [chunksFrom, if_neg hc]
        exact h
  fun_induction chunksFrom left t with
  | case1 left => rw [List.flatMap_nil, List.flatMap_nil, chunksFrom]
  | case2 left c rest hc run ih =>
      have hrest := hedge run.getLast? _ (inWord_dropWhile rest)
      rw [List.flatMap_cons, List.flatMap_cons, chunksFrom_append hrest, ← ih,
        chunksFrom_of_not_inWord hrest none run.getLast?]
      rfl
  | case3 left c rest hc ih =>
      have hcons : (Chunk.other c :: chunksFrom (some c) rest).flatMap r.renamed =
          c :: (chunksFrom (some c) rest).flatMap r.renamed := rfl
      rw [hcons, chunksFrom, if_neg hc, ih]
      rfl

theorem chunks_text (r : Renaming) (t : Text) : chunks (r.text t) = (chunks t).flatMap r.parts :=
  chunksFrom_renamed r none t

/-- A text in which no part gets a new name stays as it is, and nothing is counted as replaced. -/
theorem text_of_not_replaces (h : ∀ part ∈ chunks t, r.replaces part = false) :
    r.text t = t ∧ (r.stats t).replaced = 0 := by
  constructor
  · calc r.text t = (chunks t).flatMap Chunk.text :=
          List.flatMap_congr fun part hpart => renamed_of_not_replaces (h part hpart)
      _ = t := (chunks_spec t).1
  · refine List.countP_eq_zero.2 fun part hpart => ?_
    rw [Bool.not_eq_true]
    exact h part hpart

/-! ## Renamings that avoid each other -/

/-- The values of a renaming have no run that another renaming names. -/
def Avoids (r s : Renaming) : Prop :=
  ∀ word value, r.value? word = some value → ∀ run ∈ runs value, s.value? run = none

/-- In what a run becomes, a renaming that is avoided names nothing. -/
theorem Avoids.names_eq_false (h : r.Avoids s) (hreplaces : r.replaces part = true) :
    ∀ p ∈ r.parts part, s.names p = false := by
  obtain ⟨left, run, value, rfl, hvalue, hrenamed⟩ := exists_value_of_replaces hreplaces
  intro p hp
  rw [parts, hrenamed] at hp
  cases p with
  | other c => rfl
  | word left' run' =>
      have hrun : run' ∈ runs value := by
        rw [← filterMap_run?_chunksFrom left]
        exact List.mem_filterMap.2 ⟨_, hp, rfl⟩
      rw [names, h run value hvalue run' hrun]
      rfl

/-- What a renaming that is avoided replaces in the new text, it found in the old one, and there it
was not replaced. -/
theorem Avoids.mem_chunks (h : r.Avoids s) {p : Chunk} (hp : p ∈ chunks (r.text t))
    (hreplaces : s.replaces p = true) : p ∈ chunks t ∧ r.replaces p = false := by
  rw [chunks_text] at hp
  obtain ⟨part, hpart, hp⟩ := List.mem_flatMap.1 hp
  cases hold : r.replaces part with
  | true =>
      rw [replaces_eq_false (h.names_eq_false hold p hp)] at hreplaces
      cases hreplaces
  | false =>
      rw [parts_of_not_replaces hpart hold] at hp
      obtain rfl := List.mem_singleton.1 hp
      exact ⟨hpart, hold⟩

end Renaming

/-! ## The renaming of a mapping -/

namespace Mapping

def HasWordKeys (m : Mapping) : Prop :=
  m.IsCompiled ∧ ∀ key ∈ m.replacements.keys, IsWord key

theorem hasWordKeys_compiled {category : String} {pairs : Pairs} {skipQuoted : Bool}
    (hdepth : (compiled category pairs skipQuoted).pattern.depth ≤ Pattern.depthLimit)
    (hwords : ∀ key ∈ keysOf pairs, IsWord key) :
    (compiled category pairs skipQuoted).HasWordKeys :=
  ⟨isCompiled_compiled hdepth, hwords⟩

/-- The values of a mapping have no run that is a key of another mapping. -/
def Avoids (m n : Mapping) : Prop :=
  ∀ key value, m.replacements.get? key = some value →
    ∀ run ∈ runs value, run ∉ n.replacements.keys

instance (m n : Mapping) : Decidable (m.Avoids n) :=
  decidable_of_iff (∀ entry ∈ m.replacements.entries, ∀ run ∈ runs entry.2,
      n.replacements.contains run = false)
    ⟨fun h key value hvalue run hrun =>
        Dict.contains_eq_false_iff.1 (h (key, value) (Dict.mem_of_get? hvalue) run hrun),
      fun h entry hentry run hrun =>
        Dict.contains_eq_false_iff.2 (h entry.1 entry.2 (Dict.get?_eq_some_iff.2 hentry) run hrun)⟩

def toRenaming (m : Mapping) : Renaming where
  value? := m.replacements.get?
  skipQuoted := m.skipQuoted

theorem HasWordKeys.renames {m : Mapping} (h : m.HasWordKeys) : m.Renames m.toRenaming := by
  obtain ⟨⟨_, category, pairs, skipQuoted, hcompile⟩, hwords⟩ := h
  obtain rfl := eq_compiled hcompile
  refine ⟨_, category, pairs, skipQuoted, hcompile, hwords, ?_⟩
  have hget : (compiled category pairs skipQuoted).replacements.get? =
      (Renaming.ofPairs pairs skipQuoted).value? := funext fun word => Dict.get?_filter _ _ word
  rw [toRenaming, hget]
  rfl

theorem value?_toRenaming_eq_none_iff {m : Mapping} {word : Text} :
    m.toRenaming.value? word = none ↔ word ∉ m.replacements.keys := by
  rw [Dict.mem_keys_iff, ← Option.isSome_iff_exists, Option.not_isSome_iff_eq_none]
  rfl

theorem Avoids.toRenaming {m n : Mapping} (h : m.Avoids n) :
    m.toRenaming.Avoids n.toRenaming :=
  fun key value hvalue run hrun => value?_toRenaming_eq_none_iff.2 (h key value hvalue run hrun)

end Mapping

namespace Decoder

variable {d : Decoder}

/-- A list of mappings with words as their keys applies their renamings one after another. -/
theorem decode_eq_foldl_text (hd : ∀ m ∈ d, m.HasWordKeys) (t : Text) :
    d.decode t = ((d.map Mapping.toRenaming).foldl (fun text r => r.text text) t,
      Renaming.totals (d.map Mapping.toRenaming) t) := by
  have hrenames : List.Forall₂ Mapping.Renames d (d.map Mapping.toRenaming) := by
    rw [List.forall₂_map_right_iff, List.forall₂_same]
    exact fun m hm => (hd m hm).renames
  have hsteps := foldl_step hrenames t .zero
  rw [Stats.zero_add] at hsteps
  exact hsteps

end Decoder

end Unmangle
