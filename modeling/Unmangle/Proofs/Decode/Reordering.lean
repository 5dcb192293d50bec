import Mathlib.Algebra.Group.Basic
import Mathlib.Data.List.Pairwise
import Unmangle.Proofs.Decode.Renamed

set_option autoImplicit false

/-! # The order of mappings

Two renamings are independent if no word has a new name in both and the values of each one have no
run that the other one names. The second of them finds in the text that the first one makes the same
runs to replace and to leave alone as in the text before (`Renaming.Independent.stats_text`), and
both orders make the same text (`Renaming.Independent.text_comm`). So a list of mappings that are
independent of each other can be put in any order: `Decoder.decode_perm`.
-/

namespace Unmangle

namespace Renaming

/-- No word has a new name in both renamings, and the values of neither have a run that the other
one names. -/
structure Independent (r s : Renaming) : Prop where
  disjoint : ∀ word, r.value? word = none ∨ s.value? word = none
  avoids : r.Avoids s
  avoided : s.Avoids r

namespace Independent

variable {r s : Renaming} {t : Text} {part : Chunk}

theorem symm (h : r.Independent s) : s.Independent r :=
  ⟨fun word => (h.disjoint word).symm, h.avoided, h.avoids⟩

theorem names_eq_false (h : r.Independent s) (hreplaces : r.replaces part = true) :
    s.names part = false := by
  obtain ⟨left, run, value, rfl, hvalue, -⟩ := exists_value_of_replaces hreplaces
  have hnone : s.value? run = none := by
    refine (h.disjoint run).resolve_left fun hnone => ?_
    rw [hvalue] at hnone
    cases hnone
  rw [names, hnone]
  rfl

/-- A part that one renaming replaces, the other one leaves as it becomes. -/
theorem flatMap_renamed_parts (h : r.Independent s) (hreplaces : r.replaces part = true) :
    (r.parts part).flatMap s.renamed = r.renamed part := by
  calc (r.parts part).flatMap s.renamed = (r.parts part).flatMap Chunk.text := by
        refine List.flatMap_congr fun p hp => renamed_of_not_replaces ?_
        exact replaces_eq_false (h.avoids.names_eq_false hreplaces p hp)
    _ = r.renamed part := r.flatMap_text_parts part

/-- One part, with a renaming and then the other one: whichever replaces it tells what it becomes. -/
theorem renamed_comm (h : r.Independent s) (hpart : part ∈ chunks t) :
    (r.parts part).flatMap s.renamed = (s.parts part).flatMap r.renamed := by
  cases hr : r.replaces part with
  | true =>
      have hs : s.replaces part = false := replaces_eq_false (h.names_eq_false hr)
      rw [h.flatMap_renamed_parts hr, parts_of_not_replaces hpart hs, List.flatMap_singleton]
  | false =>
      rw [parts_of_not_replaces hpart hr, List.flatMap_singleton]
      cases hs : s.replaces part with
      | true => rw [h.symm.flatMap_renamed_parts hs]
      | false =>
          rw [parts_of_not_replaces hpart hs, List.flatMap_singleton, renamed_of_not_replaces hr,
            renamed_of_not_replaces hs]

/-- Both orders make the same text. -/
theorem text_comm (h : r.Independent s) (t : Text) : s.text (r.text t) = r.text (s.text t) := by
  have hparts : ∀ r s : Renaming, s.text (r.text t) =
      (chunks t).flatMap fun part => (r.parts part).flatMap s.renamed := by
    intro r s
    rw [text, chunks_text, List.flatMap_assoc]
  rw [hparts, hparts]
  exact List.flatMap_congr fun part hpart => h.renamed_comm hpart

/-- Runs that a renaming names are counted alike before and after an independent one. -/
theorem countP_flatMap_parts (h : r.Independent s) (count : Chunk → Bool) {ps : List Chunk}
    (hps : ∀ part ∈ ps, part ∈ chunks t) :
    (ps.flatMap r.parts).countP (fun p => s.names p && count p) =
      ps.countP fun p => s.names p && count p := by
  induction ps with
  | nil => rfl
  | cons part ps ih =>
      obtain ⟨hpart, hps⟩ := List.forall_mem_cons.1 hps
      have hfirst : (r.parts part).countP (fun p => s.names p && count p) =
          [part].countP fun p => s.names p && count p := by
        cases hr : r.replaces part with
        | true =>
            -- neither the part nor what it becomes is named
            have hnone : (r.parts part).countP (fun p => s.names p && count p) = 0 := by
              refine List.countP_eq_zero.2 fun p hp => ?_
              rw [h.avoids.names_eq_false hr p hp]
              exact Bool.false_ne_true
            simp [hnone, h.names_eq_false hr]
        | false => rw [parts_of_not_replaces hpart hr]
      rw [List.flatMap_cons, List.countP_append, ih hps, hfirst, ← List.countP_append]
      rfl

/-- A renaming counts the same before and after an independent one. -/
theorem stats_text (h : r.Independent s) (t : Text) : s.stats (r.text t) = s.stats t := by
  have hcount : ∀ count : Chunk → Bool, (chunks (r.text t)).countP (fun p => s.names p && count p) =
      (chunks t).countP fun p => s.names p && count p := by
    intro count
    rw [chunks_text]
    exact h.countP_flatMap_parts count fun part hpart => hpart
  exact congrArg₂ Stats.mk (hcount fun p => !s.quoted p) (hcount s.quoted)

end Independent

end Renaming

/-! ## Mappings -/

namespace Mapping

/-- No key is one of both mappings, and the values of neither have a run that is a key of the other
one. -/
structure Independent (m n : Mapping) : Prop where
  disjoint : ∀ key ∈ m.replacements.keys, key ∉ n.replacements.keys
  avoids : m.Avoids n
  avoided : n.Avoids m

theorem Independent.toRenaming {m n : Mapping} (h : m.Independent n) :
    m.toRenaming.Independent n.toRenaming := by
  refine ⟨fun word => ?_, h.avoids.toRenaming, h.avoided.toRenaming⟩
  rw [value?_toRenaming_eq_none_iff, value?_toRenaming_eq_none_iff]
  by_cases hword : word ∈ m.replacements.keys
  · exact Or.inr (h.disjoint word hword)
  · exact Or.inl hword

instance : Std.Symm Independent where
  symm _ _ h := ⟨fun key hn hm => h.disjoint key hm hn, h.avoided, h.avoids⟩

instance (m n : Mapping) : Decidable (m.Independent n) :=
  decidable_of_iff ((∀ key ∈ m.replacements.keys, n.replacements.contains key = false) ∧
      m.Avoids n ∧ n.Avoids m)
    ⟨fun h => ⟨fun key hkey => Dict.contains_eq_false_iff.1 (h.1 key hkey), h.2.1, h.2.2⟩,
      fun h => ⟨fun key hkey => Dict.contains_eq_false_iff.2 (h.disjoint key hkey), h.avoids,
        h.avoided⟩⟩

end Mapping

namespace Decoder

/-- Two steps with independent mappings, in both orders. -/
theorem step_comm {m n : Mapping} (hm : m.HasWordKeys) (hn : n.HasWordKeys)
    (h : m.Independent n) (state : Text × Stats) :
    step n (step m state) = step m (step n state) := by
  obtain ⟨t, stats⟩ := state
  have hindependent := h.toRenaming
  rw [step_renames hm.renames, step_renames hn.renames, step_renames hn.renames,
    step_renames hm.renames, hindependent.text_comm, hindependent.stats_text,
    hindependent.symm.stats_text, add_right_comm]

/-- **The order of mappings.** Where all keys are words, no key is in two mappings, and no run of a
value is a key of another mapping, mappings decode every text alike in any order, and count alike. -/
theorem decode_perm (d e : Decoder) (hd : ∀ m ∈ d, m.HasWordKeys)
    (hindependent : d.Pairwise Mapping.Independent) (h : d.Perm e) (t : Text) :
    d.decode t = e.decode t := by
  refine h.foldl_eq' (fun m hm n hn state => ?_) (t, Stats.zero)
  by_cases heq : m = n
  · rw [heq]
  · exact step_comm (hd m hm) (hd n hn) (hindependent.forall hm hn heq) state

/-- Three mappings of which one leaves quoted words alone; one has a value with its own key, and
one has a value that ends in a quote. -/
theorem decode_perm_rotated :
    let m := Mapping.compiled "fields" (Dict.ofList [(['a'], "a+x".toList)]) false
    let n := Mapping.compiled "methods" (Dict.ofList [(['b'], "z".toList)]) true
    let k := Mapping.compiled "classes" (Dict.ofList [(['c'], "y\"".toList)]) false
    (∀ l ∈ [m, n, k], l.HasWordKeys) ∧ [m, n, k].Pairwise Mapping.Independent ∧
      decode [m, n, k] "a\"b c".toList = ("a+x\"b y\"".toList, ⟨2, 1⟩) ∧
      decode [k, m, n] "a\"b c".toList = ("a+x\"b y\"".toList, ⟨2, 1⟩) := by
  intro m n k
  have hm : m.HasWordKeys := Mapping.hasWordKeys_compiled (by decide) (by decide)
  have hn : n.HasWordKeys := Mapping.hasWordKeys_compiled (by decide) (by decide)
  have hk : k.HasWordKeys := Mapping.hasWordKeys_compiled (by decide) (by decide)
  have hd := List.forall_mem_cons.2
    ⟨hm, List.forall_mem_cons.2 ⟨hn, List.forall_mem_singleton.2 hk⟩⟩
  have hindependent : [m, n, k].Pairwise Mapping.Independent := by decide +kernel
  have hout : decode [m, n, k] "a\"b c".toList = ("a+x\"b y\"".toList, ⟨2, 1⟩) := by
    decide +kernel
  refine ⟨hd, hindependent, hout, ?_⟩
  have hperm : [m, n, k].Perm [k, m, n] := @List.perm_append_comm _ [m, n] [k]
  rw [← decode_perm _ _ hd hindependent hperm, hout]

end Decoder

end Unmangle
