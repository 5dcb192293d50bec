import Unmangle.Proofs.Decode.Renamed

set_option autoImplicit false

/-! # Decoding a decoded text

Mappings whose values bring in none of their keys leave nothing to do: after each one, no part of the
text gets a new name from it or from one that ran before it (`Renaming.Settled.text`). So in the
decoded text a key stands only where its mapping leaves it alone, after a double quote, and decoding
it again changes nothing. The main statement is `Decoder.decode_idempotent`.
-/

namespace Unmangle

namespace Renaming

/-- No part of a text gets a new name from one of some renamings. -/
def Settled (rs : List Renaming) (t : Text) : Prop :=
  ∀ r ∈ rs, ∀ part ∈ chunks t, r.replaces part = false

/-- One renaming: what it makes of the text, neither it nor the ones that ran before replace. -/
theorem Settled.text {r : Renaming} {done : List Renaming} {t : Text} (h : Settled done t)
    (havoids : ∀ s ∈ r :: done, r.Avoids s) : Settled (r :: done) (r.text t) := by
  intro s hs part hpart
  refine Bool.eq_false_iff.2 fun hreplaces => ?_
  -- such a part was there before, and the renaming passed it over
  obtain ⟨hold, hpassed⟩ := (havoids s hs).mem_chunks hpart hreplaces
  rcases List.mem_cons.1 hs with rfl | hs
  · rw [hpassed] at hreplaces
    cases hreplaces
  · rw [h s hs part hold] at hreplaces
    cases hreplaces

/-- All renamings: by induction on the ones that are still to run. -/
theorem Settled.foldl_text {rs done : List Renaming} {t : Text} (h : Settled done t)
    (havoids : ∀ r ∈ rs, ∀ s ∈ rs ++ done, r.Avoids s) :
    Settled (rs ++ done) (rs.foldl (fun text r => r.text text) t) := by
  induction rs generalizing done t with
  | nil => exact h
  | cons r rs ih =>
      have hmem : ∀ s, s ∈ r :: rs ++ done ↔ s ∈ rs ++ r :: done := by
        intro s
        rw [List.cons_append]
        exact List.perm_middle.symm.mem_iff
      have hfirst : Settled (r :: done) (r.text t) :=
        h.text fun s hs => havoids r List.mem_cons_self s ((hmem s).2 (List.mem_append_right _ hs))
      have hrest : ∀ r' ∈ rs, ∀ s ∈ rs ++ r :: done, r'.Avoids s :=
        fun r' hr' s hs => havoids r' (List.mem_cons_of_mem _ hr') s ((hmem s).2 hs)
      intro s hs
      exact ih hfirst hrest s ((hmem s).1 hs)

/-- Renamings leave a text alone that has no part for them to replace. -/
theorem Settled.foldl_eq {rs : List Renaming} {t : Text} (h : Settled rs t) :
    rs.foldl (fun text r => r.text text) t = t ∧ (totals rs t).replaced = 0 := by
  induction rs with
  | nil => exact ⟨rfl, rfl⟩
  | cons r rs ih =>
      obtain ⟨hr, hrest⟩ := List.forall_mem_cons.1 h
      obtain ⟨htext, hcount⟩ := text_of_not_replaces hr
      obtain ⟨hfold, htotals⟩ := ih hrest
      rw [List.foldl_cons, totals_cons, htext]
      refine ⟨hfold, ?_⟩
      show (r.stats t).replaced + (totals rs t).replaced = 0
      rw [hcount, htotals]

end Renaming

namespace Decoder

/-- **Decoding twice.** Where all keys are words and no run of a value is a key, a key in a decoded
text stands directly after a double quote, and each mapping that has it leaves it alone there;
decoding the text again gives the same text and replaces nothing. -/
theorem decode_idempotent (d : Decoder) (hd : ∀ m ∈ d, m.HasWordKeys)
    (havoids : ∀ m ∈ d, ∀ n ∈ d, m.Avoids n) (t : Text) :
    (∀ m ∈ d, ∀ left run, .word left run ∈ chunks (d.decode t).1 →
      run ∈ m.replacements.keys → m.skipQuoted = true ∧ left = some '"') ∧
    (d.decode (d.decode t).1).1 = (d.decode t).1 ∧
    (d.decode (d.decode t).1).2.replaced = 0 := by
  have hsettled : Renaming.Settled (d.map Mapping.toRenaming) (d.decode t).1 := by
    have hempty : Renaming.Settled [] t := List.forall_mem_nil _
    have hclean : ∀ r ∈ d.map Mapping.toRenaming, ∀ s ∈ d.map Mapping.toRenaming ++ [],
        r.Avoids s := by
      intro r hr s hs
      rw [List.append_nil] at hs
      obtain ⟨m, hm, rfl⟩ := List.mem_map.1 hr
      obtain ⟨n, hn, rfl⟩ := List.mem_map.1 hs
      exact (havoids m hm n hn).toRenaming
    have hrun := hempty.foldl_text hclean
    rw [List.append_nil] at hrun
    rw [decode_eq_foldl_text hd]
    exact hrun
  refine ⟨fun m hm left run hpart hkey => ?_, ?_⟩
  · have hspared := hsettled m.toRenaming (List.mem_map.2 ⟨m, hm, rfl⟩) _ hpart
    have hnames : m.toRenaming.names (.word left run) = true := by
      obtain ⟨value, hvalue⟩ := Dict.mem_keys_iff.1 hkey
      exact Option.isSome_iff_exists.2 ⟨value, hvalue⟩
    rw [Renaming.replaces, hnames, Bool.true_and, Bool.not_eq_false'] at hspared
    simpa [Renaming.quoted, Mapping.toRenaming] using hspared
  · rw [decode_eq_foldl_text hd (d.decode t).1]
    exact hsettled.foldl_eq

/-- Values with a quote at their start, between them and at their end, and mappings of which only the
first one leaves quoted words alone. -/
theorem decode_idempotent_quotes :
    let m := Mapping.compiled "fields" (Dict.ofList [(['a'], "\"x\"y\"".toList)]) true
    let n := Mapping.compiled "methods" (Dict.ofList [(['b'], "z\"".toList)]) false
    (∀ k ∈ [m, n], k.HasWordKeys) ∧ (∀ k ∈ [m, n], ∀ l ∈ [m, n], k.Avoids l) ∧
      (decode [m, n] "\"a a+b \"b".toList).1 = "\"a \"x\"y\"+z\" \"z\"".toList ∧
      (decode [m, n] "\"a \"x\"y\"+z\" \"z\"".toList).1 = "\"a \"x\"y\"+z\" \"z\"".toList ∧
      (decode [m, n] "\"a \"x\"y\"+z\" \"z\"".toList).2.replaced = 0 := by
  intro m n
  have hm : m.HasWordKeys := Mapping.hasWordKeys_compiled (by decide) (by decide)
  have hn : n.HasWordKeys := Mapping.hasWordKeys_compiled (by decide) (by decide)
  have hd := List.forall_mem_cons.2 ⟨hm, List.forall_mem_singleton.2 hn⟩
  have havoids : ∀ k ∈ [m, n], ∀ l ∈ [m, n], k.Avoids l := by decide +kernel
  have hout : (decode [m, n] "\"a a+b \"b".toList).1 = "\"a \"x\"y\"+z\" \"z\"".toList := by
    decide +kernel
  refine ⟨hd, havoids, hout, ?_⟩
  rw [← hout]
  exact (decode_idempotent [m, n] hd havoids _).2

end Decoder

end Unmangle
