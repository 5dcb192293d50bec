import Unmangle.Proofs.Trie.Canonical

set_option autoImplicit false

/-! # Copies that stay apart

`Node.copy` takes the children of a node in the order of their keys; here they can come in any
order. The copying loop keeps a frame for each node on the way down, whose pending and built
children are together those of its source (`CopyFrame.Fits`), and each frame that waits would be
such a frame again with the child that it waits for (`CopyFrame.Awaits`). So every finished frame is
its source, and in the end the whole tree is (`Copying.loopInvariant`).

Two trees are equal when every path leads to nodes in both that look alike, or to none in both
(`Node.alikeEverywhere_iff`). A copy is such a tree, and later operations on other tries leave it as
it is, since an operation changes only one trie (`Trie.history_of_changes_ne`).

The main statement is `Trie.copies_apart`.
-/

namespace Unmangle

/-! ## Children as a map -/

namespace Branches

variable {b d : Branches} {c : Char} {n : Node}

/-- A child under a new key comes to the other children. -/
theorem perm_toList_set (h : ∀ e ∈ b.toList, e.1 ≠ c) :
    (b.set c n).toList.Perm ((c, n) :: b.toList) := by
  induction b with
  | nil => exact List.Perm.refl _
  | cons key label ends below rest _ ih =>
      rw [toList, List.forall_mem_cons] at h
      rw [Branches.set, if_neg (Ne.symm h.1)]
      split
      · exact List.Perm.refl _
      · exact ((ih h.2).cons _).trans (List.Perm.swap _ _ _)

namespace Ordered

theorem set (hb : b.Ordered) (hn : n.below.Ordered) : (b.set c n).Ordered := by
  induction b with
  | nil => exact ⟨List.forall_mem_nil _, hn, trivial⟩
  | cons key label ends below rest _ ih =>
      obtain ⟨hlt, hbelow, hrest⟩ := hb
      rw [Branches.set]
      split
      · rename_i hkey
        exact ⟨hkey ▸ hlt, hn, hrest⟩
      · rename_i hne
        split
        · rename_i hlow
          refine ⟨List.forall_mem_cons.2 ⟨hlow, fun e he => ?_⟩, hn, hlt, hbelow, hrest⟩
          exact lt_trans hlow (hlt e he)
        · rename_i hhigh
          refine ⟨fun e he => ?_, hbelow, ih hrest⟩
          rcases mem_toList_set he with rfl | he
          · exact lt_of_le_of_ne (not_lt.1 hhigh) (Ne.symm hne)
          · exact hlt e he

end Ordered

end Branches

/-! ## Copying in any order -/

namespace CopyFrame

/-- The frame of a node of which nothing is copied yet. Its children wait in any order. -/
structure Starts (f : CopyFrame) (n : Node) : Prop where
  source : f.source = n
  pending : f.pending.Perm n.below.toList
  built : f.built = .nil

/-- The frame of a node of which some children are copied and the others are pending. -/
structure Fits (f : CopyFrame) : Prop where
  source : f.source.below.Ordered
  built : f.built.Ordered
  children : (f.pending ++ f.built.toList).Perm f.source.below.toList

variable {f : CopyFrame} {n : Node} {c : Char} {pending : List (Char × Node)}

theorem starts_start (n : Node) : (start n).Starts n :=
  ⟨rfl, List.reverse_perm _, rfl⟩

theorem Starts.fits (h : f.Starts n) (hn : n.below.Ordered) : f.Fits := by
  obtain ⟨source, pending, built⟩ := f
  obtain ⟨rfl, hpending, rfl⟩ := h
  refine ⟨hn, trivial, ?_⟩
  rw [Branches.toList, List.append_nil]
  exact hpending

theorem Starts.work_eq (h : f.Starts n) : work f.pending = 2 * n.below.count := by
  rw [← work_reverse_toList]
  exact ((h.pending.trans (List.reverse_perm _).symm).map _).sum_nat

/-- A frame without pending children is finished with its source. -/
theorem Fits.finish_eq (h : f.Fits) (hpending : f.pending = []) : f.finish = f.source := by
  have hbelow : f.built = f.source.below := by
    have hchildren := h.children
    rw [hpending, List.nil_append] at hchildren
    exact h.built.eq_of_perm h.source hchildren
  rw [finish, hbelow]

/-- The child at the end of the pending ones can be built. -/
theorem Fits.attach (h : { f with pending := (c, n) :: pending : CopyFrame }.Fits)
    (hn : n.below.Ordered) : { f with pending, built := f.built.set c n : CopyFrame }.Fits := by
  obtain ⟨source, waiting, built⟩ := f
  obtain ⟨hsource, hbuilt, hchildren⟩ := h
  have hfresh : ∀ e ∈ built.toList, e.1 ≠ c := by
    have hnodup : (c :: (pending ++ built.toList).map (·.1)).Nodup :=
      (hchildren.map _).nodup_iff.2 hsource.nodup_keys
    intro e he hkey
    refine (List.nodup_cons.1 hnodup).1 (List.mem_map.2 ⟨e, ?_, hkey⟩)
    exact List.mem_append_right pending he
  refine ⟨hsource, hbuilt.set hn, ?_⟩
  have hset := (Branches.perm_toList_set (n := n) hfresh).append_left pending
  exact hset.trans (List.perm_middle.trans hchildren)

/-- What the frames that wait for a finished node end with. Each of them would fit with the node
that it waits for. -/
def Awaits (total : Node) : Node → List (Char × CopyFrame) → Prop
  | m, [] => m = total
  | m, (c, parent) :: rest =>
      { parent with pending := (c, m) :: parent.pending : CopyFrame }.Fits ∧
        Awaits total parent.source rest

end CopyFrame

/-- The copying loop on its way: the frame at work and the ones that wait for it, each with the key
of the child that it waits for; or the copy that it has ended with. -/
inductive Copying where
  | running (f : CopyFrame) (waiting : List (Char × CopyFrame))
  | done (n : Node)

namespace Copying

open CopyFrame

/-- One step of the loop: it goes down to a pending child, or attaches a finished node to the frame
that waits for it, or is done with the last frame. -/
inductive Step : Copying → Copying → Prop
  | down {source child : Node} {c : Char} {pending : List (Char × Node)} {built : Branches}
      {f : CopyFrame} (waiting : List (Char × CopyFrame)) (hstart : f.Starts child) :
      Step (running ⟨source, (c, child) :: pending, built⟩ waiting)
        (running f ((c, ⟨source, pending, built⟩) :: waiting))
  | attach (source : Node) (built : Branches) (c : Char) (parent : CopyFrame)
      (rest : List (Char × CopyFrame)) :
      Step (running ⟨source, [], built⟩ ((c, parent) :: rest))
        (running { parent with built := parent.built.set c (finish ⟨source, [], built⟩) } rest)
  | finish (source : Node) (built : Branches) :
      Step (running ⟨source, [], built⟩ []) (done (finish ⟨source, [], built⟩))

theorem exists_step (f : CopyFrame) (waiting : List (Char × CopyFrame)) :
    ∃ s, Step (running f waiting) s := by
  obtain ⟨source, pending, built⟩ := f
  cases pending with
  | cons e pending => exact ⟨_, .down waiting (starts_start e.2)⟩
  | nil =>
      cases waiting with
      | cons e rest => exact ⟨_, .attach source built e.1 e.2 rest⟩
      | nil => exact ⟨_, .finish source built⟩

/-- All frames fit, and the loop is to end with a tree. -/
def Makes (total : Node) : Copying → Prop
  | running f waiting => f.Fits ∧ Awaits total f.source waiting
  | done n => n = total

def work : Copying → Nat
  | running f waiting => workAll f waiting + 1
  | done _ => 0

/-- **The copying loop.** It is to end with the same tree all the time, and it does. -/
theorem loopInvariant (total : Node) :
    LoopInvariant Step (· = done total) (Makes total) work where
  kept := by
    intro s s' hmakes hstep
    cases hstep with
    | @down source child c pending built f waiting hstart =>
        obtain ⟨hfits, hawaits⟩ := hmakes
        have hchild : child.below.Ordered := by
          have hmem : (c, child) ∈ source.below.toList :=
            hfits.children.subset List.mem_cons_self
          exact hfits.source.child hmem
        refine ⟨⟨hstart.fits hchild, ?_, ?_⟩, ?_⟩
        · rw [hstart.source]
          exact hfits
        · exact hawaits
        · simp only [work, workAll, List.map_cons, List.sum_cons, hstart.work_eq]
          simp only [CopyFrame.work, List.map_cons, List.sum_cons]
          omega
    | attach source built c parent rest =>
        obtain ⟨hfits, hparent, hawaits⟩ := hmakes
        rw [hfits.finish_eq rfl]
        refine ⟨⟨hparent.attach hfits.source, hawaits⟩, ?_⟩
        simp only [work, workAll, List.map_cons, List.sum_cons]
        omega
    | finish source built =>
        obtain ⟨hfits, hawaits⟩ := hmakes
        exact ⟨(hfits.finish_eq rfl).trans hawaits, Nat.succ_pos _⟩
  ended := by
    intro s hmakes hover
    cases s with
    | done n => exact congrArg done hmakes
    | running f waiting =>
        obtain ⟨s, hstep⟩ := exists_step f waiting
        exact absurd hstep (hover s)

/-- The loop ends with the node that it started with, after two steps for each node below it and one
more. -/
theorem endsWithin {n : Node} (hn : n.below.Ordered) {f : CopyFrame} (hf : f.Starts n) :
    EndsWithin Step (· = done n) (2 * n.below.count + 1) (running f []) := by
  refine (loopInvariant n).endsWithin ⟨hf.fits hn, hf.source⟩ ?_
  simp only [work, workAll, hf.work_eq, List.map_nil, List.sum_nil]
  omega

end Copying

/-! ## Equality along all paths -/

namespace Branches.Ordered

variable {b d : Branches} {c : Char} {n : Node}

theorem mem_toList_iff (hb : b.Ordered) : (c, n) ∈ b.toList ↔ b.find? c = some n :=
  ⟨hb.find?_of_mem, mem_toList_of_find?⟩

/-- Ordered children are determined by what is found under each key. -/
theorem eq_of_find? (hb : b.Ordered) (hd : d.Ordered) (h : ∀ c, b.find? c = d.find? c) : b = d := by
  refine hb.eq_of_perm hd ?_
  rw [List.perm_ext_iff_of_nodup (hb.nodup_keys.of_map _) (hd.nodup_keys.of_map _)]
  rintro ⟨c, n⟩
  rw [hb.mem_toList_iff, hd.mem_toList_iff, h]

end Branches.Ordered

namespace Node

/-- Two nodes that were reached by the same character, with the same mark and with children under
the same keys. -/
structure Alike (a b : Node) : Prop where
  label : a.label = b.label
  ends : a.ends = b.ends
  keys : ∀ c, (a.below.find? c).isSome = (b.below.find? c).isSome

/-- Every path leads to nodes in both trees that look alike, or to none in both. -/
def AlikeEverywhere (a b : Node) : Prop := ∀ q, Option.Rel Alike (a.descend q) (b.descend q)

variable {a b : Node}

theorem AlikeEverywhere.refl (a : Node) : a.AlikeEverywhere a := by
  intro q
  cases a.descend q with
  | none => exact .none
  | some n => exact .some ⟨rfl, rfl, fun _ => rfl⟩

theorem AlikeEverywhere.alike (h : a.AlikeEverywhere b) : a.Alike b := by
  cases h [] with
  | some halike => exact halike

/-- What lies below the children under one key is alike as well. -/
theorem AlikeEverywhere.child {c : Char} {n m : Node} (h : a.AlikeEverywhere b)
    (hn : a.below.find? c = some n) (hm : b.below.find? c = some m) : n.AlikeEverywhere m := by
  intro q
  have hq := h (c :: q)
  rw [descend, descend, hn, hm] at hq
  exact hq

/-- Two trees with ordered children are equal when they are alike along all paths: by induction on
the number of nodes, child by child. -/
theorem alikeEverywhere_iff (ha : a.below.Ordered) (hb : b.below.Ordered) :
    a.AlikeEverywhere b ↔ a = b := by
  constructor
  · intro h
    induction hcount : a.below.count using Nat.strong_induction_on generalizing a b with
    | _ count ih =>
        obtain ⟨hlabel, hends, hkeys⟩ := h.alike
        have hbelow : a.below = b.below := by
          refine ha.eq_of_find? hb fun c => ?_
          have hkey := hkeys c
          cases hn : a.below.find? c with
          | none =>
              rw [hn, Option.isSome_none, eq_comm, Option.isSome_eq_false_iff] at hkey
              exact (Option.isNone_iff_eq_none.1 hkey).symm
          | some n =>
              rw [hn, Option.isSome_some, eq_comm, Option.isSome_iff_exists] at hkey
              obtain ⟨m, hm⟩ := hkey
              have hmem := Branches.mem_toList_of_find? hn
              have hmem' := Branches.mem_toList_of_find? hm
              have hless : n.below.count < count := hcount ▸ Branches.count_lt_of_mem hmem
              have hchild : n = m :=
                ih _ hless (ha.child hmem) (hb.child hmem') (h.child hn hm) rfl
              rw [hm, hchild]
        obtain ⟨label, ends, below⟩ := a
        obtain ⟨label', ends', below'⟩ := b
        simp only at hlabel hends hbelow
        rw [hlabel, hends, hbelow]
  · rintro rfl
    exact .refl a

end Node

/-! ## Operations on other tries -/

namespace Trie

/-- The trie that an operation changes. -/
def Operation.changes : Operation → Nat
  | .insert slot _ => slot
  | .erase slot _ => slot
  | .extend slot _ => slot
  | .collect slot _ => slot
  | .copy _ target => target

theorem Operation.onTries_of_changes_ne {op : Operation} {slot : Nat} (h : op.changes ≠ slot)
    (tries : Nat → Trie) : (op.onTries tries).2 slot = tries slot := by
  cases op <;> exact Function.update_of_ne (Ne.symm h) _ _

theorem Operation.onTries_copy (tries : Nat → Trie) (source target : Nat) :
    ((copy source target).onTries tries).2 = Function.update tries target (tries source) := by
  show Function.update tries target (tries source).copy = _
  rw [copy_eq]

/-- Operations that change other tries leave a trie as it is. -/
theorem history_of_changes_ne {ops : List Operation} {slot : Nat}
    (h : ∀ op ∈ ops, op.changes ≠ slot) (tries : Nat → Trie) :
    (history (fun tries op => op.onTries tries) tries ops).2 slot = tries slot := by
  induction ops generalizing tries with
  | nil => rfl
  | cons op ops ih =>
      obtain ⟨hop, hops⟩ := List.forall_mem_cons.1 h
      exact (ih hops _).trans (op.onTries_of_changes_ne hop tries)

theorem history_append {σ : Type} (perform : σ → Operation → Option Bool × σ) (state : σ)
    (ops later : List Operation) :
    (history perform state (ops ++ later)).2 =
      (history perform (history perform state ops).2 later).2 := by
  induction ops generalizing state with
  | nil => rfl
  | cons op ops ih => exact ih _

/-- The tries on both sides of a copy are the source as it was, until they are changed. -/
theorem after_copy {later : List Operation} {source target slot : Nat} (ops : List Operation)
    (hslot : slot = source ∨ slot = target) (h : ∀ op ∈ later, op.changes ≠ slot) :
    after (ops ++ .copy source target :: later) slot = after ops source := by
  rw [after, history_append, history, history_of_changes_ne h, Operation.onTries_copy,
    Function.update_apply]
  rcases hslot with rfl | rfl
  · exact ite_self _
  · exact if_pos rfl

/-- Two tries compare equal exactly when they have the same members. -/
theorem after_same_iff (ops ops' : List Operation) (slot slot' : Nat) :
    (after ops slot).same (after ops' slot') = true ↔
      ∀ w, (after ops slot).contains w = (after ops' slot').contains w := by
  obtain ⟨s, ht⟩ := after_represents ops slot
  obtain ⟨s', hu⟩ := after_represents ops' slot'
  rw [ht.sound.same_iff hu.sound]
  constructor
  · intro htu w
    rw [htu]
  · intro h
    have hset : s = s' := by
      ext w
      rw [← ht.contains_iff, h, hu.contains_iff]
    exact ht.unique (hset ▸ hu)

/-- **Copies stay apart.** A node tree can be copied with the children of each node in any order:
the loop is over after two steps for each node and then has a tree that is alike along all paths.
Any two trees can be compared so: the loop is over after one step for each node on the left and
answers whether they are alike along all paths.

After a copy both tries compare equal until one of them is changed. Whatever later operations do to
one of them, the other one keeps the members, the size and the pattern that it had, and compares
equal to the changed one only as long as that has these members. -/
theorem copies_apart :
    (∀ n : Node, n.below.Ordered → ∀ f : CopyFrame, f.Starts n →
      EndsWithin Copying.Step (· = .done n.copy) (2 * n.below.count + 1) (.running f []) ∧
      n.copy.AlikeEverywhere n) ∧
    (∀ a b : Node, a.below.Ordered → b.below.Ordered →
      EndsWithin Comparing.Step (fun c => c.answer? = some (a.same b)) (a.below.count + 1)
        (.running [(a, b)]) ∧
      (a.same b = true ↔ a.AlikeEverywhere b)) ∧
    ∀ (ops later : List Operation) (source target : Nat),
      let before := after ops source
      let now := after (ops ++ .copy source target :: later)
      ((∀ op ∈ later, op.changes ≠ source ∧ op.changes ≠ target) →
        (now target).same (now source) = true) ∧
      ∀ kept other, (kept = source ∧ other = target) ∨ (kept = target ∧ other = source) →
        (∀ op ∈ later, op.changes ≠ kept) →
        (∀ w, (now kept).contains w = before.contains w) ∧
        (now kept).size = before.size ∧
        (now kept).pattern = before.pattern ∧
        ((now kept).same (now other) = true ↔ ∀ w, (now other).contains w = before.contains w) := by
  refine ⟨fun n hn f hf => ⟨?_, ?_⟩, fun a b ha hb => ⟨?_, ?_⟩, fun ops later source target => ?_⟩
  · rw [n.copy_eq]
    exact Copying.endsWithin hn hf
  · rw [n.copy_eq]
    exact .refl n
  · exact Node.comparing_endsWithin ha hb _ (Node.same_iff ha hb).symm
  · rw [Node.same_iff ha hb, Node.alikeEverywhere_iff ha hb]
  · intro before now
    refine ⟨fun h => ?_, fun kept other hpair h => ?_⟩
    · have htarget : now target = before := after_copy ops (.inr rfl) fun op hop => (h op hop).2
      have hsource : now source = before := after_copy ops (.inl rfl) fun op hop => (h op hop).1
      rw [htarget, hsource, after_same_iff]
      exact fun w => rfl
    · have hkept : now kept = before := by
        refine after_copy ops ?_ h
        exact hpair.imp And.left And.left
      rw [hkept]
      refine ⟨fun w => rfl, rfl, rfl, ?_⟩
      rw [after_same_iff]
      exact forall_congr' fun w => eq_comm

/-- A copy keeps a word that is taken out of the trie that was copied. -/
theorem copies_apart_words :
    let now := after [.collect 0 ["word".toList, "words".toList, "birds".toList], .copy 0 1,
      .erase 0 "words".toList]
    (now 1).root.copy.AlikeEverywhere (now 1).root ∧
      ¬ (now 1).root.AlikeEverywhere (now 0).root ∧
      (now 1).contains "words".toList = true ∧ (now 1).size = 3 ∧
      (now 1).pattern = "(?:(?:birds|word(?:s)?))".toList ∧ (now 1).same (now 0) = false := by
  intro now
  have hordered : ∀ slot, (now slot).root.below.Ordered := by
    intro slot
    obtain ⟨s, hs⟩ := after_represents _ slot
    exact hs.sound.2.ordered
  obtain ⟨hcopy, hcompare, hlater⟩ := copies_apart
  obtain ⟨-, hcopied⟩ := hcopy _ (hordered 1) _ (CopyFrame.starts_start _)
  obtain ⟨-, hroots⟩ := hcompare _ _ (hordered 1) (hordered 0)
  obtain ⟨hmembers, hsize, hpattern, hsame⟩ := (hlater
    [.collect 0 ["word".toList, "words".toList, "birds".toList]] [.erase 0 "words".toList] 0 1).2
    1 0 (.inr ⟨rfl, rfl⟩) (by decide)
  refine ⟨hcopied, fun h => absurd (hroots.2 h) (by decide), (hmembers _).trans (by decide),
    hsize.trans (by decide), hpattern.trans (by decide), ?_⟩
  rw [← Bool.not_eq_true]
  exact fun h => absurd (hsame.1 h "words".toList) (by decide)

end Trie

end Unmangle
