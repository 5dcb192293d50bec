import Mathlib.Tactic.Common
import Unmangle.Pattern.Basic

set_option autoImplicit false

/-! # The depth of sequences and choices

A sequence of items and a choice among alternatives are chains: however long, a chain of two or more
counts once on top of the deepest of its links, and a single link stands for itself. This holds as
long as no link is a chain of the same kind (`Pattern.depth_sequence`, `Pattern.depth_choices`).
-/

namespace Unmangle.Pattern

def deepest (ps : List Pattern) : Nat := ps.foldr (fun p d => max p.depth d) 0

@[simp] theorem deepest_nil : deepest [] = 0 := rfl

@[simp] theorem deepest_cons (p : Pattern) (ps : List Pattern) :
    deepest (p :: ps) = max p.depth (deepest ps) := rfl

/-- What a number of links counts on top of the deepest one. -/
def chainDepth (links : Nat) : Nat := if 2 ≤ links then 1 else 0

/-- A link of a chain of some kind: its depth is the same inside the chain as alone. -/
def LinkOf (kind : Chain) (p : Pattern) : Prop := p.depthIn kind = p.depth

/-! ## Chains of one kind -/

section Chains

variable {kind : Chain} {join : Pattern → Pattern → Pattern} {chain : List Pattern → Pattern}
  (hnil : chain [] = .empty) (hone : ∀ p, chain [p] = p)
  (hcons : ∀ p q rest, chain (p :: q :: rest) = join p (chain (q :: rest)))
  (hjoin : ∀ p q outer, (join p q).depthIn outer =
    max p.depth (q.depthIn kind) + if outer = kind then 0 else 1)

include hnil hone hcons hjoin

/-- Where a chain goes on, only its links count. -/
theorem depthIn_chain {links : List Pattern} (h : ∀ p ∈ links, LinkOf kind p) :
    (chain links).depthIn kind = deepest links := by
  induction links with
  | nil =>
      rw [hnil]
      rfl
  | cons p rest ih =>
      cases rest with
      | nil =>
          rw [hone, h p List.mem_cons_self]
          simp
      | cons q rest =>
          have hrest := ih fun r hr => h r (List.mem_cons_of_mem _ hr)
          rw [hcons, hjoin, hrest, if_pos rfl]
          rfl

theorem depth_chain (hkind : kind ≠ .none) {links : List Pattern}
    (h : ∀ p ∈ links, LinkOf kind p) :
    (chain links).depth = deepest links + chainDepth links.length := by
  cases links with
  | nil =>
      rw [hnil]
      rfl
  | cons p rest =>
      cases rest with
      | nil =>
          rw [hone]
          simp [chainDepth]
      | cons q rest =>
          have hrest := depthIn_chain hnil hone hcons hjoin
            fun r hr => h r (List.mem_cons_of_mem p hr)
          have htwo : chainDepth (p :: q :: rest).length = 1 := by simp [chainDepth]
          rw [depth, hcons, hjoin, hrest, if_neg hkind.symm, htwo]
          rfl

end Chains

/-! ## Sequences and choices -/

@[simp] theorem depth_literal (c : Char) : (literal c).depth = 0 := rfl

theorem depth_sequence {items : List Pattern} (h : ∀ p ∈ items, LinkOf .seq p) :
    (sequence items).depth = deepest items + chainDepth items.length :=
  depth_chain rfl (fun _ => rfl) (fun _ _ _ => rfl) (fun _ _ _ => rfl) (by decide) h

theorem depth_choices {alts : List Pattern} (h : ∀ p ∈ alts, LinkOf .choice p) :
    (choices alts).depth = deepest alts + chainDepth alts.length :=
  depth_chain rfl (fun _ => rfl) (fun _ _ _ => rfl) (fun _ _ _ => rfl) (by decide) h

/-- A sequence is a link of a choice if its items are. -/
theorem linkOf_sequence {items : List Pattern} (h : ∀ p ∈ items, LinkOf .choice p) :
    LinkOf .choice (sequence items) := by
  cases items with
  | nil => rfl
  | cons p rest =>
      cases rest with
      | nil => exact h p List.mem_cons_self
      | cons q rest => rfl

end Unmangle.Pattern
