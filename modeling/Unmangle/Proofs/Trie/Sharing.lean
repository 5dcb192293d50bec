import Mathlib.Data.Finset.Card
import Unmangle.Proofs.Trie.Nesting

set_option autoImplicit false

/-! # Shared beginnings in the pattern of a trie

The pattern of a trie has each beginning that members share once. Every node but the root adds its
character, so there is one literal character for each beginning that is not empty; and a node adds a
group exactly where members part, or where a member ends and a longer one goes on.

* `Node.countP_parts`: the tokens of a kind in the pattern of a node are those of its nodes, one by
  one.
* `Node.groups_items`: the groups in it, each with the characters that lead to it.
* `Trie.pattern_shares`: both in terms of the members.
-/

namespace Unmangle

open Pattern (Token)

/-! ## Groups of an expression -/

def Pattern.Token.isLiteral : Token → Bool
  | .literal _ => true
  | _ => false

/-- The groups of an expression from the outside in and from left to right, each with the literal
characters that lead to it and with whether it is optional. -/
def Pattern.groups (lead : Text) : Pattern → List (Text × Bool)
  | .group body => (lead, false) :: body.groups lead
  | .optional (.group body) => (lead, true) :: body.groups lead
  | .optional body => body.groups lead
  | .seq (.literal c) next => next.groups (lead ++ [c])
  | .seq first next => first.groups lead ++ next.groups lead
  | .choice first next => first.groups lead ++ next.groups lead
  | _ => []

namespace Pattern

variable {lead : Text}

theorem groups_choices (ps : List Pattern) :
    (choices ps).groups lead = ps.flatMap (groups lead) := by
  induction ps with
  | nil => rfl
  | cons p ps ih =>
      cases ps with
      | nil => exact (List.append_nil _).symm
      | cons q ps =>
          show p.groups lead ++ (choices (q :: ps)).groups lead = _
          rw [ih]
          rfl

/-- A character before a sequence leads to the groups in the sequence. -/
theorem groups_sequence_literal (c : Char) (items : List Pattern) :
    (sequence (.literal c :: items)).groups lead = (sequence items).groups (lead ++ [c]) := by
  cases items with
  | nil => rfl
  | cons p items => rfl

theorem groups_groupOf (ends : Bool) (alts : List (List Pattern)) :
    (groupOf ends alts).groups lead =
      (lead, ends) :: alts.flatMap fun alt => (sequence alt).groups lead := by
  have hchoices := @groups_choices lead (alts.map sequence)
  rw [List.flatMap_map] at hchoices
  cases ends with
  | true => exact congrArg _ hchoices
  | false => exact congrArg _ hchoices

end Pattern

/-! ## Forks -/

namespace Node

/-- Whether members part at a node, or one ends there and a longer one goes on. -/
def forks (n : Node) : Bool := !n.below.isEmpty && n.holdsOn

/-- The tokens that a node adds to those of the nodes below it, but for the bars. -/
def ownTokens (n : Node) : List Token :=
  n.label.toList.map .literal ++
    if n.forks then .opening :: Pattern.closingTokens n.ends else []

theorem forks_iff {n : Node} :
    n.forks = true ↔ n.below ≠ .nil ∧ (n.ends = true ∨ 2 ≤ n.below.size) := by
  unfold forks holdsOn
  cases n.below <;> simp [Branches.isEmpty, Nat.lt_iff_add_one_le]

end Node

/-- Joining parts makes a group of them, but for an only part that is not to be optional. -/
theorem join_eq {α : Type} {ends : Bool} (join group : List (List α) → List α)
    (hnil : join [] = []) (hone : ∀ part, join [part] = if ends then group [part] else part)
    (hmore : ∀ part next more, join (part :: next :: more) = group (part :: next :: more))
    (parts : List (List α)) :
    join parts = if !parts.isEmpty && (ends || decide (1 < parts.length)) then group parts
      else parts.flatten := by
  cases parts with
  | nil => exact hnil
  | cons part more =>
      cases more with
      | nil => cases ends <;> simp [hone]
      | cons next more => simp [hmore]

namespace Node

variable (n : Node)

theorem forks_eq {α : Type} {parts : List α} (h : parts.length = n.below.size) :
    (!parts.isEmpty && (n.ends || decide (1 < parts.length))) = n.forks := by
  unfold forks holdsOn
  rw [h]
  cases hbelow : n.below <;> cases parts <;> simp_all [Branches.size, Branches.isEmpty]

theorem joinedTokens_eq :
    joinedTokens n.ends n.below.parts =
      if n.forks then Pattern.groupTokens n.ends n.below.parts else n.below.parts.flatten := by
  have hlength : n.below.parts.length = n.below.size := by
    rw [Branches.parts_eq_map, List.length_map, Branches.length_toList]
  rw [join_eq (joinedTokens n.ends) (Pattern.groupTokens n.ends) rfl (fun _ => rfl)
    (fun _ _ _ => rfl), forks_eq n hlength]

theorem attached_eq :
    attached n.ends n.below.alts =
      if n.forks then [Pattern.groupOf n.ends n.below.alts] else n.below.alts.flatten := by
  rw [join_eq (attached n.ends) (fun alts => [Pattern.groupOf n.ends alts]) rfl (fun _ => rfl)
    (fun _ _ _ => rfl), forks_eq n (length_alts n.below)]

end Node

/-! ## Tokens node by node -/

section Tokens

variable {kind : Token → Bool} (hbar : kind .bar = false)
include hbar

theorem Pattern.countP_alternation (parts : List (List Token)) :
    (alternation parts).countP kind = parts.flatten.countP kind := by
  have hmore : ∀ more : List (List Token),
      (more.flatMap (.bar :: ·)).countP kind = more.flatten.countP kind := by
    intro more
    induction more with
    | nil => rfl
    | cons part more ih => simp [hbar, ih]
  cases parts with
  | nil => rfl
  | cons part more =>
      rw [alternation, List.countP_append, hmore, List.flatten_cons, List.countP_append]

/-- The tokens of a node are its own and those of its children. -/
theorem Node.countP_parts (n : Node) :
    n.parts.countP kind = n.ownTokens.countP kind + n.below.parts.flatten.countP kind := by
  unfold parts ownTokens
  rw [joinedTokens_eq, List.countP_append, List.countP_append]
  cases n.forks with
  | false => simp
  | true =>
      have halternation := Pattern.countP_alternation hbar n.below.parts
      simp only [if_pos, Pattern.groupTokens, List.countP_cons, List.countP_append, halternation]
      omega

/-- If a node adds one token of a kind where a test holds, and else none, then there are as many
tokens of the kind in the pattern as nodes that pass the test. -/
theorem Branches.countP_parts {test : Node → Bool}
    (h : ∀ n : Node, n.ownTokens.countP kind = if test n then 1 else 0) (b : Branches) :
    b.parts.flatten.countP kind = b.nodes.countP fun e => test e.2 := by
  induction b with
  | nil => rfl
  | cons key label ends below rest ihb ihr =>
      have hfirst := Node.countP_parts hbar ⟨label, ends, below⟩
      calc (Node.parts ⟨label, ends, below⟩ :: rest.parts).flatten.countP kind
          = (if test ⟨label, ends, below⟩ then 1 else 0) + below.nodes.countP (test ·.2) +
              rest.nodes.countP (test ·.2) := by
            rw [List.flatten_cons, List.countP_append, hfirst, h, ihb, ihr]
        _ = (Branches.cons key label ends below rest).nodes.countP (test ·.2) := by
            rw [nodes, List.countP_cons, List.countP_append, List.countP_map]
            show _ = below.nodes.countP (test ·.2) + rest.nodes.countP (test ·.2) +
              if test ⟨label, ends, below⟩ then 1 else 0
            omega

/-- If a node adds one token of a kind where a test holds, and else none, then there are as many
tokens of the kind in the pattern as nodes that pass the test. -/
theorem Node.countP_parts_eq {test : Node → Bool}
    (h : ∀ n : Node, n.ownTokens.countP kind = if test n then 1 else 0) (n : Node) :
    n.parts.countP kind = n.nodes.countP fun e => test e.2 := by
  rw [countP_parts hbar, h, Branches.countP_parts hbar h, nodes, List.countP_cons]
  exact Nat.add_comm _ _

end Tokens

namespace Node

variable (n : Node)

theorem countP_literals : n.ownTokens.countP Token.isLiteral = if n.label.isSome then 1 else 0 := by
  unfold ownTokens
  cases n.label <;> cases n.forks <;> cases n.ends <;> rfl

theorem countP_openings :
    n.ownTokens.countP (fun tok => tok = .opening) = if n.forks then 1 else 0 := by
  unfold ownTokens
  cases n.label <;> cases n.forks <;> cases n.ends <;> rfl

theorem countP_marks :
    n.ownTokens.countP (fun tok => tok = .mark) = if n.forks && n.ends then 1 else 0 := by
  unfold ownTokens
  cases n.label <;> cases n.forks <;> cases n.ends <;> rfl

end Node

/-! ## Groups node by node -/

/-- The groups at the forks among some nodes, with what leads to the nodes. -/
def forkGroups (lead : Text) (ns : List (Text × Node)) : List (Text × Bool) :=
  (ns.filter (·.2.forks)).map fun e => (lead ++ e.1, e.2.ends)

theorem forkGroups_cons (lead : Text) (e : Text × Node) (ns : List (Text × Node)) :
    forkGroups lead (e :: ns) =
      (if e.2.forks then [(lead ++ e.1, e.2.ends)] else []) ++ forkGroups lead ns := by
  unfold forkGroups
  rw [List.filter_cons]
  cases e.2.forks <;> rfl

theorem forkGroups_append (lead : Text) (ns more : List (Text × Node)) :
    forkGroups lead (ns ++ more) = forkGroups lead ns ++ forkGroups lead more := by
  unfold forkGroups
  rw [List.filter_append, List.map_append]

/-- What leads to a child leads to the nodes below it. -/
theorem forkGroups_map (lead : Text) (c : Char) (ns : List (Text × Node)) :
    forkGroups lead (ns.map fun e => (c :: e.1, e.2)) = forkGroups (lead ++ [c]) ns := by
  unfold forkGroups
  rw [List.filter_map, List.map_map]
  simp [Function.comp_def]

namespace Node

variable {n : Node} {lead : Text}

theorem size_le_one (h : n.forks = false) : n.below.size ≤ 1 := by
  by_contra hsize
  have htwo : 2 ≤ n.below.size := by omega
  have hne : n.below ≠ .nil := by
    intro hnil
    rw [hnil] at htwo
    cases htwo
  rw [forks_iff.2 ⟨hne, Or.inr htwo⟩] at h
  cases h

/-- The groups of what is below a node, if those of the alternatives are known. -/
theorem groups_attached (h : (n.below.alts.flatMap fun alt => (Pattern.sequence alt).groups lead) =
    forkGroups lead n.below.nodes) :
    (Pattern.sequence (attached n.ends n.below.alts)).groups lead = forkGroups lead n.nodes := by
  rw [attached_eq, nodes, forkGroups_cons, ← h]
  cases hforks : n.forks with
  | true =>
      rw [if_pos rfl, if_pos rfl, List.append_nil]
      exact Pattern.groups_groupOf n.ends n.below.alts
  | false =>
      have hsize := size_le_one hforks
      rw [← length_alts] at hsize
      rw [if_neg Bool.false_ne_true, if_neg Bool.false_ne_true, List.nil_append]
      cases halts : n.below.alts with
      | nil => rfl
      | cons alt more =>
          obtain rfl : more = [] := by
            rw [halts] at hsize
            exact List.eq_nil_of_length_eq_zero (by simpa using hsize)
          simp

end Node

/-- **Groups at forks.** The groups of the alternatives are at the forks below, in order. -/
theorem Branches.Sound.groups_alts {b : Branches} (hb : b.Sound) (lead : Text) :
    (b.alts.flatMap fun alt => (Pattern.sequence alt).groups lead) = forkGroups lead b.nodes := by
  induction b generalizing lead with
  | nil => rfl
  | cons key label ends below rest ihb ihr =>
      obtain ⟨rfl, -, -, hbelow, hrest⟩ := hb
      have hfirst := Node.groups_attached (n := ⟨some key, ends, below⟩) (ihb hbelow (lead ++ [key]))
      rw [alts, List.flatMap_cons, ihr hrest, nodes_cons, forkGroups_append, forkGroups_map, ← hfirst]
      exact congrArg (· ++ _) (Pattern.groups_sequence_literal key _)

/-- The groups in the pattern of a node without a character are at the forks, in order. -/
theorem Node.groups_items {n : Node} (hlabel : n.label = none) (hn : n.below.Sound) (lead : Text) :
    (Pattern.sequence n.items).groups lead = forkGroups lead n.nodes := by
  rw [items, hlabel]
  exact groups_attached (hn.groups_alts lead)

/-! ## Forks and members -/

theorem Branches.Sound.two_le_size_iff {b : Branches} (hb : b.Sound) :
    2 ≤ b.size ↔ ∃ c d, c ≠ d ∧ (∃ child, b.find? c = some child) ∧
      ∃ child, b.find? d = some child := by
  constructor
  · intro hsize
    cases b with
    | nil => cases hsize
    | cons key label ends below rest =>
        cases rest with
        | nil => simp [size] at hsize
        | cons key' label' ends' below' rest =>
            have hlt : key < key' := hb.2.2.1 _ List.mem_cons_self
            exact ⟨key, key', ne_of_lt hlt, ⟨_, if_pos rfl⟩,
              ⟨_, find?_cons_of_rest hb.2.2.1 (if_pos rfl)⟩⟩
  · rintro ⟨c, d, hcd, ⟨child, hchild⟩, other, hother⟩
    exact two_le_size_of_find? hcd hchild hother

theorem Branches.Sound.isSome_label {b : Branches} (hb : b.Sound) :
    ∀ e ∈ b.nodes, e.2.label.isSome = true := by
  induction b with
  | nil => exact List.forall_mem_nil _
  | cons key label ends below rest ihb ihr =>
      obtain ⟨rfl, -, -, hbelow, hrest⟩ := hb
      rw [nodes_cons, List.forall_mem_append, List.forall_mem_map]
      exact ⟨List.forall_mem_cons.2 ⟨rfl, ihb hbelow⟩, ihr hrest⟩

namespace Trie

/-- A text is the beginning of a member. -/
def Begins (t : Trie) (q : Text) : Prop := ∃ w, t.contains w = true ∧ q <+: w

/-- A text is the beginning of a longer member, and either it is a member too or members go on
after it with different characters. -/
def ForksAt (t : Trie) (q : Text) : Prop :=
  (∃ w, t.contains w = true ∧ q <+: w ∧ q ≠ w) ∧
    (t.contains q = true ∨ ∃ c d, c ≠ d ∧ t.Begins (q ++ [c]) ∧ t.Begins (q ++ [d]))

variable {t : Trie} {q : Text}

theorem Sound.begins_iff (h : t.Sound) (hne : q ≠ []) :
    t.Begins q ↔ ∃ m, t.root.descend q = some m :=
  Node.exists_holds_prefix_iff h.2 fun hempty => absurd hempty hne

/-- The forks of a trie are at the nodes that fork. -/
theorem Sound.forksAt_iff (h : t.Sound) :
    t.ForksAt q ↔ ∃ m, t.root.descend q = some m ∧ m.forks = true := by
  have hat : ∀ m, t.root.descend q = some m → (t.ForksAt q ↔ m.forks = true) := by
    intro m hm
    have hsound : m.below.Sound := Node.descend_sound h.2 hm
    unfold ForksAt Begins
    simp only [contains_eq]
    rw [Node.exists_holds_longer_iff h.2 hm, Node.holds_eq_ends hm, Node.forks_iff,
      hsound.two_le_size_iff]
    simp only [Node.exists_holds_concat_iff h.2 hm]
  constructor
  · intro hforks
    have hnode : ∃ m, t.root.descend q = some m := by
      by_cases hne : q = []
      · exact ⟨t.root, by rw [hne, Node.descend]⟩
      · obtain ⟨⟨w, hw, hprefix, -⟩, -⟩ := hforks
        exact (h.begins_iff hne).1 ⟨w, hw, hprefix⟩
    obtain ⟨m, hm⟩ := hnode
    exact ⟨m, hm, (hat m hm).1 hforks⟩
  · rintro ⟨m, hm, hforks⟩
    exact (hat m hm).2 hforks

/-- The groups at the forks of a trie: a fork is a member exactly if its group is optional. -/
theorem Sound.mem_forkGroups_iff (h : t.Sound) {optional : Bool} :
    (q, optional) ∈ forkGroups [] t.root.nodes ↔ t.ForksAt q ∧ optional = t.contains q := by
  rw [h.forksAt_iff, forkGroups, List.mem_map]
  constructor
  · rintro ⟨⟨path, m⟩, hmem, heq⟩
    cases heq
    obtain ⟨hmem, hforks⟩ := List.mem_filter.1 hmem
    have hm := (Node.mem_nodes_iff h.2).1 hmem
    exact ⟨⟨m, hm, hforks⟩, (Node.holds_eq_ends hm).symm⟩
  · rintro ⟨⟨m, hm, hforks⟩, rfl⟩
    refine ⟨(q, m), List.mem_filter.2 ⟨(Node.mem_nodes_iff h.2).2 hm, hforks⟩, ?_⟩
    exact Prod.ext rfl (Node.holds_eq_ends hm).symm

/-- The paths to the nodes below the root are the beginnings that are not empty. -/
theorem Sound.mem_paths_iff (h : t.Sound) :
    q ∈ t.root.below.nodes.map (·.1) ↔ q ≠ [] ∧ t.Begins q := by
  constructor
  · intro hq
    obtain ⟨e, he, rfl⟩ := List.mem_map.1 hq
    obtain ⟨f, -, v, hv⟩ := Branches.exists_key_of_mem_nodes he
    have hne : e.1 ≠ [] := by
      rw [hv]
      exact List.cons_ne_nil _ _
    exact ⟨hne, (h.begins_iff hne).2 ⟨e.2, (Node.mem_nodes_iff h.2).1 (List.mem_cons_of_mem _ he)⟩⟩
  · rintro ⟨hne, hbegins⟩
    obtain ⟨m, hm⟩ := (h.begins_iff hne).1 hbegins
    rcases List.mem_cons.1 ((Node.mem_nodes_iff h.2).2 hm) with heq | hmem
    · exact absurd (Prod.ext_iff.1 heq).1 hne
    · exact List.mem_map.2 ⟨(q, m), hmem, rfl⟩

/-- The tokens of the pattern, counted by kind: between the ends of the group they are those of the
root. -/
theorem countP_tokens (hmembers : t.isEmpty = false) (kind : Token → Bool) :
    (Token.opening :: (t.bodyTokens ++ [.closing])).countP kind =
      t.root.parts.countP kind + [Token.opening, .closing].countP kind := by
  rw [bodyTokens, hmembers, if_neg Bool.false_ne_true, List.countP_cons, List.countP_append,
    @List.countP_cons _ kind .opening]
  omega

theorem Sound.nodup_forkGroups (h : t.Sound) :
    ((forkGroups [] t.root.nodes).map (·.1)).Nodup := by
  have hpaths := nodup_of_ascending (Node.paths_ascending h.2.ordered)
  rw [forkGroups, List.map_map]
  exact hpaths.sublist (List.filter_sublist.map _)

/-- One literal character for each node but the root. -/
theorem Sound.countP_isLiteral (h : t.Sound) (hmembers : t.isEmpty = false) :
    (Token.opening :: (t.bodyTokens ++ [.closing])).countP Token.isLiteral =
      t.root.below.nodes.length := by
  have hlabels : t.root.below.nodes.countP (fun e => e.2.label.isSome) =
      t.root.below.nodes.length := List.countP_eq_length.2 h.2.isSome_label
  rw [countP_tokens hmembers, Node.countP_parts_eq rfl Node.countP_literals, Node.nodes,
    List.countP_cons, h.1, hlabels]
  rfl

/-- One group for each fork, and the group around them. -/
theorem countP_opening (hmembers : t.isEmpty = false) :
    (Token.opening :: (t.bodyTokens ++ [.closing])).countP (fun tok => tok = .opening) =
      (forkGroups [] t.root.nodes).length + 1 := by
  rw [countP_tokens hmembers, Node.countP_parts_eq rfl Node.countP_openings, forkGroups,
    List.length_map, ← List.countP_eq_length_filter]
  rfl

/-- One mark for each optional group. -/
theorem countP_mark (hmembers : t.isEmpty = false) :
    (Token.opening :: (t.bodyTokens ++ [.closing])).countP (fun tok => tok = .mark) =
      (forkGroups [] t.root.nodes).countP (·.2) := by
  rw [countP_tokens hmembers, Node.countP_parts_eq rfl Node.countP_marks, forkGroups,
    List.countP_map, List.countP_filter]
  exact List.countP_congr fun e _ => by simp [Bool.and_comm]

/-- **Beginnings are shared.** The pattern of a trie with members has one literal character for
each beginning of a member that is not empty. It is a group around one group for each beginning
after which members go on in two ways, with different characters or by one of them ending there;
and of these groups exactly those are optional where a member ends. -/
theorem pattern_shares {t : Trie} (h : t.Reachable) (hmembers : t.isEmpty = false) :
    ∃ ts p gs, Pattern.tokens t.pattern = some ts ∧ Pattern.parse? t.pattern = some p ∧
      p.groups [] = ([], false) :: gs ∧
      (∃ beginnings : Finset Text, (∀ q, q ∈ beginnings ↔ q ≠ [] ∧ t.Begins q) ∧
        ts.countP Token.isLiteral = beginnings.card) ∧
      (∃ forks : Finset Text, (∀ q, q ∈ forks ↔ t.ForksAt q) ∧
        ts.countP (fun tok => tok = .opening) = forks.card + 1) ∧
      (gs.map (·.1)).Nodup ∧
      (∀ q optional, (q, optional) ∈ gs ↔ t.ForksAt q ∧ optional = t.contains q) ∧
      ts.countP (fun tok => tok = .mark) = gs.countP (·.2) := by
  obtain ⟨s, hs⟩ := h.represents
  have hsound : t.Sound := hs.sound
  have hgroups : (Pattern.group t.body).groups [] = ([], false) :: forkGroups [] t.root.nodes := by
    rw [Pattern.groups, body, bodyItems, hmembers, if_neg Bool.false_ne_true,
      Node.groups_items hsound.1 hsound.2]
  refine ⟨.opening :: (t.bodyTokens ++ [.closing]), .group t.body, forkGroups [] t.root.nodes,
    Pattern.tokens_eq_some_iff.2 t.pattern_eq_written, t.pattern_parse?, hgroups,
    ⟨(t.root.below.nodes.map (·.1)).toFinset, fun q => ?_, ?_⟩,
    ⟨((forkGroups [] t.root.nodes).map (·.1)).toFinset, fun q => ?_, ?_⟩,
    hsound.nodup_forkGroups, fun q optional => hsound.mem_forkGroups_iff, countP_mark hmembers⟩
  · rw [List.mem_toFinset, hsound.mem_paths_iff]
  · rw [List.toFinset_card_of_nodup (nodup_of_ascending hsound.2.ordered.paths_ascending),
      hsound.countP_isLiteral hmembers, List.length_map]
  · rw [List.mem_toFinset, List.mem_map]
    constructor
    · rintro ⟨e, he, rfl⟩
      exact (hsound.mem_forkGroups_iff.1 he).1
    · intro hforks
      exact ⟨_, hsound.mem_forkGroups_iff.2 ⟨hforks, rfl⟩, rfl⟩
  · rw [List.toFinset_card_of_nodup hsound.nodup_forkGroups, countP_opening hmembers,
      List.length_map]

/-- Ten beginnings, and forks at the empty text, which is a member, and before the last character of
the longest member. -/
theorem pattern_shares_words :
    let t := ofList ["words".toList, "word".toList, "birds".toList, []]
    t.pattern = "(?:(?:birds|word(?:s)?)?)".toList ∧
    (∃ beginnings : Finset Text, (∀ q, q ∈ beginnings ↔ q ≠ [] ∧ t.Begins q) ∧
      beginnings.card = 10) ∧
    ∃ forks : Finset Text, (∀ q, q ∈ forks ↔ t.ForksAt q) ∧ forks.card = 2 := by
  intro t
  obtain ⟨ts, -, -, hts, -, -, ⟨beginnings, hbeginnings, hliterals⟩, ⟨forks, hforks, hopenings⟩, -⟩ :=
    pattern_shares (Reachable.ofList ["words".toList, "word".toList, "birds".toList, []])
      (by decide)
  have hliterals' : (Pattern.tokens t.pattern).map (·.countP Token.isLiteral) = some 10 := by decide
  have hopenings' : (Pattern.tokens t.pattern).map (·.countP fun tok => tok = .opening) =
      some 3 := by decide
  rw [hts, Option.map_some, Option.some.injEq] at hliterals' hopenings'
  exact ⟨by decide, ⟨beginnings, hbeginnings, hliterals.symm.trans hliterals'⟩,
    ⟨forks, hforks, by omega⟩⟩

end Trie

end Unmangle
