import Unmangle.Proofs.Trie.Canonical

set_option autoImplicit false

/-! # The nodes of a trie

The nodes of a tree in the order in which they are written, each with its path, the text that leads
to it: a node stands before its children, and all that is below a child stands before the next
child. What a path says about the members is read off the node at its end.

* `Node.mem_nodes_iff`: a node is listed with a path exactly if the path leads to it.
* `Node.paths_ascending`: the paths ascend, so no path is listed twice.
* `Node.exists_holds_prefix_iff`: the paths are the beginnings of members.
* `Node.mem_words_iff`, `Trie.Represents.length_words`: the paths where members end.
-/

namespace Unmangle

/-! ## Words through a child -/

/-- A node holds the words that are not empty through its children. -/
theorem Node.spells_of_holds {n : Node} {w : Text} (hw : w ≠ []) (h : n.holds w = true) :
    n.below.Spells w :=
  ((holds_iff n w).1 h).resolve_left fun hmark => hw hmark.2

namespace Branches

variable {b : Branches} {c : Char}

theorem Spells.exists_child {v : Text} (h : b.Spells (c :: v)) :
    ∃ child, b.find? c = some child ∧ child.holds v = true := by
  obtain ⟨c', v', child, heq, hchild, hholds⟩ := h
  cases heq
  exact ⟨child, hchild, hholds⟩

theorem spells_iff_of_find? {child : Node} (hchild : b.find? c = some child) (v : Text) :
    b.Spells (c :: v) ↔ child.holds v = true := by
  constructor
  · intro h
    obtain ⟨other, hother, hholds⟩ := h.exists_child
    rw [hchild] at hother
    cases hother
    exact hholds
  · intro hholds
    exact ⟨c, v, child, rfl, hchild, hholds⟩

/-- A look-up in children after the first one does not find the first one. -/
theorem find?_cons_of_rest {key : Char} {label : Option Char} {ends : Bool}
    {below rest : Branches} (h : ∀ e ∈ rest.toList, key < e.1) {child : Node}
    (hchild : rest.find? c = some child) :
    (Branches.cons key label ends below rest).find? c = some child := by
  have hne : key ≠ c := ne_of_lt (h _ (mem_toList_of_find? hchild))
  exact (if_neg hne).trans hchild

end Branches

theorem Node.Alive.exists_holds {n : Node} (hn : n.Alive) (hbelow : n.below.Sound) :
    ∃ v, n.holds v = true := by
  rcases hn with hends | hmore
  · exact ⟨[], hends⟩
  · obtain ⟨v, hv⟩ := hbelow.exists_spells hmore
    exact ⟨v, (holds_iff n v).2 (Or.inr hv)⟩

/-! ## Nodes and their paths -/

/-- The nodes in the subtrees of all children, each with its path. -/
def Branches.nodes : Branches → List (Text × Node)
  | .nil => []
  | .cons key label ends below rest =>
      ([key], ⟨label, ends, below⟩) ::
        (below.nodes.map (fun e => (key :: e.1, e.2)) ++ rest.nodes)

def Node.nodes (n : Node) : List (Text × Node) := ([], n) :: n.below.nodes

namespace Branches

variable {b : Branches}

/-- The nodes of the first child come first, their paths after its key. -/
theorem nodes_cons (key : Char) (label : Option Char) (ends : Bool) (below rest : Branches) :
    (Branches.cons key label ends below rest).nodes =
      (Node.nodes ⟨label, ends, below⟩).map (fun e => (key :: e.1, e.2)) ++ rest.nodes := rfl

/-- The path to a node starts with the key of a child. -/
theorem exists_key_of_mem_nodes {e : Text × Node} (h : e ∈ b.nodes) :
    ∃ f ∈ b.toList, ∃ v, e.1 = f.1 :: v := by
  induction b with
  | nil => cases h
  | cons key label ends below rest _ ih =>
      rw [nodes_cons, List.mem_append] at h
      rcases h with h | h
      · obtain ⟨e', -, rfl⟩ := List.mem_map.1 h
        exact ⟨(key, ⟨label, ends, below⟩), List.mem_cons_self, e'.1, rfl⟩
      · obtain ⟨f, hf, v, hv⟩ := ih h
        exact ⟨f, List.mem_cons_of_mem _ hf, v, hv⟩

/-- A path leads through a child to a node. -/
def Reaches (b : Branches) (q : Text) (m : Node) : Prop :=
  ∃ c v child, q = c :: v ∧ b.find? c = some child ∧ child.descend v = some m

end Branches

theorem Node.descend_eq_some_iff {n m : Node} {q : Text} :
    n.descend q = some m ↔ (q = [] ∧ m = n) ∨ n.below.Reaches q m := by
  cases q with
  | nil => simp [descend, Branches.Reaches, eq_comm]
  | cons c v =>
      rw [descend, Option.bind_eq_some_iff]
      constructor
      · rintro ⟨child, hchild, hm⟩
        exact Or.inr ⟨c, v, child, rfl, hchild, hm⟩
      · rintro (⟨hnil, -⟩ | ⟨c', v', child, heq, hchild, hm⟩)
        · cases hnil
        · cases heq
          exact ⟨child, hchild, hm⟩

/-- In a sound list of children a node is listed with the paths that lead to it. -/
theorem Branches.Sound.mem_nodes_iff {b : Branches} (hb : b.Sound) {q : Text} {m : Node} :
    (q, m) ∈ b.nodes ↔ b.Reaches q m := by
  induction b generalizing q with
  | nil => simp [nodes, Reaches, find?]
  | cons key label ends below rest ihb ihr =>
      obtain ⟨-, -, hlt, hbelow, hrest⟩ := hb
      -- the nodes of the first child are those to which paths lead from it
      have hfirst : ∀ v, (v, m) ∈ Node.nodes ⟨label, ends, below⟩ ↔
          Node.descend v ⟨label, ends, below⟩ = some m := by
        intro v
        rw [Node.descend_eq_some_iff, Node.nodes, List.mem_cons, Prod.mk.injEq]
        exact or_congr Iff.rfl (ihb hbelow)
      rw [nodes_cons, List.mem_append, ihr hrest]
      constructor
      · rintro (hmem | ⟨c, v, child, rfl, hchild, hm⟩)
        · obtain ⟨e, he, heq⟩ := List.mem_map.1 hmem
          cases heq
          exact ⟨key, e.1, _, rfl, if_pos rfl, (hfirst e.1).1 he⟩
        · exact ⟨c, v, child, rfl, find?_cons_of_rest hlt hchild, hm⟩
      · rintro ⟨c, v, child, rfl, hchild, hm⟩
        rw [find?] at hchild
        split at hchild
        · rename_i hkey
          cases hchild
          exact Or.inl (List.mem_map.2 ⟨(v, m), (hfirst v).2 hm, by rw [hkey]⟩)
        · exact Or.inr ⟨c, v, child, rfl, hchild, hm⟩

namespace Node

variable {n m : Node} {q : Text}

/-- In a sound subtree a node is listed with the paths that lead to it. -/
theorem mem_nodes_iff (hn : n.below.Sound) : (q, m) ∈ n.nodes ↔ n.descend q = some m := by
  rw [descend_eq_some_iff, nodes, List.mem_cons, Prod.mk.injEq, hn.mem_nodes_iff]

end Node

/-! ## The order of the paths -/

/-- The empty path stands before those of the children. -/
theorem Node.ascending_of_below {n : Node}
    (h : (n.below.nodes.map (·.1)).Pairwise (List.Lex (· < ·))) :
    (n.nodes.map (·.1)).Pairwise (List.Lex (· < ·)) := by
  refine List.pairwise_cons.2 ⟨fun q hq => ?_, h⟩
  obtain ⟨e, he, rfl⟩ := List.mem_map.1 hq
  obtain ⟨f, -, v, hv⟩ := Branches.exists_key_of_mem_nodes he
  show List.Lex (· < ·) [] e.1
  rw [hv]
  exact List.Lex.nil

theorem Branches.Ordered.paths_ascending {b : Branches} (hb : b.Ordered) :
    (b.nodes.map (·.1)).Pairwise (List.Lex (· < ·)) := by
  induction b with
  | nil => exact List.Pairwise.nil
  | cons key label ends below rest ihb ihr =>
      obtain ⟨hlt, hbelow, hrest⟩ := hb
      have hfirst := Node.ascending_of_below (n := ⟨label, ends, below⟩) (ihb hbelow)
      rw [nodes_cons, List.map_append, List.map_map, List.pairwise_append]
      refine ⟨?_, ihr hrest, fun p hp q hq => ?_⟩
      · rw [List.pairwise_map] at hfirst ⊢
        exact hfirst.imp fun hlex => List.Lex.cons hlex
      · -- paths through the first child start with its key, the others with a later one
        obtain ⟨e, -, rfl⟩ := List.mem_map.1 hp
        obtain ⟨e', he', rfl⟩ := List.mem_map.1 hq
        obtain ⟨f, hf, v, hv⟩ := exists_key_of_mem_nodes he'
        rw [hv]
        exact List.Lex.rel (hlt f hf)

namespace Node

variable {n m : Node} {q w : Text}

/-- The paths ascend in the order of their characters. -/
theorem paths_ascending (hn : n.below.Ordered) :
    (n.nodes.map (·.1)).Pairwise (List.Lex (· < ·)) :=
  ascending_of_below hn.paths_ascending

/-! ## Beginnings of members -/

theorem holds_eq_ends (h : n.descend q = some m) : n.holds q = m.ends := by
  rw [holds, h, Option.any_some]

theorem descend_append (p q : Text) (n : Node) :
    n.descend (p ++ q) = (n.descend p).bind (descend q) := by
  induction p generalizing n with
  | nil => rfl
  | cons c p ih =>
      rw [List.cons_append, descend, descend, Option.bind_assoc]
      exact congrArg _ (funext ih)

theorem descend_concat (h : n.descend q = some m) (c : Char) :
    n.descend (q ++ [c]) = m.below.find? c := by
  rw [descend_append, h, Option.bind_some, descend]
  exact Option.bind_fun_some _

/-- A path in a sound subtree leads to a live node, unless it is empty. -/
theorem descend_alive (hn : n.below.Sound) (hlive : q = [] → n.Alive)
    (h : n.descend q = some m) : m.Alive := by
  induction q generalizing n with
  | nil =>
      cases h
      exact hlive rfl
  | cons c q ih =>
      rw [descend, Option.bind_eq_some_iff] at h
      obtain ⟨child, hchild, h⟩ := h
      obtain ⟨-, halive, hsound⟩ := hn.child hchild
      exact ih hsound (fun _ => halive) h

/-- **Paths are beginnings of members.** A text leads to a node exactly if it is the beginning of a
member. -/
theorem exists_holds_prefix_iff (hn : n.below.Sound) (hlive : q = [] → n.Alive) :
    (∃ w, n.holds w = true ∧ q <+: w) ↔ ∃ m, n.descend q = some m := by
  constructor
  · rintro ⟨-, hw, v, rfl⟩
    rw [holds, descend_append] at hw
    cases hm : n.descend q with
    | none =>
        rw [hm] at hw
        cases hw
    | some m => exact ⟨m, rfl⟩
  · rintro ⟨m, hm⟩
    obtain ⟨v, hv⟩ := (descend_alive hn hlive hm).exists_holds (descend_sound hn hm)
    exact ⟨q ++ v, (holds_append hm v).trans hv, List.prefix_append q v⟩

/-- A longer member starts with a path exactly if the node at its end has children. -/
theorem exists_holds_longer_iff (hn : n.below.Sound) (h : n.descend q = some m) :
    (∃ w, n.holds w = true ∧ q <+: w ∧ q ≠ w) ↔ m.below ≠ .nil := by
  constructor
  · rintro ⟨-, hw, ⟨v, rfl⟩, hne⟩ hnil
    rw [holds_append h] at hw
    have hv : v ≠ [] := fun hempty => hne (by rw [hempty, List.append_nil])
    have hspells := spells_of_holds hv hw
    rw [hnil] at hspells
    exact Branches.spells_nil v hspells
  · intro hne
    obtain ⟨v, hv⟩ := (descend_sound hn h).exists_spells hne
    refine ⟨q ++ v, (holds_append h v).trans ((holds_iff m v).2 (Or.inr hv)),
      List.prefix_append q v, fun heq => ?_⟩
    have hempty : v = [] := List.self_eq_append_right.1 heq
    exact m.below.not_spells_empty (hempty ▸ hv)

/-- The characters with which members go on after a path are the keys of the node at its end. -/
theorem exists_holds_concat_iff (hn : n.below.Sound) (h : n.descend q = some m) (c : Char) :
    (∃ w, n.holds w = true ∧ q ++ [c] <+: w) ↔ ∃ child, m.below.find? c = some child := by
  have hnonempty : q ++ [c] = [] → n.Alive := by simp
  rw [exists_holds_prefix_iff hn hnonempty, descend_concat h]

end Node

/-! ## Members -/

/-- The paths to the nodes below where members end. -/
def Branches.words (b : Branches) : List Text := (b.nodes.filter (·.2.ends)).map (·.1)

def Node.words (n : Node) : List Text := (n.nodes.filter (·.2.ends)).map (·.1)

theorem Node.words_eq (n : Node) :
    n.words = (if n.ends then [[]] else []) ++ n.below.words := by
  unfold words nodes
  rw [List.filter_cons]
  cases n.ends <;> rfl

/-- The words of the first child come first. -/
theorem Branches.words_cons (key : Char) (label : Option Char) (ends : Bool)
    (below rest : Branches) :
    (Branches.cons key label ends below rest).words =
      (Node.words ⟨label, ends, below⟩).map (key :: ·) ++ rest.words := by
  unfold words Node.words
  rw [nodes_cons, List.filter_append, List.map_append, List.filter_map, List.map_map, List.map_map]
  rfl

namespace Node

variable {n : Node} {w : Text}

theorem mem_words_iff (hn : n.below.Sound) : w ∈ n.words ↔ n.holds w = true := by
  constructor
  · intro h
    obtain ⟨⟨q, m⟩, hmem, rfl⟩ := List.mem_map.1 h
    obtain ⟨hmem, hends⟩ := List.mem_filter.1 hmem
    exact (holds_eq_ends ((mem_nodes_iff hn).1 hmem)).trans hends
  · intro h
    obtain ⟨m, hm, hends⟩ := (Option.any_eq_true _ _).1 h
    exact List.mem_map.2
      ⟨(w, m), List.mem_filter.2 ⟨(mem_nodes_iff hn).2 hm, hends⟩, rfl⟩

theorem words_ascending (hn : n.below.Ordered) : n.words.Pairwise (List.Lex (· < ·)) :=
  (paths_ascending hn).sublist (List.filter_sublist.map _)

end Node

theorem nodup_of_ascending {ws : List Text} (h : ws.Pairwise (List.Lex (· < ·))) : ws.Nodup := by
  refine h.imp fun {v w} hlex heq => ?_
  rw [heq] at hlex
  exact List.lex_irrefl (fun c => lt_irrefl c) w hlex

/-- A trie has as many members as nodes where members end. -/
theorem Trie.Represents.length_words {t : Trie} {s : Finset Text} (h : t.Represents s) :
    t.root.words.length = t.size := by
  have hmembers : t.root.words.toFinset = s := by
    ext w
    rw [List.mem_toFinset, Node.mem_words_iff h.sound.2, ← contains_eq, h.contains_iff]
  have hnodup := nodup_of_ascending (Node.words_ascending h.sound.2.ordered)
  rw [h.size_eq, ← hmembers, List.toFinset_card_of_nodup hnodup]

end Unmangle
