import Unmangle.Proofs.Text.Lines
import Unmangle.Proofs.Trie.Nodes
import Unmangle.Proofs.Trie.Outlining

set_option autoImplicit false

/-! # Reading an outline

An outline says which members a trie has. A reader goes down its lines: a line that ends in a dollar
sign tells a member, made of the spans along the chain of less indented lines above it. This finds
the members if none of them has a blank, a line feed or a dollar sign, since with those a line could
not be told from another one.

* `Line.ofText_text`: a line of an outline is read as it was written.
* `Branches.wordsFrom_outline`: what the lines of some children tell, whatever stands above.
* `Trie.outline_faithful`: the members of a trie from its outline, and equality from outlines.
-/

namespace Unmangle

namespace Outline

/-- A text that can be told from the blanks, the line feeds and the mark around it. -/
def Plain (t : Text) : Prop := ∀ c ∈ t, c ≠ ' ' ∧ c ≠ '\n' ∧ c ≠ '$'

instance : DecidablePred Plain := fun t => List.decidableBAll _ t

/-- A line of an outline: the number of blanks before it, the characters on it, and whether the mark
stands at its end. -/
structure Line where
  indent : Nat
  span : Text
  marked : Bool
  deriving DecidableEq, Repr

def Line.text (l : Line) : Text := List.replicate l.indent ' ' ++ l.span ++ endMark l.marked

def Line.ofText (t : Text) : Line where
  indent := (t.takeWhile (· == ' ')).length
  span := (t.dropWhile (· == ' ')).takeWhile (· != '$')
  marked := t.getLast? == some '$'

/-- The spans along the chain of less indented lines, with the lines above from the nearest one on:
each line of the chain is the nearest one that is less indented than the one before. -/
def lead (indent : Nat) : List Line → Text
  | [] => []
  | l :: above => if l.indent < indent then lead l.indent above ++ l.span else lead indent above

/-- The words that some lines tell, with the lines above them from the nearest one on. -/
def wordsFrom (above : List Line) : List Line → List Text
  | [] => []
  | l :: rest =>
      (if l.marked then [lead l.indent above ++ l.span] else []) ++ wordsFrom (l :: above) rest

/-- The words that a text tells as an outline. -/
def read (t : Text) : List Text := wordsFrom [] ((Text.splitOn '\n' t).map Line.ofText)

/-! ## Plain texts -/

section Plain

variable {c : Char} {s t : Text}

theorem plain_nil : Plain [] := List.forall_mem_nil _

theorem plain_cons : Plain (c :: t) ↔ (c ≠ ' ' ∧ c ≠ '\n' ∧ c ≠ '$') ∧ Plain t :=
  List.forall_mem_cons

theorem Plain.reverse (h : Plain t) : Plain t.reverse :=
  fun c hc => h c (List.mem_reverse.1 hc)

theorem Plain.of_isPrefix (h : Plain t) (hs : s <+: t) : Plain s :=
  fun c hc => h c (hs.subset hc)

end Plain

theorem mem_endMark {ends : Bool} {c : Char} (h : c ∈ endMark ends) : c = '$' := by
  unfold endMark at h
  split at h
  · exact List.mem_singleton.1 h
  · cases h

/-! ## One line -/

namespace Line

variable {l : Line}

theorem span_blanks (indent : Nat) {t : Text} (h : ' ' ∉ t) :
    (List.replicate indent ' ' ++ t).takeWhile (· == ' ') = List.replicate indent ' ' ∧
      (List.replicate indent ' ' ++ t).dropWhile (· == ' ') = t := by
  induction indent with
  | zero =>
      cases t with
      | nil => exact ⟨rfl, rfl⟩
      | cons c t =>
          have hc : c ≠ ' ' := fun heq => h (heq ▸ List.mem_cons_self)
          simp [hc]
  | succ indent ih => simpa [List.replicate_succ] using ih

/-- A line is read as it was written. -/
theorem ofText_text (h : Plain l.span) : ofText l.text = l := by
  obtain ⟨indent, span, marked⟩ := l
  have hshown : ' ' ∉ span ++ endMark marked := by
    intro hmem
    rcases List.mem_append.1 hmem with hmem | hmem
    · exact (h _ hmem).1 rfl
    · exact absurd (mem_endMark hmem) (by decide)
  obtain ⟨hindent, hrest⟩ := span_blanks indent hshown
  have hspan : (span ++ endMark marked).takeWhile (· != '$') = span := by
    rw [List.takeWhile_append_of_pos fun c hc => bne_iff_ne.2 (h c hc).2.2]
    cases marked <;> simp [endMark]
  have hmarked : ((List.replicate indent ' ' ++ (span ++ endMark marked)).getLast? ==
      some '$') = marked := by
    cases marked with
    | true => simp [endMark]
    | false =>
        refine beq_false_of_ne fun hlast => ?_
        have hmem := List.mem_of_getLast? hlast
        rw [endMark, if_neg Bool.false_ne_true, List.append_nil, List.mem_append] at hmem
        rcases hmem with hmem | hmem
        · exact absurd (List.eq_of_mem_replicate hmem) (by decide)
        · exact (h _ hmem).2.2 rfl
  simp only [ofText, text, List.append_assoc, hindent, hrest, hspan, hmarked,
    List.length_replicate]

theorem not_mem_text (h : Plain l.span) : '\n' ∉ l.text := by
  intro hmem
  rw [text, List.append_assoc, List.mem_append, List.mem_append] at hmem
  rcases hmem with hmem | hmem | hmem
  · exact absurd (List.eq_of_mem_replicate hmem) (by decide)
  · exact (h _ hmem).2.1 rfl
  · exact absurd (mem_endMark hmem) (by decide)

end Line

/-! ## Words from lines -/

theorem wordsFrom_append (above lines more : List Line) :
    wordsFrom above (lines ++ more) =
      wordsFrom above lines ++ wordsFrom (lines.reverse ++ above) more := by
  induction lines generalizing above with
  | nil => rfl
  | cons l lines ih =>
      rw [List.cons_append, wordsFrom, ih, wordsFrom, List.reverse_cons, List.append_assoc,
        List.append_assoc]
      rfl

/-- Lines that are not less indented stand in no chain. -/
theorem lead_append {indent : Nat} {lines : List Line} (h : ∀ l ∈ lines, indent ≤ l.indent)
    (above : List Line) : lead indent (lines ++ above) = lead indent above := by
  induction lines with
  | nil => rfl
  | cons l lines ih =>
      obtain ⟨hl, hlines⟩ := List.forall_mem_cons.1 h
      rw [List.cons_append, lead, if_neg (Nat.not_lt.2 hl), ih hlines]

end Outline

open Outline

/-! ## The lines of some children -/

namespace Branches

/-- All keys of a subtree can be told from the blanks, the line feeds and the mark around them. -/
def Plain : Branches → Prop
  | .nil => True
  | .cons key _ _ below rest => Outline.Plain [key] ∧ below.Plain ∧ rest.Plain

variable {b : Branches} {depth : Nat} {run : Text}

theorem plain_of_nodes (h : ∀ e ∈ b.nodes, Outline.Plain e.1) : b.Plain := by
  induction b with
  | nil => trivial
  | cons key label ends below rest ihb ihr =>
      rw [nodes_cons, Node.nodes, List.map_cons, List.cons_append, List.forall_mem_cons,
        List.forall_mem_append, List.forall_mem_map] at h
      obtain ⟨hkey, hbelow, hrest⟩ := h
      exact ⟨hkey, ihb fun e he => (plain_cons.1 (hbelow e he)).2, ihr hrest⟩

/-- The lines of some children are indented by their depth, or more, and have plain spans. -/
theorem Sound.exists_line (hb : b.Sound) (hplain : b.Plain) (hrun : Outline.Plain run) {t : Text}
    (h : t ∈ b.outline depth run) :
    ∃ l : Line, t = l.text ∧ Outline.Plain l.span ∧ l.span ≠ [] ∧ 2 * depth ≤ l.indent := by
  induction b generalizing depth run with
  | nil => cases h
  | cons key label ends below rest ihb ihr =>
      obtain ⟨rfl, -, -, hbelow, hrest⟩ := hb
      obtain ⟨hkey, hplainBelow, hplainRest⟩ := hplain
      have hrun' : Outline.Plain (key :: run) := plain_cons.2 ⟨(plain_cons.1 hkey).1, hrun⟩
      rw [outline, List.mem_append] at h
      rcases h with h | h
      · split at h
        · exact ihb hbelow hplainBelow hrun' h
        · rcases List.mem_cons.1 h with rfl | h
          · exact ⟨⟨2 * depth, (key :: run).reverse, ends⟩, rfl, hrun'.reverse, by simp, le_rfl⟩
          · obtain ⟨l, hl, hspan, hne, hindent⟩ := ihb hbelow hplainBelow plain_nil h
            exact ⟨l, hl, hspan, hne, by omega⟩
      · exact ihr hrest hplainRest plain_nil h

theorem Sound.le_indent (hb : b.Sound) (hplain : b.Plain) (hrun : Outline.Plain run) :
    ∀ l ∈ (b.outline depth run).map Line.ofText, 2 * depth ≤ l.indent := by
  intro l hl
  obtain ⟨t, ht, rfl⟩ := List.mem_map.1 hl
  obtain ⟨l, rfl, hspan, -, hindent⟩ := hb.exists_line hplain hrun ht
  rw [Line.ofText_text hspan]
  exact hindent

/-- The line of a run that stops, and the lines below it, tell the word of the run and what the
lines below tell after it. -/
theorem wordsFrom_stop (hrun : Outline.Plain run) (ends : Bool) (above : List Line)
    {lines : List Text} {words : List Text}
    (h : ∀ above, wordsFrom above (lines.map Line.ofText) =
      words.map (lead (2 * (depth + 1)) above ++ ·)) :
    wordsFrom above (((List.replicate (2 * depth) ' ' ++ run.reverse ++ endMark ends) ::
        lines).map Line.ofText) =
      ((if ends then [[]] else []) ++ words).map (lead (2 * depth) above ++ run.reverse ++ ·) := by
  let l : Line := ⟨2 * depth, run.reverse, ends⟩
  have hline : Line.ofText l.text = l := Line.ofText_text hrun.reverse
  have hlead : lead (2 * (depth + 1)) (l :: above) = lead (2 * depth) above ++ run.reverse := by
    have hlt : l.indent < 2 * (depth + 1) := by
      show 2 * depth < 2 * (depth + 1)
      omega
    rw [lead, if_pos hlt]
  calc wordsFrom above ((l.text :: lines).map Line.ofText)
      = (if ends then [lead (2 * depth) above ++ run.reverse] else []) ++
          wordsFrom (l :: above) (lines.map Line.ofText) := by
        rw [List.map_cons, hline, wordsFrom]
    _ = (if ends then [lead (2 * depth) above ++ run.reverse] else []) ++
          words.map (lead (2 * depth) above ++ run.reverse ++ ·) := by rw [h, hlead]
    _ = _ := by cases ends <;> simp

/-- **What some lines tell.** The lines of some children tell the words through these children,
each after the spans that lead to the children and the run that has begun. A run goes on only into
a single child. -/
theorem Sound.wordsFrom_outline (hb : b.Sound) (hplain : b.Plain) (hrun : Outline.Plain run)
    (hsingle : run = [] ∨ b.size ≤ 1) (above : List Line) :
    wordsFrom above ((b.outline depth run).map Line.ofText) =
      b.words.map (lead (2 * depth) above ++ run.reverse ++ ·) := by
  induction b generalizing depth run above with
  | nil => rfl
  | cons key label ends below rest ihb ihr =>
      have hfirst := hb.first
      obtain ⟨rfl, -, -, hbelow, hrest⟩ := hb
      obtain ⟨hkey, hplainBelow, hplainRest⟩ := hplain
      have hrun' : Outline.Plain (key :: run) := plain_cons.2 ⟨(plain_cons.1 hkey).1, hrun⟩
      -- the lines of the first child tell the words through it
      have htold : wordsFrom above
          (((cons key (some key) ends below .nil).outline depth run).map Line.ofText) =
          (Node.words ⟨some key, ends, below⟩).map
            (lead (2 * depth) above ++ (key :: run).reverse ++ ·) := by
        rw [outline, outline, List.append_nil, Node.words_eq]
        by_cases hgoes : (!ends && below.size == 1) = true
        · rw [if_pos hgoes]
          rw [Bool.and_eq_true, Bool.not_eq_true', beq_iff_eq] at hgoes
          obtain ⟨rfl, hone⟩ := hgoes
          exact ihb hbelow hplainBelow hrun' (Or.inr (le_of_eq hone)) above
        · rw [if_neg hgoes]
          refine wordsFrom_stop hrun' ends above fun above => ?_
          have htold := @ihb (depth + 1) [] hbelow hplainBelow plain_nil (Or.inl rfl) above
          rwa [List.reverse_nil, List.append_nil] at htold
      -- and they stand in no chain of the lines of the other children
      have hlater : lead (2 * depth) ((((cons key (some key) ends below .nil).outline depth
          run).map Line.ofText).reverse ++ above) = lead (2 * depth) above :=
        lead_append (fun l hl => hfirst.le_indent ⟨hkey, hplainBelow, trivial⟩ hrun l
          (List.mem_reverse.1 hl)) above
      have hmore : run = [] ∨ rest = .nil := by
        refine hsingle.imp_right fun hsize => ?_
        cases rest with
        | nil => rfl
        | cons => simp [size] at hsize
      rw [outline_cons, List.map_append, wordsFrom_append, htold,
        ihr hrest hplainRest plain_nil (Or.inl rfl), hlater, words_cons, List.map_append,
        List.map_map]
      rcases hmore with rfl | rfl
      · simp
      · simp [words, nodes]

end Branches

/-! ## The outline of a trie -/

theorem Outline.read_intercalate {lines : List Text} (h : ∀ t ∈ lines, '\n' ∉ t) :
    read (['\n'].intercalate lines) = wordsFrom [] (lines.map Line.ofText) := by
  by_cases hnil : lines = []
  · rw [hnil]
    rfl
  · unfold read
    rw [Text.splitOn_eq, List.splitOn_intercalate '\n' h hnil]

namespace Trie

variable {t : Trie}

theorem Sound.plain_below (h : t.Sound) (hplain : ∀ w, t.contains w = true → Plain w) :
    t.root.below.Plain := by
  refine Branches.plain_of_nodes fun e he => ?_
  obtain ⟨f, -, v, hv⟩ := Branches.exists_key_of_mem_nodes he
  -- the path is the beginning of a member
  have hpath : t.root.descend e.1 = some e.2 :=
    (Node.mem_nodes_iff h.2).1 (List.mem_cons_of_mem _ he)
  obtain ⟨w, hw, hprefix⟩ := (Node.exists_holds_prefix_iff h.2
    (fun hempty => absurd (hv.symm.trans hempty) (List.cons_ne_nil _ _))).2 ⟨e.2, hpath⟩
  exact (hplain w hw).of_isPrefix hprefix

theorem Sound.exists_line (h : t.Sound) (hplain : t.root.below.Plain) {line : Text}
    (hline : line ∈ t.outlineLines) :
    ∃ l : Line, line = l.text ∧ Plain l.span ∧ (l.span = [] → t.root.ends = true) := by
  rw [outlineLines_eq] at hline
  rcases List.mem_append.1 hline with hline | hline
  · split at hline
    · rename_i hends
      exact ⟨⟨0, [], true⟩, List.mem_singleton.1 hline, plain_nil, fun _ => hends⟩
    · cases hline
  · obtain ⟨l, rfl, hspan, hne, -⟩ := h.2.exists_line hplain plain_nil hline
    exact ⟨l, rfl, hspan, fun hempty => absurd hempty hne⟩

theorem Sound.not_mem_of_mem_outlineLines (h : t.Sound) (hplain : t.root.below.Plain) :
    ∀ line ∈ t.outlineLines, '\n' ∉ line := by
  intro line hline
  obtain ⟨l, rfl, hspan, -⟩ := h.exists_line hplain hline
  exact l.not_mem_text hspan

/-- The outline of a trie tells its members, in the order of its nodes. -/
theorem Sound.read_outline (h : t.Sound) (hplain : t.root.below.Plain) :
    read t.outline = t.root.words := by
  have hbelow : ∀ above, wordsFrom above ((t.root.below.outline 0 []).map Line.ofText) =
      t.root.below.words.map (lead 0 above ++ [] ++ ·) :=
    h.2.wordsFrom_outline hplain plain_nil (Or.inl rfl)
  unfold outline
  rw [read_intercalate (h.not_mem_of_mem_outlineLines hplain), Node.words_eq, outlineLines_eq]
  cases t.root.ends with
  | false =>
      show wordsFrom [] ((t.root.below.outline 0 []).map Line.ofText) = t.root.below.words
      rw [hbelow]
      exact List.map_id _
  | true =>
      -- the first line has the mark alone
      show [] :: wordsFrom [⟨0, [], true⟩] ((t.root.below.outline 0 []).map Line.ofText) =
        [] :: t.root.below.words
      rw [hbelow]
      exact congrArg _ (List.map_id _)

/-- The mark stands alone on the first line exactly if the empty text is a member. -/
theorem Sound.head?_outline (h : t.Sound) (hplain : t.root.below.Plain) :
    (Text.splitOn '\n' t.outline).head? = some ['$'] ↔ t.contains [] = true := by
  have hcontains : t.contains [] = t.root.ends := rfl
  rw [hcontains]
  by_cases hnil : t.outlineLines = []
  · have hends : t.root.ends = false := by
      cases hends : t.root.ends with
      | false => rfl
      | true => simp [outlineLines, hends] at hnil
    rw [hends, outline, hnil]
    decide
  unfold outline
  rw [Text.splitOn_eq,
    List.splitOn_intercalate '\n' (h.not_mem_of_mem_outlineLines hplain) hnil]
  constructor
  · intro hfirst
    obtain ⟨l, hl, hspan, hempty⟩ := h.exists_line hplain (List.mem_of_head? hfirst)
    -- the line that is read from the mark alone has no span
    have hread : l = Line.ofText ['$'] := by rw [hl, Line.ofText_text hspan]
    exact hempty (hread ▸ rfl)
  · intro hends
    rw [outlineLines, hends]
    rfl

theorem Reachable.plain_of_words (h : t.Reachable) (hplain : ∀ w ∈ t.root.words, Plain w) :
    ∀ w, t.contains w = true → Plain w := by
  obtain ⟨s, hs⟩ := h.represents
  exact fun w hw => hplain w ((Node.mem_words_iff hs.sound.2).2 hw)

/-- **Outlines are faithful.** The members of a trie, none with a blank, a line feed or a dollar
sign, are the words that its outline tells, each once and in ascending order, as many as the trie
counts; the mark alone on the first line tells the empty text. So the outlines of two such tries
are the same text exactly if the tries are equal. -/
theorem outline_faithful {t u : Trie} (ht : t.Reachable) (hu : u.Reachable)
    (hplain : ∀ w, t.contains w = true → Plain w) (hplain' : ∀ w, u.contains w = true → Plain w) :
    (∀ w, w ∈ read t.outline ↔ t.contains w = true) ∧
    (read t.outline).Pairwise (List.Lex (· < ·)) ∧
    (read t.outline).length = t.size ∧
    ((Text.splitOn '\n' t.outline).head? = some ['$'] ↔ t.contains [] = true) ∧
    (t.outline = u.outline ↔ t.same u = true) := by
  obtain ⟨s, hs⟩ := ht.represents
  obtain ⟨s', hs'⟩ := hu.represents
  have hbelow := hs.sound.plain_below hplain
  have hbelow' := hs'.sound.plain_below hplain'
  have hmem : ∀ w, w ∈ t.root.words ↔ t.contains w = true := fun w => by
    rw [Node.mem_words_iff hs.sound.2, contains_eq]
  have hmem' : ∀ w, w ∈ u.root.words ↔ u.contains w = true := fun w => by
    rw [Node.mem_words_iff hs'.sound.2, contains_eq]
  rw [hs.sound.read_outline hbelow]
  refine ⟨hmem, Node.words_ascending hs.sound.2.ordered, hs.length_words,
    hs.sound.head?_outline hbelow, ?_⟩
  rw [hs.sound.same_iff hs'.sound]
  constructor
  · intro houtline
    have hwords : t.root.words = u.root.words := by
      rw [← hs.sound.read_outline hbelow, ← hs'.sound.read_outline hbelow', houtline]
    have hsets : s = s' := by
      ext w
      rw [← hs.contains_iff, ← hs'.contains_iff, ← hmem, ← hmem', hwords]
    exact hs.unique (hsets ▸ hs')
  · rintro rfl
    rfl

/-- Four members, one of them empty, one inside a run and two that share a run, and the same
members by a detour. -/
theorem outline_faithful_detour :
    let t := ofList ["words".toList, "word".toList, [], "birds".toList]
    let u := ((ofList ["birds".toList, "wo".toList, "words".toList, "word".toList, []]).erase
      "wo".toList).2
    read t.outline = [[], "birds".toList, "word".toList, "words".toList] ∧
    t.contains "word".toList = true ∧ t.outline = u.outline := by
  intro t u
  have ht : t.Reachable := Reachable.ofList _
  have hu : u.Reachable := (Reachable.ofList _).erase _
  obtain ⟨hmem, -, -, -, hiff⟩ := outline_faithful ht hu (ht.plain_of_words (by decide))
    (hu.plain_of_words (by decide))
  exact ⟨by decide, (hmem _).1 (by decide), hiff.2 (by decide)⟩

end Trie

end Unmangle
