import Unmangle.Pattern.Basic
import Unmangle.Pattern.Escape

set_option autoImplicit false

/-! # Reading patterns

The text of a pattern is cut into tokens, and the tokens are put together with a stack of the
groups that are open. Three faults are told apart: text that is no pattern, a pattern that nests
deeper than `Pattern.depthLimit`, and one whose program takes more than `Pattern.sizeLimit` bytes.
-/

namespace Unmangle.Pattern

/-! ## Tokens -/

inductive Token where
  | opening
  | closing
  | bar
  | mark
  | boundary
  | textStart
  | textEnd
  | never
  | literal (c : Char)
  deriving DecidableEq, Repr

def Token.item? : Token → Option Pattern
  | .boundary => some .boundary
  | .textStart => some .textStart
  | .textEnd => some .textEnd
  | .never => some .never
  | .literal c => some (.literal c)
  | _ => none

/-- Cuts a text into tokens. -/
def tokens : Text → Option (List Token)
  | [] => some []
  | '(' :: '?' :: ':' :: rest => (tokens rest).map (.opening :: ·)
  | '[' :: '^' :: '\\' :: 's' :: '\\' :: 'S' :: ']' :: rest => (tokens rest).map (.never :: ·)
  | '\\' :: c :: rest =>
      if c = 'b' then (tokens rest).map (.boundary :: ·)
      else if isSpecial c then (tokens rest).map (.literal c :: ·)
      else none
  | c :: rest =>
      if c = ')' then (tokens rest).map (.closing :: ·)
      else if c = '|' then (tokens rest).map (.bar :: ·)
      else if c = '?' then (tokens rest).map (.mark :: ·)
      else if c = '^' then (tokens rest).map (.textStart :: ·)
      else if c = '$' then (tokens rest).map (.textEnd :: ·)
      else if isSpecial c then none
      else (tokens rest).map (.literal c :: ·)

/-! ## Groups -/

/-- A group that is open: the alternatives that are complete and the items of the current one,
both last first. -/
structure Level where
  alternatives : List Pattern
  items : List Pattern

namespace Level

def start : Level := ⟨[], []⟩

def push (l : Level) (p : Pattern) : Level := { l with items := p :: l.items }

def current (l : Level) : Pattern := sequence l.items.reverse

def bar (l : Level) : Level := ⟨l.current :: l.alternatives, []⟩

/-- Makes the last item optional, if there is one. -/
def mark (l : Level) : Option Level :=
  match l.items with
  | [] => none
  | p :: rest => some { l with items := .optional p :: rest }

/-- The expression of all that stands in the group. -/
def close (l : Level) : Pattern := choices (l.current :: l.alternatives).reverse

end Level

/-- Reads tokens into the innermost open group; the list holds the groups around it. -/
def assemble : Level → List Level → List Token → Option Pattern
  | l, [], [] => some l.close
  | _, _ :: _, [] => none
  | l, outer, .opening :: rest => assemble .start (l :: outer) rest
  | _, [], .closing :: _ => none
  | l, o :: outer, .closing :: rest => assemble (o.push (.group l.close)) outer rest
  | l, outer, .bar :: rest => assemble l.bar outer rest
  | l, outer, .mark :: rest => l.mark.bind fun l => assemble l outer rest
  | l, outer, .boundary :: rest => assemble (l.push .boundary) outer rest
  | l, outer, .textStart :: rest => assemble (l.push .textStart) outer rest
  | l, outer, .textEnd :: rest => assemble (l.push .textEnd) outer rest
  | l, outer, .never :: rest => assemble (l.push .never) outer rest
  | l, outer, .literal c :: rest => assemble (l.push (.literal c)) outer rest

/-! One step with each kind of token. -/

section Steps

variable (l o : Level) (outer : List Level) (rest : List Token)

theorem assemble_nil : assemble l [] [] = some l.close := rfl

theorem assemble_opening :
    assemble l outer (.opening :: rest) = assemble .start (l :: outer) rest := by
  cases outer <;> rfl

theorem assemble_closing :
    assemble l (o :: outer) (.closing :: rest) = assemble (o.push (.group l.close)) outer rest :=
  rfl

theorem assemble_bar : assemble l outer (.bar :: rest) = assemble l.bar outer rest := by
  cases outer <;> rfl

theorem assemble_mark :
    assemble l outer (.mark :: rest) = l.mark.bind fun l => assemble l outer rest := by
  cases outer <;> rfl

/-- A token that stands for an item of its own appends it. -/
theorem assemble_item {tok : Token} {p : Pattern} (h : tok.item? = some p) :
    assemble l outer (tok :: rest) = assemble (l.push p) outer rest := by
  cases tok <;> cases h <;> cases outer <;> rfl

end Steps

def parse? (t : Text) : Option Pattern := (tokens t).bind (assemble .start [])

/-! ## Compilation

A pattern is matched by an engine, which makes a program of the expression first. Of the engine it
only matters here how large its programs are. -/

/-- An engine, told by how many bytes the program of each expression takes. -/
class Engine where
  programSize : Pattern → Nat

/-- Runs take an engine whose programs are never too large. -/
instance Engine.unbounded : Engine := ⟨fun _ => 0⟩

/-- How many bytes a program may take. -/
def sizeLimit : Nat := 256 * 1024 * 1024

inductive Fault where
  | malformed
  | tooDeep
  | tooLarge
  deriving DecidableEq, Repr

def Fault.message : Fault → String
  | .malformed => "regex parse error: the pattern is malformed"
  | .tooDeep =>
      "regex parse error: the pattern nests deeper than " ++ toString depthLimit ++ " levels"
  | .tooLarge => "Compiled regex exceeds size limit of " ++ toString sizeLimit ++ " bytes."

/-- What keeps an expression from being used. No program is made of one that nests too deep. -/
def fault? [Engine] (p : Pattern) : Option Fault :=
  if depthLimit < p.depth then some .tooDeep
  else if sizeLimit < Engine.programSize p then some .tooLarge
  else none

theorem fault?_eq_none_iff [Engine] {p : Pattern} :
    p.fault? = none ↔ p.depth ≤ depthLimit ∧ Engine.programSize p ≤ sizeLimit := by
  unfold fault?
  by_cases hdepth : depthLimit < p.depth
  · simp [hdepth, Nat.not_le.2 hdepth]
  · simp [hdepth, Nat.not_lt.1 hdepth]

/-- What is done with an expression, depending on what keeps it from being used. -/
theorem elim_fault? [Engine] {β : Type} (p : Pattern) (b : β) (f : Fault → β) :
    p.fault?.elim b f =
      if p.depth ≤ depthLimit then
        if Engine.programSize p ≤ sizeLimit then b else f .tooLarge
      else f .tooDeep := by
  unfold fault?
  by_cases hdepth : p.depth ≤ depthLimit
  · rw [if_neg (Nat.not_lt.2 hdepth), if_pos hdepth]
    by_cases hsize : Engine.programSize p ≤ sizeLimit
    · rw [if_neg (Nat.not_lt.2 hsize), if_pos hsize]
      rfl
    · rw [if_pos (Nat.not_le.1 hsize), if_neg hsize]
      rfl
  · rw [if_pos (Nat.not_le.1 hdepth), if_neg hdepth]
    rfl

/-- The expression that a text denotes, if it can be used. -/
def compile [Engine] (t : Text) : Except Fault Pattern :=
  match parse? t with
  | none => .error .malformed
  | some p =>
      match p.fault? with
      | none => .ok p
      | some fault => .error fault

end Unmangle.Pattern
