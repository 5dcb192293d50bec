set_option autoImplicit false

/-! # Patterns

The expressions that patterns are made of, and how deeply an expression nests. A sequence of more
than two items, and a choice among more than two, is a chain of pairs to the right.

* `Pattern.depth` counts one for each group, repetition, bracketed class, sequence and choice on
  the way down; a chain counts once, and a single item in the place of a chain does not count.
-/

namespace Unmangle

/-- An expression. -/
inductive Pattern where
  /-- Matches the empty text. -/
  | empty
  /-- Matches one character. -/
  | literal (c : Char)
  /-- Matches the empty text at a word boundary. -/
  | boundary
  /-- Matches the empty text at the start of a text. -/
  | textStart
  /-- Matches the empty text at the end of a text. -/
  | textEnd
  /-- The class without characters: matches nothing. -/
  | never
  /-- A group without a number. -/
  | group (body : Pattern)
  /-- The body, or the empty text if the body does not lead to a match. -/
  | optional (body : Pattern)
  /-- One after the other. -/
  | seq (first next : Pattern)
  /-- The first, or the next if the first does not lead to a match. -/
  | choice (first next : Pattern)
  deriving DecidableEq, Repr, Inhabited

namespace Pattern

/-- The kind of chain that an expression continues. -/
inductive Chain where
  | none
  | seq
  | choice
  deriving DecidableEq

/-- The nesting depth of an expression that may continue a chain. -/
def depthIn : Chain → Pattern → Nat
  | _, .empty => 0
  | _, .literal _ => 0
  | _, .boundary => 0
  | _, .textStart => 0
  | _, .textEnd => 0
  | _, .never => 1
  | _, .group body => body.depthIn .none + 1
  | _, .optional body => body.depthIn .none + 1
  | chain, .seq first next =>
      max (first.depthIn .none) (next.depthIn .seq) + if chain = .seq then 0 else 1
  | chain, .choice first next =>
      max (first.depthIn .none) (next.depthIn .choice) + if chain = .choice then 0 else 1

def depth (p : Pattern) : Nat := p.depthIn .none

/-- The deepest nesting that a pattern may have. -/
def depthLimit : Nat := 250

def sequence : List Pattern → Pattern
  | [] => .empty
  | [p] => p
  | p :: rest => .seq p (sequence rest)

def choices : List Pattern → Pattern
  | [] => .empty
  | [p] => p
  | p :: rest => .choice p (choices rest)

end Pattern

end Unmangle
