import Unmangle.Text.Blank
import Unmangle.Text.Letter

set_option autoImplicit false

/-! # Well-formed expressions

Filters test the values of fields with regular expressions. Nothing here carries such a value, so
all that counts is whether an expression could be used at all: `Expression.isWellFormed`. An
expression is scanned once from left to right, with the groups that are open.

A text between commas and braces holds neither a comma nor a closing brace, so a brace that opens a
count or a name never finds its end and is refused everywhere but in a class. Word boundaries are
refused as far as they are those of Unicode, since no table-driven matcher can decide them; without
Unicode, whatever could match a part of a character is refused.
-/

namespace Unmangle

namespace Expression

/-! ## Flags and blanks -/

/-- The flags that decide what is well formed. -/
structure Flags where
  /-- Blanks and comments do not count. -/
  spaced : Bool
  /-- Classes and boundaries are those of Unicode. -/
  unicode : Bool
  deriving DecidableEq, Repr

/-- The text without the comment at its start, which reaches to the end of the line. -/
def dropComment (t : Text) : Text := (t.dropWhile (· != '\n')).drop 1

def dropBlanksAndComments : Nat → Text → Text
  | 0, t => t
  | steps + 1, t =>
      match t.dropWhile isBlankChar with
      | '#' :: rest => dropBlanksAndComments steps (dropComment rest)
      | rest => rest

/-- The text from its next character that counts. -/
def Flags.settle (flags : Flags) (t : Text) : Text :=
  if flags.spaced then dropBlanksAndComments t.length t else t

/-! ## Escapes -/

/-- What a piece of an expression stands for. -/
inductive Atom where
  | literal (c : Char)
  /-- A set of characters. -/
  | set
  /-- A place between characters. -/
  | place
  deriving DecidableEq, Repr

/-- The value of some hexadecimal digits, of which there is a given number; blanks may stand between
them if they do not count. -/
def readHex (flags : Flags) : Nat → Nat → Text → Option (Nat × Text)
  | 0, value, t => some (value, t)
  | count + 1, value, t =>
      match flags.settle t with
      | [] => none
      | c :: rest =>
          if c.isDigit then readHex flags count (value * 16 + (c.toNat - '0'.toNat)) rest
          else if 'a' ≤ c.toLower ∧ c.toLower ≤ 'f' then
            readHex flags count (value * 16 + (c.toLower.toNat - 'a'.toNat + 10)) rest
          else none

/-- The character that a number of a given count of digits denotes. Without Unicode a number of two
digits is a byte, which has to be a character of its own. -/
def readNumbered (flags : Flags) (count : Nat) (t : Text) : Option (Atom × Text) := do
  let (value, rest) ← readHex flags count 0 t
  if !value.isValidChar then none
  else if count = 2 ∧ !flags.unicode ∧ 0x80 ≤ value then none
  else some (.literal (Char.ofNat value), rest)

def categoryLetters : List Char := "clmnpsz".toList

def letterEscapes : List (Char × Char) :=
  [('a', '\x07'), ('f', '\x0c'), ('t', '\t'), ('n', '\n'), ('r', '\r'), ('v', '\x0b')]

def readEscape (flags : Flags) : Text → Option (Atom × Text)
  | [] => none
  | c :: rest =>
      if c = 'x' then readNumbered flags 2 rest
      else if c = 'u' then readNumbered flags 4 rest
      else if c = 'U' then readNumbered flags 8 rest
      else if c = 'p' ∨ c = 'P' then
        match flags.settle rest with
        | [] => none
        | name :: rest =>
            if flags.unicode ∧ name.toLower ∈ categoryLetters then some (.set, rest) else none
      else if c ∈ ['d', 's', 'w'] then some (.set, rest)
      else if c ∈ ['D', 'S', 'W'] then if flags.unicode then some (.set, rest) else none
      else if c ∈ ['A', 'z'] then some (.place, rest)
      else if c ∈ ['b', 'B', '<', '>'] then if flags.unicode then none else some (.place, rest)
      else
        match letterEscapes.lookup c with
        | some d => some (.literal d, rest)
        | none => if c.toNat < 0x80 ∧ !c.isAlphanum then some (.literal c, rest) else none

/-! ## Classes -/

def classNames : List String :=
  ["alnum", "alpha", "ascii", "blank", "cntrl", "digit", "graph", "lower", "print", "punct",
   "space", "upper", "word", "xdigit"]

/-- What follows a named class, whose opening bracket is read. -/
def skipNamedClass? (flags : Flags) : Text → Option Text
  | ':' :: t =>
      let (negated, t) := match t with
        | '^' :: t => (true, t)
        | t => (false, t)
      match t.dropWhile (· != ':') with
      | ':' :: ']' :: rest =>
          if String.ofList (t.takeWhile (· != ':')) ∈ classNames ∧ (flags.unicode ∨ !negated) then
            some rest
          else none
      | _ => none
  | _ => none

/-- What follows the opening of a class: its bracket is read, and a circumflex, dashes or one
closing bracket may come first. -/
def skipOpening? (flags : Flags) (t : Text) : Option Text := do
  let t := flags.settle t
  let t ← match t with
    | '^' :: rest => if flags.unicode then some (flags.settle rest) else none
    | t => some t
  let inner := dropDashes t.length t
  match inner with
  | [] => none
  | ']' :: rest => if inner.length = t.length then some rest else some inner
  | _ => some inner
where
  /-- The text without the dashes at its start. -/
  dropDashes : Nat → Text → Text
    | steps + 1, '-' :: rest => dropDashes steps (flags.settle rest)
    | _, t => t

/-- One item of a class: an escape, or a character that stands for itself. -/
def readClassItem (flags : Flags) : Text → Option (Atom × Text)
  | [] => none
  | '\\' :: rest => readEscape flags rest
  | c :: rest => if flags.unicode || c.toNat < 0x80 then some (.literal c, rest) else none

/-- What follows an item of a class, or a range between two of them in ascending order. -/
def skipRange? (flags : Flags) (t : Text) : Option Text := do
  let (first, rest) ← readClassItem flags t
  let single := if first = .place then none else some (flags.settle rest)
  match flags.settle rest with
  | [] => none
  | '-' :: rest =>
      match flags.settle rest with
      | [] => none
      | ']' :: _ => single
      | '-' :: _ => single
      | rest =>
          match first, ← readClassItem flags rest with
          | .literal a, (.literal b, rest) => if a ≤ b then some rest else none
          | _, _ => none
  | _ => single

/-- What follows the closing bracket of a class, of which a number of brackets are open. -/
def skipClass? (flags : Flags) : Nat → Nat → Text → Option Text
  | 0, _, _ => none
  | steps + 1, depth, t => do
      match flags.settle t with
      | [] => none
      | '[' :: rest =>
          match skipNamedClass? flags rest with
          | some rest => skipClass? flags steps depth rest
          | none => skipClass? flags steps (depth + 1) (← skipOpening? flags rest)
      | ']' :: rest => if depth ≤ 1 then some rest else skipClass? flags steps (depth - 1) rest
      | '&' :: '&' :: rest => skipClass? flags steps depth rest
      | '-' :: '-' :: rest => skipClass? flags steps depth rest
      | '~' :: '~' :: rest => skipClass? flags steps depth rest
      | t => skipClass? flags steps depth (← skipRange? flags t)

/-! ## Groups -/

inductive Opening where
  /-- A group with the flags that hold in it, and its name if it has one. -/
  | group (flags : Flags) (name : Option Text)
  /-- No group, but flags for what follows. -/
  | flags (flags : Flags)

/-- Reads flags up to the colon or the parenthesis that ends them. Every letter comes once, and so
does a dash, which takes the letters after it away; neither may be missing where it is announced. -/
def readFlags (flags : Flags) (seen : List Char) : Text → Option (Opening × Text)
  | [] => none
  | c :: rest =>
      let dangling := seen.head? = some '-'
      if c = ':' then if dangling then none else some (.group flags none, rest)
      else if c = ')' then if dangling || seen.isEmpty then none else some (.flags flags, rest)
      else if c ∈ seen ∨ c ∉ "-imsUuRx".toList then none
      else
        let on := !seen.contains '-'
        let flags :=
          if c = 'x' then { flags with spaced := on }
          else if c = 'u' then { flags with unicode := on }
          else flags
        readFlags flags (c :: seen) rest

def isGroupName : Text → Bool
  | [] => false
  | c :: rest =>
      (c == '_' || (isLetterOrNumber c && !c.isDigit)) &&
        rest.all fun c => c == '_' || c == '.' || c == '[' || c == ']' || isLetterOrNumber c

/-- Reads the name of a group up to its closing angle bracket. -/
def readName (flags : Flags) (t : Text) : Option (Opening × Text) :=
  let name := t.takeWhile (· != '>')
  match t.dropWhile (· != '>') with
  | [] => none
  | _ :: rest => if isGroupName name then some (.group flags (some name), rest) else none

/-- Reads how a group opens, after its parenthesis. There are no groups that look around. -/
def readOpening (flags : Flags) (t : Text) : Option (Opening × Text) :=
  match flags.settle t with
  | '?' :: 'P' :: '<' :: rest => readName flags rest
  | '?' :: '<' :: '=' :: _ => none
  | '?' :: '<' :: '!' :: _ => none
  | '?' :: '<' :: rest => readName flags rest
  | '?' :: rest => readFlags flags [] rest
  | rest => some (.group flags none, rest)

/-! ## Expressions -/

/-- What a scan knows: the flags that hold, those that hold again after each open group, the names
of groups so far, and whether something that can be repeated comes directly before. -/
structure Scan where
  flags : Flags
  outer : List Flags
  names : List Text
  repeatable : Bool

namespace Scan

/-- The scan after something that can be repeated. -/
def item (s : Scan) : Scan := { s with repeatable := true }

def enter (s : Scan) : Opening → Option Scan
  | .flags flags => some { s with flags, repeatable := false }
  | .group flags none => some { s with flags, outer := s.flags :: s.outer, repeatable := false }
  | .group flags (some name) =>
      if name ∈ s.names then none
      else some ⟨flags, s.flags :: s.outer, name :: s.names, false⟩

def leave (s : Scan) : Option Scan :=
  match s.outer with
  | [] => none
  | flags :: outer => some { s with flags, outer, repeatable := true }

end Scan

/-- The text after the question mark that makes a repetition lazy, if there is one. -/
def dropLazy : Text → Text
  | '?' :: rest => rest
  | t => t

/-- Whether the rest of an expression is well formed. -/
def scan : Nat → Scan → Text → Bool
  | 0, _, _ => false
  | steps + 1, s, t =>
      match s.flags.settle t with
      | [] => s.outer.isEmpty
      | '(' :: rest =>
          match readOpening s.flags rest with
          | none => false
          | some (opening, rest) => (s.enter opening).any (scan steps · rest)
      | ')' :: rest => s.leave.any (scan steps · rest)
      | '|' :: rest => scan steps { s with repeatable := false } rest
      | '[' :: rest =>
          match (skipOpening? s.flags rest).bind (skipClass? s.flags steps 1) with
          | none => false
          | some rest => scan steps s.item rest
      | '\\' :: rest =>
          match readEscape s.flags rest with
          | none => false
          | some (_, rest) => scan steps s.item rest
      | c :: rest =>
          if c = '?' ∨ c = '*' ∨ c = '+' then s.repeatable && scan steps s.item (dropLazy rest)
          else if c = '\x7b' then false
          else if c = '.' ∧ !s.flags.unicode then false
          else scan steps s.item rest

def isWellFormed (t : Text) : Bool := scan (t.length + 1) ⟨⟨false, true⟩, [], [], false⟩ t

end Expression

end Unmangle
