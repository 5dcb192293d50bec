import Unmangle.Log.Expression

set_option autoImplicit false

/-! # Directives of log filters

A directive is a detail, a topic, or a topic and a detail with an equals sign between them. After
the topic, brackets may hold the name of a span and, in braces, a test on a field. A missing detail
is the greatest one.

A directive is read character by character, as it stands without the blanks at its ends. The places
of its parts are counted there, but the parts are cut out of the text as it was written: blanks at
the start push every part to the left, and blanks at the end belong to the last part.
-/

namespace Unmangle

/-- A test on a field: the event has it, and its value may have to match an expression. -/
structure FieldTest where
  name : Text
  value : Option Text
  deriving DecidableEq, Repr

/-- What a directive says: which events are meant, and up to which detail they are shown. -/
structure Directive where
  topic : Option Text
  span : Option Text
  field : Option FieldTest
  detail : Nat
  deriving DecidableEq, Repr

/-! ## Details -/

namespace Directive

/-- The number that a text of digits writes; a plus sign may stand before them. -/
def number? (t : Text) : Option Nat :=
  let digits := match t with
    | '+' :: rest => rest
    | t => t
  if !digits.isEmpty && digits.all Char.isDigit then
    some (digits.foldl (fun n c => n * 10 + (c.toNat - '0'.toNat)) 0)
  else none

def detailNames : List (String × Nat) :=
  [("off", 0), ("error", 1), ("warn", 2), ("info", 3), ("debug", 4), ("trace", 5)]

def allDetails : Nat := 5

/-- The detail that a text names, by a number or a word. -/
def detail? (t : Text) : Option Nat :=
  match number? t with
  | some n => if n ≤ allDetails then some n else none
  | none => detailNames.lookup (String.ofList (t.map Char.toLower))

end Directive

/-! ## Field tests -/

namespace FieldTest

/-- Whether some text is a number with a fraction or an exponent or neither. -/
def isDecimal (t : Text) : Bool :=
  let isMark := fun c : Char => c == 'e' || c == 'E'
  let mantissa := t.takeWhile (!isMark ·)
  let digits := mantissa.filter (· != '.')
  let power := (t.dropWhile (!isMark ·)).tail?
  let isPower := fun t : Text =>
    let digits := match t with
      | '+' :: rest => rest
      | '-' :: rest => rest
      | t => t
    !digits.isEmpty && digits.all Char.isDigit
  !digits.isEmpty && digits.all Char.isDigit && mantissa.length ≤ digits.length + 1 &&
    power.all isPower

/-- Whether a text can be tested for: a well-formed expression, or a number with a plus sign, which
is none. -/
def isValue (t : Text) : Bool :=
  Expression.isWellFormed t ||
    match t with
    | '+' :: rest =>
        isDecimal rest || String.ofList (rest.map Char.toLower) ∈ ["inf", "infinity", "nan"]
    | _ => false

/-- Reads a test: a name, or a name and a value with an equals sign between them. What follows a
second equals sign does not count. -/
def read (t : Text) : Option FieldTest :=
  match Text.splitOn '=' t with
  | [name] => if name.isEmpty then none else some ⟨name, none⟩
  | name :: value :: _ => if isValue value then some ⟨name, some value⟩ else none
  | [] => none

end FieldTest

/-! ## Directives -/

namespace Directive

/-- The part that is being read, with the place where it starts. -/
inductive Part where
  /-- A topic or a detail. -/
  | word (start : Nat)
  | span (start : Nat)
  | field (start : Nat)
  /-- The closing brace was read. -/
  | afterField
  /-- The closing bracket was read. -/
  | afterSpan
  | detail (start : Nat)
  deriving DecidableEq, Repr

/-- A directive so far, and the part that is being read. -/
structure Draft where
  directive : Directive
  part : Part

def canStart (c : Char) : Bool := c == '-' || c == ':' || c == '_' || isLetterOrNumber c

def begin? (c : Char) : Option Draft :=
  let directive := ⟨none, none, none, allDetails⟩
  if c = '[' then some ⟨directive, .span 1⟩
  else if canStart c then some ⟨directive, .word 0⟩
  else none

/-- The draft after one more character, which stands at a place. Parts are cut from the text as it
was written. -/
def step (written : Text) (d : Draft) (place : Nat) (c : Char) : Option Draft :=
  let cut := fun start => written.slice? start place
  match d.part with
  | .word start =>
      if c = '=' then do
        return ⟨{ d.directive with topic := ← cut start }, .detail (place + 1)⟩
      else if c = '[' then do
        return ⟨{ d.directive with topic := ← cut start }, .span (place + 1)⟩
      else some d
  | .span start =>
      if c = ']' then do
        return ⟨{ d.directive with span := ← cut start }, .afterSpan⟩
      else if c = '\x7b' then do
        let span ← cut start
        return ⟨{ d.directive with span := if span.isEmpty then none else span },
          .field (place + 1)⟩
      else some d
  | .field start =>
      if c = '\x7d' then do
        return ⟨{ d.directive with field := ← FieldTest.read (← cut start) }, .afterField⟩
      else some d
  | .afterField => if c = ']' then some { d with part := .afterSpan } else none
  | .afterSpan => if c = '=' then some { d with part := .detail (place + 1) } else none
  | .detail _ => some d

def steps (written : Text) (d : Draft) (place : Nat) : Text → Option Draft
  | [] => some d
  | c :: rest => do steps written (← step written d place c) (place + c.utf8Size) rest

/-- The directive that is complete where the text ends. A word alone is a detail if it names one. -/
def finish (written : Text) (d : Draft) : Option Directive :=
  match d.part with
  | .word start => do
      let word ← written.dropBytes? start
      match detail? word with
      | some detail => return { d.directive with detail }
      | none => return { d.directive with topic := word }
  | .detail start => do
      let word ← written.dropBytes? start
      if word.isEmpty then return d.directive
      else return { d.directive with detail := ← detail? word }
  | .afterSpan => some d.directive
  | _ => none

def read (written : Text) : Option Directive :=
  match written.trim with
  | [] => none
  | c :: rest => do
      let d ← steps written (← begin? c) c.utf8Size rest
      finish written d

end Directive

end Unmangle
