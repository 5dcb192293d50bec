import Unmangle.Log.Directive
import Unmangle.Log.Event

set_option autoImplicit false

/-! # Log filters

A filter is a list of directives with commas between them. Of the directives that are about an
event, the one that picks it most closely decides how much is shown: a longer topic is closer, then
a field is closer than none, and of two that are the same the later one counts. A directive about
spans or about values of fields is about no event here, since there are neither spans nor fields
with such values. A filter with a directive that cannot be read shows nothing.
-/

namespace Unmangle

/-- A rule about events: those whose topic opens with a text and that carry a field, as far as the
rule asks for them, are shown up to a detail. -/
structure Rule where
  topic : Option Text
  field : Option Text
  detail : Nat
  deriving DecidableEq, Repr

/-- A filter: its rules about events. Without any, nothing is shown. -/
abbrev LogFilter := List Rule

/-- The rule about events that a directive makes. -/
def Directive.rule? (d : Directive) : Option Rule :=
  match d.span, d.field with
  | none, none => some ⟨d.topic, none, d.detail⟩
  | none, some ⟨name, none⟩ => some ⟨d.topic, some name, d.detail⟩
  | _, _ => none

namespace Rule

def isAbout (r : Rule) (e : Event) : Bool :=
  r.topic.all (·.isPrefixOf e.topic.name.toList) &&
    r.field.all fun field => e.fields.contains (String.ofList field)

/-- How closely a rule picks events by their topic. -/
def closeness (r : Rule) : Nat :=
  match r.topic with
  | none => 0
  | some t => t.length + 1

/-- Whether the field of a rule is at least as close as that of another one: any field is closer
than none, and of two fields the one whose name comes later. -/
def fieldAtLeast (r other : Rule) : Bool :=
  match r.field, other.field with
  | _, none => true
  | none, some _ => false
  | some f, some g => !decide (f < g)

/-- Whether a rule picks events at least as closely as another one. -/
def isAtLeast (r other : Rule) : Bool :=
  if r.closeness = other.closeness then r.fieldAtLeast other
  else other.closeness < r.closeness

/-- The closer one of two rules, and the later one of two that are the same. -/
def closer (best : Option Rule) (r : Rule) : Option Rule :=
  match best with
  | none => some r
  | some b => if r.isAtLeast b then some r else some b

end Rule

namespace LogFilter

def read (t : Text) : LogFilter :=
  let parts := (Text.splitOn ',' t).filter (!·.isEmpty)
  match parts.mapM Directive.read with
  | none => []
  | some directives => directives.filterMap Directive.rule?

def ruleFor? (f : LogFilter) (e : Event) : Option Rule :=
  (f.filter (·.isAbout e)).foldl Rule.closer none

def shows (f : LogFilter) (e : Event) : Bool :=
  (f.ruleFor? e).any (e.level.detail ≤ ·.detail)

end LogFilter

/-! ## Lines -/

/-- The form of a character in a log line: control characters that a terminal could obey are
written by their number. -/
def logChar (c : Char) : String :=
  let hex := fun n : Nat => String.ofList (Nat.toDigits 16 n)
  if c = '\x1b' then "\\x1b"
  else if c = '\x07' then "\\x07"
  else if c = '\x08' then "\\x08"
  else if c = '\x0c' then "\\x0c"
  else if c = '\x7f' then "\\x7f"
  else if 0x80 ≤ c.toNat ∧ c.toNat ≤ 0x9f then "\\u\x7b" ++ hex c.toNat ++ "\x7d"
  else String.singleton c

/-- The line of an event, without its time. -/
def Event.line (e : Event) : String :=
  e.level.label ++ " " ++ String.join (e.text.toList.map logChar)

end Unmangle
