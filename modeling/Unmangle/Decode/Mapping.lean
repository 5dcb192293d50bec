import Unmangle.Decode.Scan
import Unmangle.Table.Reader
import Unmangle.Trie.Render

set_option autoImplicit false

/-! # Mappings

A mapping replaces whole words. Its pattern is made from the trie of the keys and matches, at each
place, the longest key that starts and ends at a word boundary. Each match is replaced by the
value of the key, unless a double quote stands directly before it and the mapping leaves such
words alone.

* `Mapping.compile` makes a mapping of the pairs with a value that is not empty.
* `Mapping.apply` is the text with its replacements, or nothing if there is no match.
-/

namespace Unmangle

/-- Keys and the values that replace them. -/
abbrev Pairs := Dict Text Text

/-- The replacements of one category. -/
structure Mapping where
  /-- What kind of identifiers it replaces. -/
  category : String
  /-- The text of the pattern. -/
  source : Text
  /-- The pattern. -/
  pattern : Pattern
  /-- The value of each key. -/
  replacements : Pairs
  /-- Whether words directly after a double quote stay as they are. -/
  skipQuoted : Bool
  deriving DecidableEq

/-- How many words were replaced, and how many were left alone after a quote. -/
structure Stats where
  replaced : Nat
  skippedQuoted : Nat
  deriving DecidableEq, Repr, Inhabited

namespace Stats

def zero : Stats := ⟨0, 0⟩

instance : Add Stats where
  add a b := ⟨a.replaced + b.replaced, a.skippedQuoted + b.skippedQuoted⟩

end Stats

namespace Mapping

/-! ## Compilation -/

/-- The pattern text of the words that are members of a trie. -/
def sourceOf (t : Trie) : Text := "\\b".toList ++ t.pattern ++ "\\b".toList

/-- The mapping of some pairs; pairs with an empty value are dropped. -/
def compile [Pattern.Engine] (category : String) (pairs : Pairs) (skipQuoted : Bool) :
    Traced Mapping := do
  let replacements := pairs.filter fun _ value => !value.isEmpty
  let trie := Trie.ofList replacements.keys
  let source := sourceOf trie
  Traced.report (.patternCompiled trie.size category (Text.byteSize source))
  match Pattern.compile source with
  | .error fault => Traced.fail (.invalidPattern category fault)
  | .ok pattern => return { category, source, pattern, replacements, skipQuoted }

/-- The mapping of one column of a table. A table with rows must have the column. -/
def ofTable [Pattern.Engine] (category : String) (table : Table) (column : Text)
    (skipQuoted : Bool) : Traced Mapping :=
  if !table.isEmpty && !table.hasColumn column then
    Traced.fail (.missingColumn category column)
  else compile category (table.columnValues column) skipQuoted

/-! ## Application -/

/-- What a piece of a text becomes, and what is counted for it. -/
def applyPiece (m : Mapping) : Piece → Text × Stats
  | .plain c => ([c], .zero)
  | .hit left word =>
      if m.skipQuoted && left == some '"' then (word, ⟨0, 1⟩)
      else
        match m.replacements.get? word with
        | some value => (value, ⟨1, 0⟩)
        | none => (word, .zero)

def scan (m : Mapping) (t : Text) : List Piece := m.pattern.scan t

/-- The ranges of bytes of the words that match. -/
def spans (m : Mapping) (t : Text) : List (Nat × Nat) := Piece.spans 0 (m.scan t)

def appliedText (m : Mapping) (pieces : List Piece) : Text :=
  pieces.flatMap fun piece => (m.applyPiece piece).1

def appliedStats (m : Mapping) (pieces : List Piece) : Stats :=
  pieces.foldr (fun piece stats => (m.applyPiece piece).2 + stats) .zero

/-- The text after its replacements, or nothing if no word matches, and what was counted. -/
def apply (m : Mapping) (t : Text) : Option Text × Stats :=
  let pieces := m.scan t
  (if pieces.any (·.isHit) then some (m.appliedText pieces) else none, m.appliedStats pieces)

end Mapping

end Unmangle
