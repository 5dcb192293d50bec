import Unmangle.Config.Settings
import Unmangle.Decode.Mapping

set_option autoImplicit false

/-! # Decoders

A decoder applies mappings one after another, each to what the one before it made of the text.
-/

namespace Unmangle

/-- The mappings of a decoder, in the order in which they apply. -/
abbrev Decoder := List Mapping

namespace Decoder

def step (m : Mapping) (state : Text × Stats) : Text × Stats :=
  let (changed, stats) := m.apply state.1
  (changed.getD state.1, state.2 + stats)

/-- The decoded text, and the counts over all mappings. -/
def decode (d : Decoder) (t : Text) : Text × Stats :=
  d.foldl (fun state m => step m state) (t, .zero)

/-- The mapping of one category, from the table in a file. -/
def loadMapping [Pattern.Engine] (ws : Workspace) (settings : Settings) (category : String)
    (path : Path) : Traced Mapping := do
  let table ← Table.load ws path
  let mapping ← Mapping.ofTable category table settings.column settings.skipQuoted
  Traced.report (.mappingLoaded category mapping.replacements.size path)
  return mapping

/-- The decoder of some settings: the fields first, then the methods. -/
def load [Pattern.Engine] (ws : Workspace) (settings : Settings) : Traced Decoder := do
  let fields ← loadMapping ws settings "fields" settings.fields
  let methods ← loadMapping ws settings "methods" settings.methods
  return [fields, methods]

end Decoder

end Unmangle
