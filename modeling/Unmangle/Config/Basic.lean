import Unmangle.Files.Path
import Unmangle.Text.Blank
import Unmangle.Toml.Reader

set_option autoImplicit false

/-! # Configurations

The settings that one configuration file makes. A setting that is missing is left to other files.
Unknown keys are ignored; a known key with a value of the wrong kind makes the whole file unusable.
-/

namespace Unmangle

/-- The settings of one configuration file. -/
structure Config where
  /-- Whether the search for further files ends here. -/
  root : Bool
  /-- The table of fields. -/
  fields : Option Path
  /-- The table of methods. -/
  methods : Option Path
  /-- The column that holds the replacements. -/
  column : Option Text
  /-- The extensions of the files to decode. -/
  extensions : Option (List Text)
  /-- Whether identifiers directly after a double quote stay as they are. -/
  skipQuoted : Option Bool
  deriving DecidableEq, Repr

namespace Config

def empty : Config := ⟨false, none, none, none, none, none⟩

instance : Inhabited Config := ⟨empty⟩

def fileName : Path := .ofString ".demap.toml"

/-! ## Reading -/

/-- Why a text is no configuration. -/
inductive ReadFault where
  | malformed
  | wrongKind (key : Text)
  deriving DecidableEq, Repr

def ReadFault.message : ReadFault → String
  | .malformed => "TOML parse error: the document is malformed"
  | .wrongKind key => "TOML parse error: wrong kind of value for " ++ String.ofList key

/-- The value of a key as a partial function reads it, if the key is there. -/
def setting {α : Type} (entries : Toml.Entries) (key : String) (read : Toml.Item → Option α) :
    Except ReadFault (Option α) :=
  match entries.find? key.toList with
  | none => .ok none
  | some item =>
      match read item with
      | some value => .ok (some value)
      | none => .error (.wrongKind key.toList)

def text? : Toml.Item → Option Text
  | .text t => some t
  | _ => none

def flag? : Toml.Item → Option Bool
  | .flag b => some b
  | _ => none

def texts? : Toml.Item → Option (List Text)
  | .array items => items.mapM text?
  | _ => none

def ofEntries (entries : Toml.Entries) : Except ReadFault Config := do
  let root ← setting entries "root" flag?
  let fields ← setting entries "fields" text?
  let methods ← setting entries "methods" text?
  let column ← setting entries "column" text?
  let extensions ← setting entries "extensions" texts?
  let skipQuoted ← setting entries "skip-quoted" flag?
  return ⟨root.getD false, fields.map .mk, methods.map .mk, column, extensions, skipQuoted⟩

/-- The configuration that a text makes. -/
def read (t : Text) : Except ReadFault Config :=
  match Toml.readDocument t with
  | none => .error .malformed
  | some entries => ofEntries entries

/-! ## Validation -/

/-- A setting with a value that would make every run useless. -/
inductive Fault where
  | blankColumn
  | emptyExtension
  deriving DecidableEq, Repr

def Fault.key : Fault → String
  | .blankColumn => "column"
  | .emptyExtension => "extensions"

def Fault.reason : Fault → String
  | .blankColumn => "must not be empty"
  | .emptyExtension => "entries must not be empty"

/-- Refuses a blank column, then an extension that has nothing after its leading dots. -/
def validate (c : Config) : Except Fault Unit :=
  if c.column.any Text.isBlank then .error .blankColumn
  else if c.extensions.any (·.any fun e => e.dropDots.isEmpty) then .error .emptyExtension
  else .ok ()

end Config

end Unmangle
