import Unmangle.Config.Basic
import Unmangle.Files.Tree
import Unmangle.Pattern.Reader

set_option autoImplicit false

/-! # Errors

The ways in which an operation of the library can fail, and their wording.

* `Error.message` is the line for readers; it does not repeat the cause.
* `Error.chain` is that line followed by the lines of its causes.
-/

namespace Unmangle

/-- Why a clipboard cannot be used. -/
inductive ClipboardFault where
  | empty
  | refused
  deriving DecidableEq, Repr

def ClipboardFault.message : ClipboardFault → String
  | .empty => "clipboard is empty"
  | .refused => "clipboard refused the text"

inductive Error where
  | configRead (path : Path) (cause : FileError)
  | configParse (path : Path) (cause : Config.ReadFault)
  | invalidConfig (fault : Config.Fault)
  | mappingNotFound (path : Path)
  | mappingRead (path : Path) (cause : FileError)
  | missingColumn (category : String) (column : Text)
  | invalidPattern (category : String) (cause : Pattern.Fault)
  | sourceRead (path : Path) (cause : FileError)
  | sourceWrite (path : Path) (cause : FileError)
  | clipboard (cause : ClipboardFault)
  deriving DecidableEq, Repr

namespace Error

def message : Error → String
  | .configRead path _ => "Failed to read config file: " ++ path.toString
  | .configParse path _ => "Failed to parse config file: " ++ path.toString
  | .invalidConfig fault => "Invalid config value for " ++ fault.key ++ ": " ++ fault.reason
  | .mappingNotFound path => "Mapping file not found: " ++ path.toString
  | .mappingRead path _ => "Failed to read mapping file: " ++ path.toString
  | .missingColumn category column =>
      "Mapping " ++ category ++ " has no column named " ++ String.ofList column
  | .invalidPattern category _ => "Invalid regex pattern for " ++ category
  | .sourceRead path _ => "Failed to read source file: " ++ path.toString
  | .sourceWrite path _ => "Failed to write output file: " ++ path.toString
  | .clipboard _ => "Clipboard unavailable"

/-- The cause behind an error, if there is one. -/
def cause? : Error → Option String
  | .configRead _ cause => some cause.message
  | .configParse _ cause => some cause.message
  | .invalidConfig _ => none
  | .mappingNotFound _ => none
  | .mappingRead _ cause => some cause.message
  | .missingColumn _ _ => none
  | .invalidPattern _ cause => some cause.message
  | .sourceRead _ cause => some cause.message
  | .sourceWrite _ cause => some cause.message
  | .clipboard cause => some cause.message

/-- The message, and after it the one of the cause. -/
def chain (e : Error) : List String := e.message :: e.cause?.toList

end Error

end Unmangle
