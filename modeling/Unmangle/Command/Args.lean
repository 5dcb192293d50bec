import Unmangle.Files.Path

set_option autoImplicit false

/-! # Command lines

What the arguments of the program ask for. Options come in any order before a double dash, which
makes all later arguments plain ones. The first argument names a subcommand if it is the name of
one; after an option or a path it is a path like any other.

* `Request.read` is the request that some arguments make, or that they make none.
-/

namespace Unmangle

/-- The two kinds of identifiers. -/
inductive Category where
  | fields
  | methods
  deriving DecidableEq, Repr

inductive Request where
  | version
  | help
  /-- Write a new configuration file. -/
  | init (force : Bool)
  /-- Decode the clipboard. -/
  | clipboard
  /-- Decode files; without paths, decode the input. -/
  | decode (paths : List Path) (inPlace : Bool)
  /-- Dump both tables into a folder. -/
  | print (folder : Path)
  /-- Show the pattern of some texts, or the outline of their trie. -/
  | pattern (texts : List Text) (outline : Bool)
  /-- Show the pattern of the keys of a table, or the outline of their trie. -/
  | patternOf (category : Category) (outline : Bool)
  | showConfig
  | checkConfig
  deriving DecidableEq, Repr

namespace Request

/-! ## Plain arguments and options -/

def isOption (arg : String) : Bool := arg.startsWith "-" && arg != "-"

def asksHelp (arg : String) : Bool := arg == "--help" || arg.startsWith "-h"

/-! ## Options of subcommands -/

def readPrint (folder : Option Path) : List String → Option Request
  | [] => some (.print (folder.getD (.ofString ".")))
  | ["--"] => some (.print (folder.getD (.ofString ".")))
  | "--out-dir" :: value :: rest =>
      if folder.isSome || value.isEmpty || isOption value then none
      else readPrint (some (.ofString value)) rest
  | arg :: rest =>
      if asksHelp arg then some .help
      else if arg.startsWith "--out-dir=" then
        let value := arg.toList.drop "--out-dir=".length
        if folder.isSome || value.isEmpty then none else readPrint (some ⟨value⟩) rest
      else none

/-- What the arguments of the pattern command say so far. -/
structure PatternArgs where
  texts : List Text
  source : Option Category
  outline : Bool

namespace PatternArgs

def add (a : PatternArgs) (arg : String) : PatternArgs :=
  { a with texts := a.texts ++ [arg.toList] }

/-- Sets the table to take the keys from, once. -/
def from? (a : PatternArgs) (name : Text) : Option PatternArgs :=
  if a.source.isSome then none
  else if name = "fields".toList then some { a with source := some .fields }
  else if name = "methods".toList then some { a with source := some .methods }
  else none

/-- The request, unless there are both texts and a table. -/
def request (a : PatternArgs) : Option Request :=
  match a.source with
  | none => some (.pattern a.texts a.outline)
  | some category => if a.texts.isEmpty then some (.patternOf category a.outline) else none

end PatternArgs

def readPattern (a : PatternArgs) : List String → Option Request
  | [] => a.request
  | "--" :: rest => (rest.foldl .add a).request
  | "--tree" :: rest => if a.outline then none else readPattern { a with outline := true } rest
  | "--from" :: name :: rest => do readPattern (← a.from? name.toList) rest
  | arg :: rest =>
      if arg.startsWith "--from=" then do
        readPattern (← a.from? (arg.toList.drop "--from=".length)) rest
      else if asksHelp arg then some .help
      else if isOption arg then none
      else readPattern (a.add arg) rest

/-- Reads the arguments of one of the configuration commands, which take none. -/
def readBare (request : Request) : List String → Option Request
  | [] => some request
  | ["--"] => some request
  | arg :: _ => if asksHelp arg then some .help else none

def readConfigHelp : List String → Option Request
  | [] => some .help
  | ["show"] => some .help
  | ["validate"] => some .help
  | ["help"] => some .help
  | _ => none

def readConfig : List String → Option Request
  | "show" :: rest => readBare .showConfig rest
  | "validate" :: rest => readBare .checkConfig rest
  | "help" :: rest => readConfigHelp rest
  | arg :: _ => if asksHelp arg then some .help else none
  | [] => none

def readHelp : List String → Option Request
  | [] => some .help
  | ["print"] => some .help
  | ["pattern"] => some .help
  | ["help"] => some .help
  | "config" :: rest => readConfigHelp rest
  | _ => none

/-! ## Options of the program itself -/

/-- What the options of the program say so far. -/
structure MainArgs where
  init : Bool
  force : Bool
  inPlace : Bool
  clipboard : Bool
  paths : List Path

namespace MainArgs

def blank : MainArgs := ⟨false, false, false, false, []⟩

/-- Adds a path, which must not be empty. -/
def addPath (a : MainArgs) (arg : String) : Option MainArgs :=
  if arg.isEmpty then none else some { a with paths := a.paths ++ [.ofString arg] }

def addPaths (a : MainArgs) (args : List String) : Option MainArgs := args.foldlM addPath a

/-- Sets an option that has a letter, once. -/
def setLetter (a : MainArgs) (c : Char) : Option MainArgs :=
  if c = 'r' ∧ !a.inPlace then some { a with inPlace := true }
  else if c = 'c' ∧ !a.clipboard then some { a with clipboard := true }
  else none

def setName (a : MainArgs) (name : String) : Option MainArgs :=
  if name = "--init" ∧ !a.init then some { a with init := true }
  else if name = "--force" ∧ !a.force then some { a with force := true }
  else if name = "--in-place" then a.setLetter 'r'
  else if name = "--clipboard" then a.setLetter 'c'
  else none

/-- The request, unless options exclude each other or one that is needed is missing. -/
def request (a : MainArgs) : Option Request :=
  if a.force && !a.init then none
  else if a.clipboard && (a.inPlace || !a.paths.isEmpty) then none
  else if a.init then some (.init a.force)
  else if a.clipboard then some .clipboard
  else some (.decode a.paths a.inPlace)

end MainArgs

/-- The effect of one argument: more is to come, or the request is clear. -/
inductive Step where
  | more (a : MainArgs)
  | done (r : Request)

/-- Reads letters of options that stand together after one dash. -/
def readLetters (a : MainArgs) : List Char → Option Step
  | [] => some (.more a)
  | c :: rest =>
      if c = 'h' then some (.done .help)
      else if c = 'V' then some (.done .version)
      else do readLetters (← a.setLetter c) rest

def readOne (a : MainArgs) (arg : String) : Option Step :=
  if arg = "--help" then some (.done .help)
  else if arg = "--version" then some (.done .version)
  else if arg.startsWith "--" then (a.setName arg).map .more
  else if isOption arg then readLetters a (arg.toList.drop 1)
  else (a.addPath arg).map .more

def readMain (a : MainArgs) : List String → Option Request
  | [] => a.request
  | "--" :: rest => do (← a.addPaths rest).request
  | arg :: rest => do
      match ← readOne a arg with
      | .done r => return r
      | .more a => readMain a rest

/-- The request that some arguments make. -/
def read : List String → Option Request
  | "print" :: rest => readPrint none rest
  | "pattern" :: rest => readPattern ⟨[], none, false⟩ rest
  | "config" :: rest => readConfig rest
  | "help" :: rest => readHelp rest
  | args => readMain .blank args

end Request

end Unmangle
