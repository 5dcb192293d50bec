import Unmangle.Files.Tree

set_option autoImplicit false

/-! # Log events

What the library reports while it works, as data: each event has a level, a topic and fields by
which filters select it, and a text for readers.
-/

namespace Unmangle

/-- The levels of events, from the least to the most important one. -/
inductive Level where
  | trace
  | debug
  | info
  | warn
  | error
  deriving DecidableEq, Repr

namespace Level

/-- The rank of a level; more detail has a higher rank. -/
def detail : Level → Nat
  | .error => 1
  | .warn => 2
  | .info => 3
  | .debug => 4
  | .trace => 5

/-- The name of a level, five characters wide. -/
def label : Level → String
  | .trace => "TRACE"
  | .debug => "DEBUG"
  | .info => " INFO"
  | .warn => " WARN"
  | .error => "ERROR"

end Level

inductive Topic where
  | tables
  | cascade
  | patterns
  | decoding
  | files
  | walking
  | clipboard
  | command
  deriving DecidableEq, Repr

/-- The name by which filters select a topic. -/
def Topic.name : Topic → String
  | .tables => "demap_cli::mappings::parser"
  | .cascade => "demap_cli::config::cascade"
  | .patterns => "demap_cli::decode::matcher"
  | .decoding => "demap_cli::decode"
  | .files => "demap_cli::files"
  | .walking => "ignore::walk"
  | .clipboard => "demap_cli::clipboard"
  | .command => "demap"

inductive Event where
  | unclosedQuote (source : Path) (line : Nat)
  | fieldCount (source : Path) (line expected found : Nat)
  | duplicateKey (source : Path) (key stored : Text)
  | tableLoaded (rows : Nat) (path : Path)
  | configLoaded (path : Path)
  | userConfigLoaded (path : Path)
  | patternCompiled (keys : Nat) (category : String) (bytes : Nat)
  | mappingLoaded (category : String) (replacements : Nat) (path : Path)
  /-- A walk starts while the program runs in a folder. -/
  | walkStarted (here : Path)
  | folderEntered (path : Path)
  | pathSkipped (path : Path)
  | walkFailed (path : Path) (cause : FileError)
  | fileStarted (path : Path)
  | fileWritten (target : Path) (replaced skippedQuoted : Nat)
  | clipboardDecoded (replaced : Nat)
  | inputDecoded (replaced : Nat)
  deriving DecidableEq, Repr

namespace Event

def level : Event → Level
  | .walkStarted _ => .trace
  | .unclosedQuote .. | .fieldCount .. | .pathSkipped _ | .walkFailed .. => .warn
  | .mappingLoaded .. | .folderEntered _ | .fileStarted _ | .clipboardDecoded _
  | .inputDecoded _ => .info
  | .duplicateKey .. | .tableLoaded .. | .configLoaded _ | .userConfigLoaded _
  | .patternCompiled .. | .fileWritten .. => .debug

def topic : Event → Topic
  | .unclosedQuote .. | .fieldCount .. | .duplicateKey .. | .tableLoaded .. => .tables
  | .configLoaded _ | .userConfigLoaded _ => .cascade
  | .patternCompiled .. => .patterns
  | .mappingLoaded .. => .decoding
  | .walkStarted _ => .walking
  | .folderEntered _ | .pathSkipped _ | .walkFailed .. | .fileStarted _ | .fileWritten .. => .files
  | .clipboardDecoded _ => .clipboard
  | .inputDecoded _ => .command

/-- The fields that an event carries: its text, and for some events also where it comes from. -/
def fields : Event → List String
  | .walkStarted _ => ["message", "log.target", "log.module_path", "log.file", "log.line"]
  | _ => ["message"]

def text : Event → String
  | .unclosedQuote source line =>
      source.toString ++ ":" ++ toString line ++ ": closing quote missing, skipping line"
  | .fieldCount source line expected found =>
      source.toString ++ ":" ++ toString line ++ ": expected " ++ toString expected ++
        " fields, found " ++ toString found ++ ", skipping line"
  | .duplicateKey source key stored =>
      source.toString ++ ": duplicate key " ++ String.ofList key ++ " stored as " ++
        String.ofList stored
  | .tableLoaded rows path => "Loaded " ++ toString rows ++ " rows from " ++ path.toString
  | .configLoaded path => "Loaded config " ++ path.toString
  | .userConfigLoaded path => "Loaded user config " ++ path.toString
  | .patternCompiled keys category bytes =>
      "Compiled " ++ toString keys ++ " " ++ category ++ " keys into a " ++ toString bytes ++
        " byte pattern"
  | .mappingLoaded category replacements path =>
      category ++ ": " ++ toString replacements ++ " replacements from " ++ path.toString
  | .walkStarted here => "automatically discovered CWD: " ++ here.toString
  | .folderEntered path => "Recursing into " ++ path.toString
  | .pathSkipped path => "Skipping " ++ path.toString
  | .walkFailed path cause =>
      "Walk error: " ++ path.toString ++ ": IO error for operation on " ++ path.toString ++ ": " ++
        cause.message
  | .fileStarted path => "Processing " ++ path.toString
  | .fileWritten target replaced skippedQuoted =>
      target.toString ++ ": " ++ toString replaced ++ " replaced, " ++ toString skippedQuoted ++
        " quoted skipped"
  | .clipboardDecoded replaced => "clipboard: " ++ toString replaced ++ " replaced"
  | .inputDecoded replaced => "stdin: " ++ toString replaced ++ " replaced"

end Event

end Unmangle
