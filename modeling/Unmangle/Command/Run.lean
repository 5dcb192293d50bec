import Unmangle.Command.Args
import Unmangle.Config.Cascade
import Unmangle.Config.Template
import Unmangle.Files.Process
import Unmangle.Log.Filter
import Unmangle.Trie.Outline

set_option autoImplicit false

/-! # Running the program

A run takes a request to what is printed, what is reported and the files afterwards.

* `Command.answer` does what a request asks for.
* `Command.run` also reads the arguments and puts log and errors into words.
-/

namespace Unmangle.Command

/-- What the program finds when it starts. -/
structure Surroundings where
  workspace : Workspace
  /-- The home folder. -/
  home : Path
  /-- What the standard input holds. -/
  input : Content
  /-- Which events are shown. -/
  filter : LogFilter

inductive Ending where
  | success
  /-- An error, from the outermost description to the innermost cause. -/
  | failure (chain : List String)
  /-- A finding that is an answer of its own. -/
  | complaint (line : String)
  deriving DecidableEq, Repr

structure Answer where
  workspace : Workspace
  output : String
  log : List Event
  ending : Ending

/-- What the program leaves behind. -/
structure Outcome where
  code : Nat
  output : String
  errors : String
  workspace : Workspace

namespace Answer

def printing (ws : Workspace) (output : String) : Answer := ⟨ws, output, [], .success⟩

def failing (ws : Workspace) (chain : List String) : Answer := ⟨ws, "", [], .failure chain⟩

/-- Goes on with the value of an operation; if it fails, its errors follow some descriptions. -/
def after {α : Type} (ws : Workspace) (context : List String) (x : Traced α) (k : α → Answer) :
    Answer :=
  match x.result with
  | .ok a =>
      let later := k a
      { later with log := x.log ++ later.log }
  | .error e => ⟨ws, "", x.log, .failure (context ++ e.chain)⟩

end Answer

def withSettings (s : Surroundings) (k : Settings → Answer) : Answer :=
  .after s.workspace ["Failed to load configuration"]
    (Settings.load s.workspace s.workspace.herePath s.home) k

def withDecoder [Pattern.Engine] (s : Surroundings) (k : Settings → Decoder → Answer) : Answer :=
  withSettings s fun settings =>
    .after s.workspace ["Failed to load mapping tables"] (Decoder.load s.workspace settings)
      (k settings)

/-! ## Single requests -/

/-- Writes a new configuration file. -/
def initialise (ws : Workspace) (force : Bool) : Answer :=
  let name := Config.fileName
  if ws.pathExists name && !force then
    .failing ws [name.toString ++ " already exists. Use --force to overwrite."]
  else
    match ws.writeText name Config.template with
    | .error cause => .failing ws ["Failed to write " ++ name.toString, cause.message]
    | .ok ws => .printing ws ("Created " ++ name.toString ++ "\n")

def decodeInput (s : Surroundings) (d : Decoder) : Answer :=
  match s.input with
  | .binary _ => .failing s.workspace ["Failed to read stdin", FileError.notText.message]
  | .text t =>
      let (decoded, stats) := d.decode t
      { Answer.printing s.workspace (String.ofList decoded) with
        log := [.inputDecoded stats.replaced] }

def summary (r : Report) : String :=
  String.join (r.written.map fun p => "Wrote " ++ p.toString ++ "\n") ++
    "Decoded " ++ toString r.processed ++ " files (" ++ toString r.stats.replaced ++
    " identifiers replaced, " ++ toString r.stats.skippedQuoted ++ " quoted left alone, " ++
    toString r.skipped ++ " paths skipped)\n"

def decodePaths (d : Decoder) (options : ProcessOptions) :
    Workspace → Report → List Path → Answer
  | ws, r, [] => .printing ws (summary r)
  | ws, r, p :: rest =>
      let run := ws.process d options r p
      match run.failure with
      | some e =>
          ⟨run.workspace, "", run.log, .failure (("Failed to process " ++ p.toString) :: e.chain)⟩
      | none =>
          let later := decodePaths d options run.workspace run.report rest
          { later with log := run.log ++ later.log }

def dumpPath (folder table : Path) : Path :=
  folder.join ⟨table.fileName?.getD [] ++ ".log".toList⟩

/-- Dumps tables into a folder, one after another. -/
def printTables (folder : Path) : Workspace → List Path → Answer
  | ws, [] => .printing ws ""
  | ws, p :: rest =>
      .after ws [] (Table.load ws p) fun table =>
        let target := dumpPath folder p
        match ws.writeText target table.dump with
        | .error cause => .failing ws ["Failed to create " ++ target.toString, cause.message]
        | .ok ws =>
            let later := printTables folder ws rest
            { later with output := "Written " ++ target.toString ++ "\n" ++ later.output }

/-- Prints the pattern or the outline of a trie. -/
def printTrie (ws : Workspace) (t : Trie) (outline : Bool) : Answer :=
  .printing ws (String.ofList (if outline then t.outline else t.pattern) ++ "\n")

/-- The settings in words. -/
def describe (settings : Settings) : String :=
  "fields: " ++ settings.fields.toString ++ "\nmethods: " ++ settings.methods.toString ++
    "\ncolumn: " ++ String.ofList settings.column ++
    "\nextensions: " ++ String.ofList (", ".toList.intercalate settings.extensions) ++
    "\nskip-quoted: " ++ toString settings.skipQuoted ++ "\n"

def describeSources (sources : List Path) : String :=
  if sources.isEmpty then "No configuration files found, using defaults.\n\n"
  else
    "Configuration files (in cascade order):\n\n" ++
      String.join (sources.map fun p => "# Source: " ++ p.toString ++ "\n") ++ "\n"

/-- The configuration file in the home folder. -/
def describeUser (ws : Workspace) (path : Path) : String :=
  "User config path: " ++ path.toString ++ "\n  " ++
    (if ws.pathExists path then "(exists)" else "(not found)") ++ "\n"

/-- Tells whether all configuration files can be used. -/
def checkConfig (s : Surroundings) : Answer :=
  let found := Config.discover s.workspace s.workspace.herePath s.home
  match found.result with
  | .error e => ⟨s.workspace, "", found.log, .complaint ("Configuration error: " ++ e.message)⟩
  | .ok configs =>
      let output :=
        if configs.isEmpty then "No configuration files found.\n"
        else
          "All configuration files are valid:\n" ++
            String.join (configs.map fun l => "  " ++ l.path.toString ++ "\n")
      ⟨s.workspace, output, found.log, .success⟩

/-! ## Requests -/

def versionLine : String := "demap 0.1.0\n"

def usage : String :=
  "Usage: demap [OPTIONS] [PATHS]...\n       demap print [--out-dir <DIR>]\n" ++
    "       demap pattern [--from <fields|methods>] [--tree] [STRINGS]...\n" ++
    "       demap config <show|validate>\n\n" ++
    "Options:\n      --init       Create a template .demap.toml in the current directory\n" ++
    "      --force      Overwrite existing .demap.toml when using --init\n" ++
    "  -r, --in-place   Overwrite source files instead of writing decoded copies\n" ++
    "  -c, --clipboard  Decode the clipboard text and write it back\n" ++
    "  -h, --help       Print help\n  -V, --version    Print version\n"

def tableOf (settings : Settings) : Category → Path
  | .fields => settings.fields
  | .methods => settings.methods

/-- The answer to a request, of a program that is built without its clipboard feature: a request
for the clipboard finds that out once there is a decoder. What the feature does with the text on a
clipboard is `Clipboard.decode`. -/
def answer [Pattern.Engine] (s : Surroundings) : Request → Answer
  | .version => .printing s.workspace versionLine
  | .help => .printing s.workspace usage
  | .init force => initialise s.workspace force
  | .clipboard => withDecoder s fun _ _ =>
      .failing s.workspace ["demap was built without the clipboard feature"]
  | .decode paths inPlace => withDecoder s fun settings d =>
      if paths.isEmpty then decodeInput s d
      else decodePaths d ⟨settings.extensions, inPlace⟩ s.workspace .empty paths
  | .print folder => withSettings s fun settings =>
      printTables folder s.workspace [settings.fields, settings.methods]
  | .pattern texts outline => printTrie s.workspace (.ofList texts) outline
  | .patternOf category outline => withSettings s fun settings =>
      .after s.workspace [] (Table.load s.workspace (tableOf settings category)) fun table =>
        printTrie s.workspace (.ofList table.keys) outline
  | .showConfig => withSettings s fun settings =>
      .printing s.workspace
        (describeSources settings.sources ++ describe settings ++ "\n" ++
          describeUser s.workspace (Config.userPath s.home))
  | .checkConfig => checkConfig s

/-! ## Wording of errors -/

/-- A cause with its lines indented; the first line carries the number of the cause, if it has
one. -/
def indented (number : Option Nat) (message : String) : String :=
  let first := match number with
    | some n =>
        let digits := toString n
        String.ofList (List.replicate (5 - digits.length) ' ') ++ digits ++ ": "
    | none => "    "
  let margin := if number.isSome then "\n       " else "\n    "
  first ++ margin.intercalate (message.splitOn "\n")

/-- The causes below an error, numbered if there are two or more. -/
def causes : List String → String
  | [] => ""
  | [one] => "\n\nCaused by:\n" ++ indented none one
  | many =>
      "\n\nCaused by:" ++
        String.join (many.zipIdx.map fun (message, n) => "\n" ++ indented (some n) message)

def Ending.text : Ending → String
  | .success => ""
  | .failure [] => ""
  | .failure (message :: rest) => "error: " ++ message ++ causes rest ++ "\n"
  | .complaint line => line ++ "\n"

def Ending.code : Ending → Nat
  | .success => 0
  | .failure _ => 1
  | .complaint _ => 1

/-- The lines of the events that a filter shows. -/
def logText (filter : LogFilter) (log : List Event) : String :=
  String.join ((log.filter filter.shows).map fun e => e.line ++ "\n")

/-- Runs the program. Arguments that make no request end it with code 2. -/
def run [Pattern.Engine] (s : Surroundings) (args : List String) : Outcome :=
  match Request.read args with
  | none => ⟨2, "", usage, s.workspace⟩
  | some request =>
      let a := answer s request
      ⟨a.ending.code, a.output, logText s.filter a.log ++ a.ending.text, a.workspace⟩

end Unmangle.Command
