import Unmangle.Decode.Decoder
import Unmangle.Files.Sibling
import Unmangle.Files.Walk

set_option autoImplicit false

/-! # Decoding files

The files that a walk meets are selected by their extension and decoded one after another, either
in place or into copies beside them. All files are selected before the first one is written, so a
copy is no source of the same run. A report accounts for what happened, also when a file fails.
-/

namespace Unmangle

/-- Which files are decoded, and where the result goes. -/
structure ProcessOptions where
  extensions : List Text
  inPlace : Bool
  deriving DecidableEq, Repr

structure Report where
  /-- The number of files that were decoded. -/
  processed : Nat
  /-- The number of paths that were passed over. -/
  skipped : Nat
  /-- The paths that were written, in order. -/
  written : List Path
  /-- The counts over all files. -/
  stats : Stats
  deriving DecidableEq, Repr

def Report.empty : Report := ⟨0, 0, [], .zero⟩

/-- The state after some files: what there is now, what was done, and the error that ended it. -/
structure Progress where
  workspace : Workspace
  report : Report
  failure : Option Error
  log : List Event

/-! ## Selection -/

/-- Whether the extension of a path is one of some extensions. -/
def hasExtension (p : Path) (extensions : List Text) : Bool :=
  p.extension?.any (extensions.contains ·)

/-- Whether something a walk meets is a file to decode. -/
def Sighting.selected? (extensions : List Text) : Sighting → Option Path
  | .file p => if hasExtension p extensions then some p else none
  | _ => none

def Sighting.isSkipped (extensions : List Text) : Sighting → Bool
  | .folder _ => false
  | .file p => !hasExtension p extensions
  | .other _ => true
  | .failed .. => true

/-- The event that reports what a walk meets, if it is not a file to decode. -/
def Sighting.event? (extensions : List Text) : Sighting → Option Event
  | .folder p => some (.folderEntered p)
  | .file p => if hasExtension p extensions then none else some (.pathSkipped p)
  | .other p => some (.pathSkipped p)
  | .failed p cause => some (.walkFailed p cause)

/-! ## Decoding -/

namespace Workspace

/-- Decodes one file. Gives the workspace after it, the path that was written and the counts. -/
def decodeFile (ws : Workspace) (d : Decoder) (inPlace : Bool) (p : Path) :
    Traced (Workspace × Path × Stats) := do
  Traced.report (.fileStarted p)
  match ws.readText p with
  | .error cause => Traced.fail (.sourceRead p cause)
  | .ok text =>
      let (decoded, stats) := d.decode text
      let target := if inPlace then p else ws.siblingPath p
      match ws.writeText target decoded with
      | .error cause => Traced.fail (.sourceWrite target cause)
      | .ok ws =>
          Traced.report (.fileWritten target stats.replaced stats.skippedQuoted)
          return (ws, target, stats)

/-- Decodes files until one fails. -/
def decodeFiles (ws : Workspace) (d : Decoder) (inPlace : Bool) (r : Report) :
    List Path → Progress
  | [] => ⟨ws, r, none, []⟩
  | p :: rest =>
      let step := ws.decodeFile d inPlace p
      match step.result with
      | .error e => ⟨ws, r, some e, step.log⟩
      | .ok (ws, target, stats) =>
          let r := { r with
            processed := r.processed + 1
            written := r.written ++ [target]
            stats := r.stats + stats }
          let later := ws.decodeFiles d inPlace r rest
          { later with log := step.log ++ later.log }

/-- The events of looking for files at a path: a walk starts where anything stands, and what it meets
is reported if it is not a file to decode. -/
def selectionLog (ws : Workspace) (extensions : List Text) (p : Path) : List Event :=
  let started := if (ws.entry .inspect p).toBool then [Event.walkStarted ws.herePath] else []
  started ++ (ws.walk p).filterMap (·.event? extensions)

/-- Decodes the file at a path, or the files below it, and adds to a report. -/
def process (ws : Workspace) (d : Decoder) (options : ProcessOptions) (r : Report) (p : Path) :
    Progress :=
  let sightings := ws.walk p
  let skipped := sightings.countP (·.isSkipped options.extensions)
  let files := sightings.filterMap (·.selected? options.extensions)
  let run := ws.decodeFiles d options.inPlace { r with skipped := r.skipped + skipped } files
  { run with log := ws.selectionLog options.extensions p ++ run.log }

end Workspace

end Unmangle
