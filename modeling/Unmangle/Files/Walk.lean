import Unmangle.Files.Tree
import Unmangle.Log.Event

set_option autoImplicit false

/-! # Walking through files

A walk lists what stands at a given path and below it. Links are not followed, with two
exceptions for the given path itself: a link to a file stands for that file, and behind a link to
a folder the content of the folder is listed. A path that leads to nothing is listed as skipped.

A folder is listed by its path, and one whose path is too long is closed: the walk reports that it
has failed there and goes on behind the folder.
-/

namespace Unmangle

/-- What a walk meets. -/
inductive Sighting where
  | folder (path : Path)
  | file (path : Path)
  /-- A link, or a path to nothing that can be read. -/
  | other (path : Path)
  /-- A path that cannot be looked at. -/
  | failed (path : Path) (cause : FileError)
  deriving DecidableEq, Repr

/-- Whether a folder can be listed by a path that leads to it. -/
def Path.opens (p : Path) : Bool := Text.byteSize p.text < Tree.pathLimit

/-- What a walk meets in an entry that it does not follow. -/
def Entry.sightings (path : Path) : Entry → List Sighting
  | .file _ => [.file path]
  | .link _ => [.other path]
  | .folder => .folder path :: if path.opens then [] else [.failed path .nameTooLong]

namespace Workspace

/-- What a walk lists below a location, where a path leads to the location: all that stands in
folders that can be listed. -/
def listed (ws : Workspace) (loc : Location) (p : Path) : List (Location × Entry) :=
  (ws.tree.below loc).filter fun (names, _) => (p.along names.dropLast).opens

/-- What a walk meets below a location, where a path leads to the location. -/
def sightingsBelow (ws : Workspace) (loc : Location) (p : Path) : List Sighting :=
  (ws.listed loc p).flatMap fun (names, e) => e.sightings (p.along names)

/-- The path that stands for the standard input, which is never walked. -/
def inputMark : Path := .ofString "-"

/-- What a walk lists in the place of the standard input. -/
def inputName : Path := .ofString "<stdin>"

/-- What a walk from a path meets, in order. -/
def walk (ws : Workspace) (p : Path) : List Sighting :=
  match ws.entry .inspect p with
  | .error _ => [.other p]
  | .ok (loc, e) =>
      if p.same inputMark then [.other inputName]
      else
        match e with
        | .file _ => [.file p]
        | .folder => .folder p :: ws.sightingsBelow loc p
        | .link _ =>
            match ws.entry .use p with
            | .error cause => [.failed p cause]
            | .ok (_, .file _) => [.file p]
            | .ok (loc, .folder) => .other p :: ws.sightingsBelow loc p
            | .ok (_, .link _) => [.other p]

end Workspace

end Unmangle
