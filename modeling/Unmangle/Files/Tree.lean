import Unmangle.Dict
import Unmangle.Files.Path

set_option autoImplicit false

/-! # File trees

A file tree is a value: what stands at each location. A location is the list of names from the
root, so ascending order of locations is the order of a walk that visits a folder before its
content and names in code point order. Paths are looked up step by step through the tree, and
links are followed a limited number of times.

A file has one name: what is written at one location is seen at no other one. There are no
permissions either, so what can be found can be read, and a file that was found can be written; a
path fails only for what stands on its way, for the content of its file, or for its length.

* `Workspace.locate` finds what a path leads to, or why it leads nowhere.
* `Workspace.readText` and `Workspace.writeText` follow links; writing makes a file where none is.
-/

namespace Unmangle

/-- The content of a file: a text, or bytes that are not UTF-8. -/
inductive Content where
  | text (t : Text)
  | binary (bytes : List UInt8)
  deriving DecidableEq, Repr

def Content.ofBytes (bytes : ByteArray) : Content :=
  match String.fromUTF8? bytes with
  | some s => .text s.toList
  | none => .binary bytes.toList

inductive Entry where
  | file (content : Content)
  | link (target : Text)
  | folder
  deriving DecidableEq, Repr

/-- A location: the names on the way from the root. -/
abbrev Location := List Text

def Path.ofLocation (loc : Location) : Path := ⟨'/' :: ['/'].intercalate loc⟩

inductive FileError where
  | notFound
  | notFolder
  | isFolder
  | tooManyLinks
  | nameTooLong
  | notText
  deriving DecidableEq, Repr

def FileError.message : FileError → String
  | .notFound => "No such file or directory (os error 2)"
  | .notFolder => "Not a directory (os error 20)"
  | .isFolder => "Is a directory (os error 21)"
  | .tooManyLinks => "Too many levels of symbolic links (os error 40)"
  | .nameTooLong => "File name too long (os error 36)"
  | .notText => "stream did not contain valid UTF-8"

/-- What a path leads to: an entry, or a free name in a folder. -/
inductive Found where
  | entry (loc : Location) (e : Entry)
  | vacant (loc : Location)
  deriving DecidableEq, Repr

/-- A file tree. The root is a folder and has no entry of its own. -/
structure Tree where
  entries : Dict Location Entry
  deriving DecidableEq, Inhabited

namespace Tree

def empty : Tree := ⟨.empty⟩

def get? (t : Tree) (loc : Location) : Option Entry :=
  if loc = [] then some .folder else t.entries.get? loc

def put (t : Tree) (loc : Location) (e : Entry) : Tree := ⟨t.entries.insert loc e⟩

/-- What a location has below another one: the names that lead from there to here. -/
def relative? : Location → Location → Option Location
  | [], loc => some loc
  | _ :: _, [] => none
  | n :: base, m :: loc => if n = m then relative? base loc else none

/-- All entries below a location, with the names that lead to them from there, in walk order. -/
def below (t : Tree) (base : Location) : List (Location × Entry) :=
  t.entries.entries.filterMap fun (loc, e) =>
    match relative? base loc with
    | some (n :: names) => some (n :: names, e)
    | _ => none

/-! ## Looking up paths -/

/-- The greatest number of bytes of a file name. -/
def nameLimit : Nat := 255

/-- The number of bytes from which on a path is too long. -/
def pathLimit : Nat := 4096

/-- The number of links that one look-up may follow. -/
def linkLimit : Nat := 40

/-- What a path is looked up for. -/
inductive Access where
  /-- To see what stands there, be it a link. -/
  | inspect
  /-- To use what links lead to. -/
  | use
  /-- To write a file that links lead to, or that is not there yet. A slash after its name says that
  it is a folder. -/
  | write
  deriving DecidableEq, Repr

/-- The names that stand between slashes. -/
def namesOf (t : Text) : List Text := (Text.splitOn '/' t).filter (!·.isEmpty)

/-- The steps that a path takes. A slash at its end is a step without a name. -/
def stepsOf (t : Text) : List Text := namesOf t ++ if t.getLast? = some '/' then [[]] else []

/-- Takes steps from a folder on. A step without a name and a single dot stay in a folder. A link
is handed to `follow` with the folder in which it stands and the steps that are left, its own target
first; one that is the last step is not followed if it is only inspected. -/
def walk (t : Tree) (access : Access)
    (follow : Location → Text → List Text → Except FileError Found) :
    Location → List Text → Except FileError Found
  | here, [] => .ok (.entry here .folder)
  | here, step :: rest =>
      if step.isEmpty || step = ['.'] then t.walk access follow here rest
      else if step = ['.', '.'] then t.walk access follow here.dropLast rest
      else if access = .write && rest = [[]] then .error .isFolder
      else if nameLimit < Text.byteSize step then .error .nameTooLong
      else
        let loc := here ++ [step]
        match t.get? loc with
        | none => if rest.isEmpty then .ok (.vacant loc) else .error .notFound
        | some .folder => t.walk access follow loc rest
        | some (.file content) =>
            if rest.isEmpty then .ok (.entry loc (.file content)) else .error .notFolder
        | some (.link target) =>
            if rest.isEmpty && access = .inspect then .ok (.entry loc (.link target))
            else follow here target rest

/-- Takes steps from a folder on and follows no more than a number of links. -/
def walkLinks (t : Tree) (access : Access) : Nat → Location → List Text → Except FileError Found
  | 0 => t.walk access fun _ _ _ => .error .tooManyLinks
  | links + 1 => t.walk access fun here target rest =>
      t.walkLinks access links (if target.head? = some '/' then [] else here)
        (stepsOf target ++ rest)

end Tree

/-! ## Workspaces -/

/-- A file tree and the folder from which relative paths are seen. -/
structure Workspace where
  tree : Tree
  here : Location
  deriving DecidableEq, Inhabited

namespace Workspace

def herePath (ws : Workspace) : Path := .ofLocation ws.here

/-- What a path leads to. -/
def locate (ws : Workspace) (access : Tree.Access) (p : Path) : Except FileError Found :=
  if p.text.isEmpty then .error .notFound
  else if Tree.pathLimit ≤ Text.byteSize p.text then .error .nameTooLong
  else
    ws.tree.walkLinks access Tree.linkLimit (if p.isAbsolute then [] else ws.here)
      (Tree.stepsOf p.text)

def entry (ws : Workspace) (access : Tree.Access) (p : Path) :
    Except FileError (Location × Entry) := do
  match ← ws.locate access p with
  | .entry loc e => return (loc, e)
  | .vacant _ => throw .notFound

/-- Whether a path leads to an entry, through links. -/
def pathExists (ws : Workspace) (p : Path) : Bool := (ws.entry .use p).toBool

def readText (ws : Workspace) (p : Path) : Except FileError Text := do
  match ← ws.entry .use p with
  | (_, .file (.text t)) => return t
  | (_, .file (.binary _)) => throw .notText
  | (_, .link _) => throw .tooManyLinks
  | (_, .folder) => throw .isFolder

/-- The workspace after a text was written to a path, in place of what a file there held. -/
def writeText (ws : Workspace) (p : Path) (t : Text) : Except FileError Workspace := do
  let put := fun loc => { ws with tree := ws.tree.put loc (.file (.text t)) }
  match ← ws.locate .write p with
  | .vacant loc => return put loc
  | .entry loc (.file _) => return put loc
  | .entry _ (.link _) => throw .tooManyLinks
  | .entry _ .folder => throw .isFolder

end Workspace

end Unmangle
