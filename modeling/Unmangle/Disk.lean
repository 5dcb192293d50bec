import Unmangle.Command.Run

set_option autoImplicit false

/-! # The disk

What a request can touch is copied from the disk into a file tree, and the files that a run has
changed in the tree are written back.

A link on the disk is copied as a link to the place where it leads in the end. A link that leads
nowhere is copied as a link to a name beside it that no file can have, its own name with a null
character after it; what is written there is written through the link.
-/

namespace Unmangle.Disk

/-! ## Copying from the disk -/

def linkTarget (loc : Location) : IO Text := do
  try
    return (← IO.FS.realPath (Path.ofLocation loc).toString).toString.toList
  catch _ => return loc.getLastD [] ++ ['\x00']

/-- The content of the file at a location, if it is wanted. -/
def contentAt (wanted : Path → Bool) (loc : Location) : IO Content := do
  let path := Path.ofLocation loc
  if wanted path then return .ofBytes (← IO.FS.readBinFile path.toString)
  else return .binary []

def entryAt (wanted : Path → Bool) (loc : Location) : IO (Option Entry) := do
  let place : IO.FS.DirEntry :=
    ⟨(Path.ofLocation loc.dropLast).toString, String.ofList (loc.getLastD [])⟩
  try
    match (← place.path.symlinkMetadata).type with
    | .dir => return some .folder
    | .symlink => return some (.link (← linkTarget loc))
    | .file => return some (.file (← contentAt wanted loc))
    | .other => return none
  catch _ => return none

/-- Copies what stands at a location, unless it was copied before. -/
def copyEntry (wanted : Path → Bool) (loc : Location) (tree : Tree) : IO Tree := do
  if (tree.get? loc).isSome then return tree
  else
    match ← entryAt wanted loc with
    | none => return tree
    | some e => return tree.put loc e

/-- Copies all that some steps from a folder pass by. -/
def copySteps (wanted : Path → Bool) : Nat → Location → List Text → Tree → IO Tree
  | 0, _, _, tree => return tree
  | _, _, [], tree => return tree
  | fuel + 1, here, step :: rest, tree => do
      if step.isEmpty || step = ['.'] then copySteps wanted fuel here rest tree
      else if step = ['.', '.'] then copySteps wanted fuel here.dropLast rest tree
      else
        let loc := here ++ [step]
        let tree ← copyEntry wanted loc tree
        match tree.get? loc with
        | some .folder => copySteps wanted fuel loc rest tree
        | some (.link target) =>
            copySteps wanted fuel (if target.head? = some '/' then [] else here)
              (Tree.stepsOf target ++ rest) tree
        | _ => return tree

/-- Copies all that looking up a path passes by. -/
def copyPath (wanted : Path → Bool) (ws : Workspace) (p : Path) : IO Workspace := do
  let start := if p.isAbsolute then [] else ws.here
  let tree ← copySteps wanted (2 * Tree.pathLimit) start (Tree.stepsOf p.text) ws.tree
  return { ws with tree }

def copyPaths (wanted : Path → Bool) (ws : Workspace) (ps : List Path) : IO Workspace :=
  ps.foldlM (copyPath wanted) ws

def namesIn (loc : Location) : IO (List Text) := do
  let place : IO.FS.DirEntry := ⟨(Path.ofLocation loc).toString, "."⟩
  try
    return (← place.path.readDir).toList.map (·.fileName.toList)
  catch _ => return []

/-- Copies what stands in the folder at a location, and what stands below it to a given depth. -/
def copyBelow (wanted : Path → Bool) : Nat → Workspace → Location → IO Workspace
  | 0, ws, _ => return ws
  | depth + 1, ws, loc => do
      (← namesIn loc).foldlM (fun ws name => do
        let ws ← copyPath wanted ws (Path.ofLocation (loc ++ [name]))
        if ws.tree.get? (loc ++ [name]) = some .folder then
          copyBelow wanted depth ws (loc ++ [name])
        else return ws) ws

/-- Copies what decoding a path can touch beside the path itself: the content of a folder, or the
folder of a file. -/
def copyAround (wanted : Path → Bool) (ws : Workspace) (p : Path) : IO Workspace := do
  match ws.entry .use p with
  | .ok (loc, .folder) => copyBelow wanted Tree.pathLimit ws loc
  | .ok _ =>
      let folder := p.withFileName ['.']
      let ws ← copyPath wanted ws folder
      match ws.entry .use folder with
      | .ok (loc, .folder) => copyBelow wanted 1 ws loc
      | _ => return ws
  | .error _ => return ws

/-! ## Requests -/

/-- Copies the configuration files that can count, and the tables that they name. -/
def copySettings (ws : Workspace) (start home : Path) : IO (Workspace × Option Settings) := do
  let configs := Config.userPath home :: start.ancestors.map (·.join Config.fileName)
  let ws ← copyPaths (fun _ => true) ws configs
  match (Settings.load ws start home).result with
  | .error _ => return (ws, none)
  | .ok settings =>
      return (← copyPaths (fun _ => true) ws [settings.fields, settings.methods], some settings)

/-- Copies what a request can touch beside the configuration and the tables. -/
def copyTargets (ws : Workspace) (settings : Settings) : Request → IO Workspace
  | .decode paths _ => do
      let ws ← copyPaths (fun _ => true) ws paths
      paths.foldlM (copyAround (hasExtension · settings.extensions)) ws
  | .print folder =>
      let tables := [settings.fields, settings.methods]
      copyPaths (fun _ => false) ws (tables.map (Command.dumpPath folder))
  | _ => return ws

/-- What the program finds when it starts with a request. -/
def surroundings (request : Option Request) : IO Command.Surroundings := do
  let here := Tree.namesOf (← IO.currentDir).toString.toList
  let start := Path.ofLocation here
  let home := Path.ofString ((← IO.getEnv "HOME").getD "/")
  let filter := ((← IO.getEnv "DEMAP_LOG").map (LogFilter.read ·.toList)).getD []
  let (ws, settings) ← copySettings ⟨.empty, here⟩ start home
  let workspace ← match settings, request with
    | some settings, some request => copyTargets ws settings request
    | _, _ => pure ws
  let input ← match request with
    | some (.decode [] _) => pure (Content.ofBytes (← (← IO.getStdin).readBinToEnd))
    | _ => pure (Content.text [])
  return { workspace, home, input, filter }

/-! ## Writing back -/

/-- Writes the texts of a tree that are not the same in an older one. -/
def writeBack (older newer : Tree) : IO Unit :=
  newer.entries.entries.forM fun (loc, e) => do
    match e with
    | .file (.text t) =>
        if older.get? loc ≠ some e then
          let name := (loc.getLastD []).filter (· != '\x00')
          IO.FS.writeFile (Path.ofLocation (loc.dropLast ++ [name])).toString (String.ofList t)
    | _ => return ()

end Unmangle.Disk
