import Unmangle.Config.Settings
import Unmangle.Log.Traced

set_option autoImplicit false

/-! # Finding configurations

Configurations are looked for in the start folder and in one parent after another, up to the first
one that declares itself the root. The one in the home folder comes last, unless it was found on
the way. The first file that cannot be used makes the whole search fail.

* `Config.load` reads one file.
* `Config.discover` lists the configurations that count, the most specific one first.
-/

namespace Unmangle

namespace Config

/-- The configuration that a text makes, with errors that name a path. -/
def ofText (t : Text) (path : Path) : Except Error Config :=
  match read t with
  | .error cause => .error (.configParse path cause)
  | .ok config =>
      match config.validate with
      | .error fault => .error (.invalidConfig fault)
      | .ok () => .ok config

def load (ws : Workspace) (path : Path) : Except Error Config :=
  match ws.readText path with
  | .error cause => .error (.configRead path cause)
  | .ok t => ofText t path

/-- The configurations in some folders, up to the first one that is a root. -/
def loadUpward (ws : Workspace) : List Path → Traced (List LoadedConfig)
  | [] => pure []
  | folder :: rest => do
      let path := folder.join fileName
      if ws.pathExists path then
        let config ← Traced.of (load ws path)
        Traced.report (.configLoaded path)
        if config.root then return [⟨config, path⟩]
        else return ⟨config, path⟩ :: (← loadUpward ws rest)
      else loadUpward ws rest

def userPath (home : Path) : Path := home.join fileName

/-- The configuration in the home folder, unless it is one of those that were found before. -/
def loadUser (ws : Workspace) (home : Path) (found : List LoadedConfig) :
    Traced (List LoadedConfig) := do
  let path := userPath home
  if ws.pathExists path && !found.any (·.path.same path) then
    let config ← Traced.of (load ws path)
    Traced.report (.userConfigLoaded path)
    return [⟨config, path⟩]
  else return []

/-- The configurations that count for a start folder, the most specific one first. -/
def discover (ws : Workspace) (start home : Path) : Traced (List LoadedConfig) := do
  let found ← loadUpward ws start.ancestors
  let user ← loadUser ws home found
  return found ++ user

end Config

def Settings.load (ws : Workspace) (start home : Path) : Traced Settings := do
  let configs ← Config.discover ws start home
  return Settings.merge configs start

end Unmangle
