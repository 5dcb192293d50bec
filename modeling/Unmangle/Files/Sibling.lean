import Unmangle.Files.Tree

set_option autoImplicit false

/-! # Paths of decoded copies

A decoded copy stands beside its source, under the name with one more dot before the extension, or
at its end if there is none. While that path is taken, another dot is added.
-/

namespace Unmangle

/-- A file name with one more dot before its extension. -/
def dottedName (p : Path) : Text :=
  match p.stem?, p.extension? with
  | some stem, some extension => stem ++ "..".toList ++ extension
  | _, _ => p.fileName?.getD [] ++ ['.']

def Path.addDot (p : Path) : Path := p.withFileName (dottedName p)

namespace Workspace

/-- The first path that leads to nothing, among a path and the ones with more and more dots. -/
def freePathWithin (ws : Workspace) : Nat → Path → Path
  | 0, p => p
  | attempts + 1, p => if ws.pathExists p then ws.freePathWithin attempts p.addDot else p

/-- The path of the decoded copy of a file. No path of `Tree.pathLimit` bytes leads anywhere, and
every dot makes the path longer, so that many attempts are enough. -/
def siblingPath (ws : Workspace) (p : Path) : Path := ws.freePathWithin (Tree.pathLimit + 1) p

end Workspace

end Unmangle
