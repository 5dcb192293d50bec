import Unmangle.Disk

set_option autoImplicit false

/-! # The program

The request is answered on a copy of what it can touch on the disk; the files that are different
then are written back.
-/

open Unmangle in
def main (args : List String) : IO UInt32 := do
  let surroundings ← Disk.surroundings (Request.read args)
  let outcome := Command.run surroundings args
  Disk.writeBack surroundings.workspace.tree outcome.workspace.tree
  IO.print outcome.output
  IO.eprint outcome.errors
  return outcome.code.toUInt32
