import Unmangle.Table.Basic
import Unmangle.Table.Fields
import Unmangle.Log.Traced

set_option autoImplicit false

/-! # Reading tables

The first line with fields is the header, and each later line with as many fields is a row. Lines
that are empty, whose quotes are not closed, or with another number of fields add nothing.

* `Table.ofText` is the table that a text holds.
* `Table.load` reads it from a file.
-/

namespace Unmangle.Table

/-- What is worth saying about a line. -/
inductive Notice where
  | unclosedQuote
  | fieldCount (expected found : Nat)
  | duplicateKey (key stored : Text)
  deriving DecidableEq, Repr

def Notice.event (source : Path) (line : Nat) : Notice → Event
  | .unclosedQuote => .unclosedQuote source line
  | .fieldCount expected found => .fieldCount source line expected found
  | .duplicateKey key stored => .duplicateKey source key stored

/-- The row that some fields make under the value columns of a header. -/
def rowOf (columns : List Text) (values : List Text) : Row := .ofList (columns.zip values)

def addFields (t : Table) (fields : List Text) : Table × Option Notice :=
  if fields.length ≠ t.columns.length then
    (t, some (.fieldCount t.columns.length fields.length))
  else
    let key := fields.headD []
    let (stored, t) := t.insertRow key (rowOf t.valueColumns (fields.drop 1))
    (t, if stored = key then none else some (.duplicateKey key stored))

/-- Takes in one line; there is no table before the header. -/
def addLine (t : Option Table) (line : Text) : Option Table × Option Notice :=
  match fields? line, t with
  | none, t => (t, some .unclosedQuote)
  | some [], t => (t, none)
  | some fields, none => (some (ofColumns fields), none)
  | some fields, some t =>
      let (t, notice) := t.addFields fields
      (some t, notice)

/-- Takes in some lines, of which the first one has a given number. -/
def addLines : Nat → Option Table → List Text → Option Table × List (Nat × Notice)
  | _, t, [] => (t, [])
  | number, t, line :: rest =>
      let (t, notice) := addLine t line
      let (t, notices) := addLines (number + 1) t rest
      (t, notice.toList.map (number, ·) ++ notices)

/-- The table that a text holds, and what is worth saying about its lines. -/
def parse (t : Text) : Table × List (Nat × Notice) :=
  let (table, notices) := addLines 1 none (Text.lines t)
  (table.getD default, notices)

def ofText (t : Text) : Table := (parse t).1

/-- The table in the file that a path leads to. -/
def load (ws : Workspace) (path : Path) : Traced Table := do
  if !ws.pathExists path then Traced.fail (.mappingNotFound path)
  else
    match ws.readText path with
    | .error cause => Traced.fail (.mappingRead path cause)
    | .ok text =>
        let (table, notices) := parse text
        Traced.reportAll (notices.map fun (line, notice) => notice.event path line)
        Traced.report (.tableLoaded table.size path)
        return table

end Unmangle.Table
