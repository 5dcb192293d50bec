import Unmangle.Dict

set_option autoImplicit false

/-! # Mapping tables

A table has a header of column names, of which the first names the key column, and one row per
key. A row holds values under the names of the other columns. A row whose key is taken is kept
under a key with underscores at its end, so no row is lost.

* `Table.freeKey` is the key under which the next row is stored.
* `Table.columnValues` is what one column says about each key.
-/

namespace Unmangle

/-- The values of a row under their column names. -/
abbrev Row := Dict Text Text

/-- A mapping table. -/
structure Table where
  columns : List Text
  rows : Dict Text Row
  deriving DecidableEq

namespace Table

def ofColumns (columns : List Text) : Table := ⟨columns, .empty⟩

instance : Inhabited Table := ⟨ofColumns []⟩

def valueColumns (t : Table) : List Text := t.columns.drop 1

/-- Whether a column that holds values has a name. -/
def hasColumn (t : Table) (column : Text) : Bool := t.valueColumns.contains column

def size (t : Table) : Nat := t.rows.size

def isEmpty (t : Table) : Bool := t.rows.isEmpty

def keys (t : Table) : List Text := t.rows.keys

def get? (t : Table) (key column : Text) : Option Text := (t.rows.get? key).bind (·.get? column)

/-- The first key that no row has, among a key and the ones with more and more underscores at its
end. One more attempt than there are rows always finds it. -/
def freeKeyWithin (rows : Dict Text Row) : Nat → Text → Text
  | 0, key => key
  | attempts + 1, key =>
      if rows.contains key then freeKeyWithin rows attempts (key ++ ['_']) else key

/-- The key under which a row with a given key is stored. -/
def freeKey (t : Table) (key : Text) : Text := freeKeyWithin t.rows t.size key

/-- Adds a row and gives the key under which it is stored. -/
def insertRow (t : Table) (key : Text) (row : Row) : Text × Table :=
  let stored := t.freeKey key
  (stored, { t with rows := t.rows.insert stored row })

/-- The values of one column under their keys; rows without it are left out. -/
def columnValues (t : Table) (column : Text) : Dict Text Text :=
  t.rows.filterMap fun row => row.get? column

/-! ## Dumps -/

/-- The lines of a row in a dump: the name and the value of each column. -/
def dumpRow (columns : List Text) (row : Row) : Text :=
  columns.flatMap fun column =>
    match row.get? column with
    | none => []
    | some value => "\t\t".toList ++ column ++ "\n\t\t".toList ++ value ++ ['\n']

/-- The table as an indented text: each key at one tab, names and values at two. -/
def dump (t : Table) : Text :=
  t.rows.entries.flatMap fun (key, row) => '\t' :: key ++ '\n' :: dumpRow t.valueColumns row

end Table

end Unmangle
