import Unmangle.Text.Basic

set_option autoImplicit false

/-! # Items of a TOML document

What a key of a TOML 1.1 document can hold. Numbers and dates are checked when they are read, but
their values are not kept, since no setting holds one. A table remembers how it came about, which
decides whether later lines may add to it.
-/

namespace Unmangle.Toml

/-- How a table came about. -/
inductive Origin where
  /-- A header names it, or it is the document itself. -/
  | header
  /-- A header names a table inside it. -/
  | implied
  /-- A dotted key leads through it. -/
  | dotted
  /-- It is written in braces. -/
  | inline
  deriving DecidableEq, Repr

inductive Item where
  | text (t : Text)
  | flag (b : Bool)
  | number
  | moment
  /-- A list in brackets. -/
  | array (items : List Item)
  /-- The tables of headers in double brackets. -/
  | tables (items : List (List (Text × Item)))
  | table (origin : Origin) (entries : List (Text × Item))
  deriving Inhabited

/-- The entries of a table, in the order in which their keys came. -/
abbrev Entries := List (Text × Item)

namespace Entries

def find? (key : Text) : Entries → Option Item
  | [] => none
  | (k, item) :: rest => if k = key then some item else find? key rest

/-- The entries with another item under a key that is there. -/
def replace (key : Text) (item : Item) : Entries → Entries
  | [] => []
  | (k, old) :: rest => if k = key then (k, item) :: rest else (k, old) :: replace key item rest

/-! ## Adding to a document -/

/-- Edits the table at the end of a path and makes the tables on the way that are missing. Neither
a table in braces nor a value can be entered; a dotted path does not enter a table with a header
of its own. A list of header tables is entered at its last one. -/
def under (dotted : Bool) (edit : Origin → Entries → Option Entries) :
    Origin → List Text → Entries → Option Entries
  | origin, [], entries => edit origin entries
  | _, key :: path, entries =>
      match find? key entries with
      | none =>
          let origin := if dotted then Origin.dotted else .implied
          (under dotted edit origin path []).map fun sub => entries ++ [(key, .table origin sub)]
      | some (.table .inline _) => none
      | some (.table origin sub) =>
          if dotted && origin == .header then none
          else (under dotted edit origin path sub).map fun sub =>
            replace key (.table origin sub) entries
      | some (.tables items) =>
          match items.reverse with
          | [] => none
          | last :: earlier => (under dotted edit .header path last).map fun last =>
              replace key (.tables (last :: earlier).reverse) entries
      | some _ => none

/-- Puts an item under a key path. The last table on the way must be the current one or one that
dotted keys made, and the last key must be new. -/
def addValue (path : List Text) (key : Text) (item : Item) : Entries → Option Entries :=
  under true (fun origin entries =>
    if !path.isEmpty && origin != .dotted then none
    else if (find? key entries).isSome then none
    else some (entries ++ [(key, item)])) .header path

/-- Opens the table that a header names. It must be new or merely implied so far. -/
def openTable (path : List Text) (key : Text) : Entries → Option Entries :=
  under false (fun _ entries =>
    match find? key entries with
    | none => some (entries ++ [(key, .table .header [])])
    | some (.table .implied sub) => some (replace key (.table .header sub) entries)
    | some _ => none) .header path

/-- Opens one more table of a list of header tables. -/
def openElement (path : List Text) (key : Text) : Entries → Option Entries :=
  under false (fun _ entries =>
    match find? key entries with
    | none => some (entries ++ [(key, .tables [[]])])
    | some (.tables items) => some (replace key (.tables (items ++ [[]])) entries)
    | some _ => none) .header path

/-- Puts an item under a key path of the table that was opened last. -/
def addUnder (header path : List Text) (key : Text) (item : Item) : Entries → Option Entries :=
  under false (fun _ entries => addValue path key item entries) .header header

end Entries

end Unmangle.Toml
