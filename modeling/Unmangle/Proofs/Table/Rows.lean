import Mathlib.Data.List.Basic
import Unmangle.Table.Reader

set_option autoImplicit false

/-! # The rows of a text

The reader of tables goes through the lines of a text one by one, with a table that is not there
before the header. This module tells what it makes of all lines at once: the records of a text are
its lines that give fields, the first record is the header, and the data rows are the later ones
with as many fields (`Table.dataRows`). The table of the text is that of the header with the data
rows added in their order (`Table.ofText_eq`).

A row holds, under the name of a column, the field of the last column that has this name
(`Table.get?_rowOf`).
-/

namespace Unmangle

namespace Table

/-! ## The reference -/

/-- The lines that give fields, each as its fields. -/
def recordsOf (lines : List Text) : List (List Text) :=
  (lines.filterMap fields?).filter (!·.isEmpty)

def records (text : Text) : List (List Text) := recordsOf (Text.lines text)

/-- The column names of a text: its first record. -/
def header (text : Text) : List Text := (records text).headD []

/-- The records of a text after the header that have as many fields. -/
def dataRows (text : Text) : List (List Text) :=
  (records text).tail.filter fun fields => fields.length == (header text).length

/-- The key of a data row: its first field. -/
def keyOf (fields : List Text) : Text := fields.headD []

/-- The field of a data row in the last value column with a name. -/
def fieldAt? (columns fields : List Text) (column : Text) : Option Text :=
  ((columns.drop 1).zip (fields.drop 1)).reverse.lookup column

def addRow (t : Table) (fields : List Text) : Table :=
  (t.insertRow (keyOf fields) (rowOf t.valueColumns (fields.drop 1))).2

@[simp] theorem columns_addRow (t : Table) (fields : List Text) :
    (t.addRow fields).columns = t.columns := rfl

/-! ## Reading is adding rows -/

/-- What a record does to the table so far: the first one is the header. -/
def takeIn (t : Option Table) (fields : List Text) : Option Table :=
  match t with
  | none => some (ofColumns fields)
  | some t => some (t.addFields fields).1

theorem recordsOf_append (a b : List Text) : recordsOf (a ++ b) = recordsOf a ++ recordsOf b := by
  rw [recordsOf, List.filterMap_append, List.filter_append]
  rfl

/-- A line takes in its record, if it has one. -/
theorem addLine_fst (t : Option Table) (line : Text) :
    (addLine t line).1 = (recordsOf [line]).foldl takeIn t := by
  have hrecords : recordsOf [line] = (fields? line).toList.filter (!·.isEmpty) := by
    rw [recordsOf, List.filterMap_cons]
    cases fields? line <;> rfl
  rw [hrecords]
  unfold addLine
  cases fields? line with
  | none => cases t <;> rfl
  | some fields =>
      cases fields with
      | nil => cases t <;> rfl
      | cons field fields => cases t <;> rfl

theorem addLines_fst (number : Nat) (t : Option Table) (lines : List Text) :
    (addLines number t lines).1 = (recordsOf lines).foldl takeIn t := by
  induction lines generalizing number t with
  | nil => rfl
  | cons line lines ih =>
      have hstep : (addLines number t (line :: lines)).1 =
          (addLines (number + 1) (addLine t line).1 lines).1 := rfl
      have hrecords : recordsOf (line :: lines) = recordsOf [line] ++ recordsOf lines :=
        recordsOf_append [line] lines
      rw [hstep, ih, addLine_fst, hrecords, List.foldl_append]

/-- Once there is a table, the records with as many fields as its header add their rows. -/
theorem foldl_takeIn (t : Table) (found : List (List Text)) :
    found.foldl takeIn (some t) =
      some ((found.filter fun fields => fields.length == t.columns.length).foldl addRow t) := by
  induction found generalizing t with
  | nil => rfl
  | cons fields found ih =>
      by_cases hlength : fields.length = t.columns.length
      · have hadd : (t.addFields fields).1 = t.addRow fields := by
          rw [addFields, if_neg (not_not.2 hlength)]
          rfl
        have hkeep : (fields.length == t.columns.length) = true := by simp [hlength]
        have hrest := ih (t.addRow fields)
        rw [columns_addRow] at hrest
        rw [List.foldl_cons, takeIn, hadd, hrest, List.filter_cons, if_pos hkeep, List.foldl_cons]
      · have hadd : (t.addFields fields).1 = t := by rw [addFields, if_pos hlength]
        have hdrop : ¬ (fields.length == t.columns.length) = true := by simp [hlength]
        rw [List.foldl_cons, takeIn, hadd, ih, List.filter_cons, if_neg hdrop]

/-- **Reading.** The table of a text has its header, and the data rows added in their order. -/
theorem ofText_eq (text : Text) :
    ofText text = (dataRows text).foldl addRow (ofColumns (header text)) := by
  have hread : ofText text = ((records text).foldl takeIn none).getD default :=
    congrArg (·.getD default) (addLines_fst 1 none (Text.lines text))
  rw [hread, dataRows, header]
  cases records text with
  | nil => rfl
  | cons columns rest =>
      have hfirst : (columns :: rest).foldl takeIn none =
          rest.foldl takeIn (some (ofColumns columns)) := rfl
      rw [hfirst, foldl_takeIn]
      rfl

/-! ## Fields of a row -/

/-- A row holds the fields of a data row under the names of the value columns. -/
theorem get?_rowOf (columns fields : List Text) (column : Text) :
    (rowOf (columns.drop 1) (fields.drop 1)).get? column = fieldAt? columns fields column :=
  Dict.get?_ofList _ _

/-- A data row has a field in every value column. -/
theorem isSome_fieldAt? {columns fields : List Text} (hlength : fields.length = columns.length)
    {column : Text} (h : column ∈ columns.drop 1) :
    (fieldAt? columns fields column).isSome = true := by
  have hfirst : ((columns.drop 1).zip (fields.drop 1)).map (·.1) = columns.drop 1 :=
    List.map_fst_zip (by simp [hlength])
  rw [← hfirst] at h
  obtain ⟨pair, hpair, rfl⟩ := List.mem_map.1 h
  rw [fieldAt?, List.lookup_isSome_iff]
  exact ⟨pair, List.mem_reverse.2 hpair, beq_self_eq_true _⟩

theorem length_of_mem_dataRows {text : Text} {fields : List Text} (h : fields ∈ dataRows text) :
    fields.length = (header text).length := by
  have hlength := (List.mem_filter.1 h).2
  exact beq_iff_eq.1 hlength

end Table

end Unmangle
