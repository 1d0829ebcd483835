import Mathlib.Data.List.Forall2
import FlintDB.Sql.Ast

set_option autoImplicit false

namespace FlintDB

def requireColumn (table : TableInfo) (columnName : String) : Except Exception ColumnDef :=
  match table.findColumn columnName with
  | some column => .ok column
  | none => .error (.sqlSemanticError ("table '" ++ table.name ++ "' has no column '" ++ columnName ++ "'"))

def requireLiteralMatchesColumn (table : TableInfo) (column : ColumnDef) (value : LiteralValue) :
    Except Exception Unit :=
  if column.type = value.type then .ok ()
  else .error (.sqlSemanticError ("column '" ++ table.name ++ "." ++ column.name ++ "' is " ++
    columnTypeToString column.type ++ ", which cannot be compared to a " ++ columnTypeToString value.type ++
    " literal"))

def columnIndex (table : TableInfo) (columnName : String) : Except Exception Nat := do
  let _ ← requireColumn table columnName
  match table.columns.findIdx? fun column => column.name = columnName with
  | some idx => .ok idx
  | none => .error (.logicError "ColumnIndex: unreachable -- RequireColumn already confirmed the column exists")

/-- One value for each column, of the column's type. -/
def RowOf (columns : List ColumnDef) (values : List LiteralValue) : Prop :=
  List.Forall₂ (fun column value => column.type = value.type) columns values

-- The value a row has in a column.
def TableInfo.valueAt (table : TableInfo) (values : List LiteralValue) (columnName : String) :
    Option LiteralValue :=
  match table.columns.findIdx? fun column => column.name = columnName with
  | some idx => values[idx]?
  | none => none

theorem requireColumn_ok {table : TableInfo} {columnName : String} {column : ColumnDef} :
    requireColumn table columnName = .ok column ↔ table.findColumn columnName = some column := by
  rw [requireColumn]
  cases table.findColumn columnName <;> simp

theorem requireLiteralMatchesColumn_ok {table : TableInfo} {column : ColumnDef} {value : LiteralValue} :
    requireLiteralMatchesColumn table column value = .ok () ↔ column.type = value.type := by
  rw [requireLiteralMatchesColumn]
  split <;> simp [*]

section Found

variable {table : TableInfo} {columnName : String} {column : ColumnDef}

theorem TableInfo.findIdx?_of_findColumn (found : table.findColumn columnName = some column) :
    ∃ idx, (table.columns.findIdx? fun column => column.name = columnName) = some idx ∧
      table.columns[idx]? = some column := by
  obtain ⟨named, before, after, columns_eq, earlier⟩ := List.find?_eq_some_iff_append.mp found
  refine ⟨before.length, ?_, by simp [columns_eq]⟩
  rw [List.findIdx?_eq_some_iff_getElem]
  refine ⟨by simp [columns_eq], by simpa [columns_eq] using named, fun j lt => ?_⟩
  have unnamed := earlier before[j] (List.getElem_mem lt)
  simpa [columns_eq, List.getElem_append_left lt] using unnamed

theorem columnIndex_of_findColumn (found : table.findColumn columnName = some column) :
    ∃ idx, columnIndex table columnName = .ok idx ∧ table.columns[idx]? = some column ∧
      ∀ values, table.valueAt values columnName = values[idx]? := by
  obtain ⟨idx, first, at_idx⟩ := table.findIdx?_of_findColumn found
  refine ⟨idx, ?_, at_idx, fun values => by rw [TableInfo.valueAt, first]⟩
  rw [columnIndex, requireColumn_ok.mpr found]
  simp only [bind, Except.bind, first]

theorem RowOf.valueAt {values : List LiteralValue} (row : RowOf table.columns values)
    (found : table.findColumn columnName = some column) :
    ∃ idx value, columnIndex table columnName = .ok idx ∧ values[idx]? = some value ∧
      table.valueAt values columnName = some value ∧ value.type = column.type := by
  obtain ⟨idx, indexed, at_idx, valueAt_eq⟩ := columnIndex_of_findColumn found
  obtain ⟨inColumns, rfl⟩ := List.getElem?_eq_some_iff.mp at_idx
  have inValues : idx < values.length := row.length_eq ▸ inColumns
  refine ⟨idx, values[idx], indexed, List.getElem?_eq_getElem inValues, ?_, (row.get inColumns inValues).symm⟩
  rw [valueAt_eq, List.getElem?_eq_getElem inValues]

end Found

end FlintDB
