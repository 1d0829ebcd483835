import Mathlib.Data.List.Nodup
import FlintDB.Common.Config
import FlintDB.Common.Exception

set_option autoImplicit false

-- A catalog carries what CreateTable and CreateIndex check before they change it. The metadata file it is persisted
-- to is not part of this module.

namespace FlintDB

inductive ColumnType
  | kInteger
  | kText
  deriving DecidableEq, Repr

def columnTypeToString : ColumnType → String
  | .kInteger => "INTEGER"
  | .kText => "TEXT"

structure ColumnDef where
  name : String
  type : ColumnType
  deriving DecidableEq, Repr

structure IndexInfo where
  name : String
  tableName : String
  columnName : String
  objectId : Nat
  isPrimaryKey : Bool := false
  deriving DecidableEq, Repr

structure TableInfo where
  name : String
  columns : List ColumnDef
  primaryKeyColumn : Option String
  heapObjectId : Nat
  columns_ne : columns ≠ []
  columns_nodup : (columns.map ColumnDef.name).Nodup

def TableInfo.findColumn (table : TableInfo) (columnName : String) : Option ColumnDef :=
  table.columns.find? fun column => column.name = columnName

-- The index is over a column of one of the tables that BPlusTree has keys for.
def IndexInfo.OverInteger (index : IndexInfo) (tables : List TableInfo) : Prop :=
  ∃ table ∈ tables, table.name = index.tableName ∧
    ∃ column, table.findColumn index.columnName = some column ∧ column.type = .kInteger

structure Catalog where
  tables : List TableInfo := []
  indexes : List IndexInfo := []
  nextObjectId : Nat := 0
  names_nodup : (tables.map TableInfo.name).Nodup := by simp
  indexes_integer : ∀ index ∈ indexes, index.OverInteger tables := by simp
  ids_nodup : (tables.map TableInfo.heapObjectId ++ indexes.map IndexInfo.objectId).Nodup := by simp
  ids_lt : ∀ id ∈ tables.map TableInfo.heapObjectId ++ indexes.map IndexInfo.objectId,
    id < nextObjectId := by simp

namespace Catalog

def findTable (catalog : Catalog) (name : String) : Option TableInfo :=
  catalog.tables.find? fun table => table.name = name

def findIndex (catalog : Catalog) (name : String) : Option IndexInfo :=
  catalog.indexes.find? fun index => index.name = name

def indexesOnTable (catalog : Catalog) (tableName : String) : List IndexInfo :=
  catalog.indexes.filter fun index => index.tableName = tableName

def primaryKeyIndex (catalog : Catalog) (tableName : String) : Option IndexInfo :=
  catalog.indexes.find? fun index => index.tableName = tableName && index.isPrimaryKey

theorem findTable_eq_some {catalog : Catalog} {name : String} {table : TableInfo} :
    catalog.findTable name = some table ↔ table ∈ catalog.tables ∧ table.name = name := by
  constructor
  · intro found
    exact ⟨List.mem_of_find?_eq_some found, by simpa using List.find?_some found⟩
  · rintro ⟨member, rfl⟩
    cases found : catalog.findTable table.name with
    | none => simpa using List.find?_eq_none.mp found table member
    | some first =>
      have sameName : first.name = table.name := by simpa using List.find?_some found
      rw [List.inj_on_of_nodup_map catalog.names_nodup (List.mem_of_find?_eq_some found) member sameName]

def duplicateName : List ColumnDef → Option String
  | [] => none
  | column :: columns =>
    if column.name ∈ columns.map ColumnDef.name then some column.name else duplicateName columns

theorem duplicateName_eq_none {columns : List ColumnDef} (none : duplicateName columns = none) :
    (columns.map ColumnDef.name).Nodup := by
  induction columns with
  | nil => simp
  | cons column columns ih =>
    rw [duplicateName] at none
    split at none
    · cases none
    · rename_i fresh
      exact List.nodup_cons.mpr ⟨fresh, ih none⟩

def nameInUse (catalog : Catalog) (name : String) : Bool :=
  (catalog.findTable name).isSome || (catalog.findIndex name).isSome

theorem not_nameInUse {catalog : Catalog} {name : String} (fresh : ¬ catalog.nameInUse name = true) :
    name ∉ catalog.tables.map TableInfo.name := by
  rintro member
  obtain ⟨table, member, sameName⟩ := List.mem_map.mp member
  have found := findTable_eq_some.mpr ⟨member, sameName⟩
  simp [nameInUse, found] at fresh

-- tables_.push_back, under the next object id.
def pushTable (catalog : Catalog) (name : String) (columns : List ColumnDef)
    (primaryKeyColumn : Option String) (fresh : name ∉ catalog.tables.map TableInfo.name)
    (columns_ne : columns ≠ []) (columns_nodup : (columns.map ColumnDef.name).Nodup) : Catalog where
  tables := catalog.tables ++
    [{ name, columns, primaryKeyColumn, heapObjectId := catalog.nextObjectId, columns_ne, columns_nodup }]
  indexes := catalog.indexes
  nextObjectId := catalog.nextObjectId + 1
  names_nodup := by
    simpa [List.nodup_append, catalog.names_nodup] using fresh
  indexes_integer := by
    intro index member
    obtain ⟨table, listed, integer⟩ := catalog.indexes_integer index member
    exact ⟨table, List.mem_append_left _ listed, integer⟩
  ids_nodup := by
    have below : catalog.nextObjectId ∉
        catalog.tables.map TableInfo.heapObjectId ++ catalog.indexes.map IndexInfo.objectId :=
      fun member => Nat.lt_irrefl _ (catalog.ids_lt _ member)
    rw [List.map_append, List.append_assoc]
    exact List.nodup_middle.mpr (List.nodup_cons.mpr ⟨below, catalog.ids_nodup⟩)
  ids_lt := by
    intro id member
    have older := catalog.ids_lt id
    simp only [List.map_append, List.map_cons, List.map_nil, List.mem_append, List.mem_singleton] at member older
    rcases member with (inTables | rfl) | inIndexes
    · exact Nat.lt_succ_of_lt (older (.inl inTables))
    · exact Nat.lt_succ_self _
    · exact Nat.lt_succ_of_lt (older (.inr inIndexes))

-- indexes_.push_back, under the next object id.
def pushIndex (catalog : Catalog) (name tableName columnName : String) (isPrimaryKey : Bool)
    (integer : IndexInfo.OverInteger
      { name, tableName, columnName, objectId := catalog.nextObjectId, isPrimaryKey } catalog.tables) :
    Catalog where
  tables := catalog.tables
  indexes := catalog.indexes ++
    [{ name, tableName, columnName, objectId := catalog.nextObjectId, isPrimaryKey }]
  nextObjectId := catalog.nextObjectId + 1
  names_nodup := catalog.names_nodup
  indexes_integer := by
    intro index member
    rcases List.mem_append.mp member with older | newest
    · exact catalog.indexes_integer index older
    · rw [List.mem_singleton.mp newest]
      exact integer
  ids_nodup := by
    have below : catalog.nextObjectId ∉
        catalog.tables.map TableInfo.heapObjectId ++ catalog.indexes.map IndexInfo.objectId :=
      fun member => Nat.lt_irrefl _ (catalog.ids_lt _ member)
    rw [List.map_append, ← List.append_assoc]
    exact List.nodup_append.mpr ⟨catalog.ids_nodup, by simp, by
      rintro id member other newest rfl
      simp only [List.map_cons, List.map_nil, List.mem_singleton] at newest
      exact below (newest ▸ member)⟩
  ids_lt := by
    intro id member
    rw [List.map_append, ← List.append_assoc] at member
    rcases List.mem_append.mp member with older | newest
    · exact Nat.lt_succ_of_lt (catalog.ids_lt id older)
    · simp only [List.map_cons, List.map_nil, List.mem_singleton] at newest
      exact newest ▸ Nat.lt_succ_self _

def checkPrimaryKey (name : String) (columns : List ColumnDef) : Option String → Except Exception Unit
  | none => .ok ()
  | some key =>
    match columns.find? fun column => column.name = key with
    | none => .error (.invalidArgument ("Catalog::CreateTable: primary key column '" ++ key ++
        "' is not a column of table '" ++ name ++ "'"))
    | some column =>
      if column.type = .kInteger then .ok ()
      else .error (.invalidArgument ("Catalog::CreateTable: primary key column '" ++ key ++ "' is " ++
        columnTypeToString column.type ++ ", but this engine's PRIMARY KEY index only supports INTEGER " ++
        "columns (see docs/DECISIONS.md D-046)"))

theorem checkPrimaryKey_ok {name key : String} {columns : List ColumnDef}
    (checked : checkPrimaryKey name columns (some key) = .ok ()) :
    ∃ column, (columns.find? fun column => column.name = key) = some column ∧ column.type = .kInteger := by
  rw [checkPrimaryKey] at checked
  split at checked
  · cases checked
  · rename_i column found
    split at checked
    · rename_i integer
      exact ⟨column, found, integer⟩
    · cases checked

def createTable (catalog : Catalog) (name : String) (columns : List ColumnDef)
    (primaryKeyColumn : Option String) : Except Exception (Nat × Catalog) :=
  if inUse : catalog.nameInUse name then
    .error (.invalidArgument ("Catalog::CreateTable: name '" ++ name ++ "' is already in use"))
  else if empty : columns = [] then
    .error (.invalidArgument ("Catalog::CreateTable: table '" ++ name ++ "' must have at least one column"))
  else
    match distinct : duplicateName columns with
    | some column => .error (.invalidArgument ("Catalog::CreateTable: table '" ++ name ++
        "' has duplicate column name '" ++ column ++ "'"))
    | none =>
      let pushed := catalog.pushTable name columns primaryKeyColumn (not_nameInUse inUse) empty
        (duplicateName_eq_none distinct)
      match checked : checkPrimaryKey name columns primaryKeyColumn with
      | .error e => .error e
      | .ok () =>
        match primaryKeyColumn with
        | none => .ok (catalog.nextObjectId, pushed)
        | some key => .ok (catalog.nextObjectId,
            pushed.pushIndex (name ++ "." ++ key ++ "#pk") name key true
              ⟨_, List.mem_append_right _ (List.mem_singleton_self _), rfl, checkPrimaryKey_ok checked⟩)

def createIndex (catalog : Catalog) (name tableName columnName : String) :
    Except Exception (Nat × Catalog) :=
  if catalog.nameInUse name then
    .error (.invalidArgument ("Catalog::CreateIndex: name '" ++ name ++ "' is already in use"))
  else
    match found : catalog.findTable tableName with
    | none => .error (.invalidArgument ("Catalog::CreateIndex: no such table '" ++ tableName ++ "'"))
    | some table =>
      match present : table.findColumn columnName with
      | none => .error (.invalidArgument ("Catalog::CreateIndex: table '" ++ tableName ++
          "' has no column '" ++ columnName ++ "'"))
      | some column =>
        if integer : column.type = .kInteger then
          .ok (catalog.nextObjectId, catalog.pushIndex name tableName columnName false
            ⟨table, (findTable_eq_some.mp found).1, (findTable_eq_some.mp found).2, column, present, integer⟩)
        else .error (.invalidArgument ("Catalog::CreateIndex: column '" ++ columnName ++ "' is " ++
          columnTypeToString column.type ++ ", but this engine's B+-tree index only supports INTEGER " ++
          "columns (see docs/DECISIONS.md D-046)"))

theorem createTable_ok {catalog : Catalog} {name : String} {columns : List ColumnDef}
    {primaryKeyColumn : Option String} {heapId : Nat} {after : Catalog}
    (created : catalog.createTable name columns primaryKeyColumn = .ok (heapId, after)) :
    heapId = catalog.nextObjectId ∧ ∃ fresh columns_ne columns_nodup,
      let pushed := catalog.pushTable name columns primaryKeyColumn fresh columns_ne columns_nodup
      (primaryKeyColumn = none ∧ after = pushed) ∨
      ∃ key integer, primaryKeyColumn = some key ∧
        after = pushed.pushIndex (name ++ "." ++ key ++ "#pk") name key true integer := by
  rw [createTable] at created
  split at created
  · cases created
  · rename_i notInUse
    split at created
    · cases created
    · rename_i columns_ne
      split at created
      · cases created
      · rename_i distinct
        split at created
        · cases created
        · rename_i checked
          cases primaryKeyColumn with
          | none =>
            cases created
            exact ⟨rfl, not_nameInUse notInUse, columns_ne, duplicateName_eq_none distinct, .inl ⟨rfl, rfl⟩⟩
          | some key =>
            cases created
            exact ⟨rfl, not_nameInUse notInUse, columns_ne, duplicateName_eq_none distinct, .inr ⟨key, _, rfl, rfl⟩⟩

theorem createIndex_ok {catalog : Catalog} {name tableName columnName : String} {objectId : Nat} {after : Catalog}
    (created : catalog.createIndex name tableName columnName = .ok (objectId, after)) :
    objectId = catalog.nextObjectId ∧ catalog.findIndex name = none ∧
    ∃ table column integer, catalog.findTable tableName = some table ∧ table.findColumn columnName = some column ∧
      after = catalog.pushIndex name tableName columnName false integer := by
  rw [createIndex] at created
  split at created
  · cases created
  · rename_i notInUse
    split at created
    · cases created
    · rename_i table found
      split at created
      · cases created
      · rename_i column present
        split at created
        · cases created
          refine ⟨rfl, ?_, table, column, _, found, present, rfl⟩
          simp only [nameInUse, Bool.or_eq_true, not_or, Bool.not_eq_true, Option.isSome_eq_false_iff,
            Option.isNone_iff_eq_none] at notInUse
          exact notInUse.2
        · cases created

end Catalog

end FlintDB
