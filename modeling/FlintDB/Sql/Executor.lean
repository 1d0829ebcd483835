import FlintDB.Db.Database
import FlintDB.Sql.Planner
import FlintDB.Sql.RowCodec

set_option autoImplicit false

namespace FlintDB

open Lib Database

structure ExecuteResult where
  rows : List (List LiteralValue) := []
  columnNames : List String := []
  rowsAffected : Nat := 0

def orUndefined {α : Type} : Option α → Except Exception α
  | some a => .ok a
  | none => .error .undefined

def literalsEqual (a b : LiteralValue) : Bool :=
  match a with
  | .integer value => value = b.intValue
  | .text value => value = b.stringValue

def compareLiterals (a b : LiteralValue) : Int :=
  match a with
  | .integer value => if value < b.intValue then -1 else if b.intValue < value then 1 else 0
  | .text value => if value < b.stringValue then -1 else if b.stringValue < value then 1 else 0

def evaluatePredicate (table : TableInfo) (values : List LiteralValue) (pred : Predicate) :
    Except Exception Bool := do
  let idx ← columnIndex table pred.column.columnName
  let value ← orUndefined values[idx]?
  let cmp := compareLiterals value pred.value
  return match pred.op with
    | .kEq => cmp = 0
    | .kNeq => cmp ≠ 0
    | .kLt => cmp < 0
    | .kLe => cmp ≤ 0
    | .kGt => 0 < cmp
    | .kGe => 0 ≤ cmp

def matchesAll (table : TableInfo) (values : List LiteralValue) : List Predicate → Except Exception Bool
  | [] => .ok true
  | pred :: predicates => do
    let holds ← evaluatePredicate table values pred
    if holds then matchesAll table values predicates else return false

def fetchRows (heap : Nat) (outOfSync : Exception) (rids : List RID) : DatabaseM (List (RID × Bytes)) :=
  Fallible.collect fetchRow rids
where
  fetchRow (rid : RID) : DatabaseM (List (RID × Bytes)) := do
    match ← heapGetRow heap rid with
    | some rowBytes => return [(rid, rowBytes)]
    | none => throw outOfSync

def fetchCandidateRows (access : TableAccessPlan) : DatabaseM (List (RID × Bytes)) :=
  match access.method with
  | .kSeqScan => do
    let heap ← heapFileForTable access.tableName
    heapScan heap
  | .kIndexScan => do
    let index ← indexByName access.indexName
    let heap ← heapFileForTable access.tableName
    let rids ← indexSearch index access.indexKey.toInt
    fetchRows heap (.logicError ("FetchCandidateRows: index '" ++ access.indexName ++
      "' names a RID with no live row -- index and heap file are out of sync")) rids

def matchRow (table : TableInfo) (residual : List Predicate) (row : RID × Bytes) :
    Except Exception (List (RID × List LiteralValue)) := do
  let values ← decodeRow table.columns row.2
  let keep ← matchesAll table values residual
  if keep then return [(row.1, values)] else return []

def indexKeyOf (table : TableInfo) (values : List LiteralValue) (index : IndexInfo) : Except Exception Int := do
  let idx ← columnIndex table index.columnName
  let value ← orUndefined values[idx]?
  return value.key

def insertIntoAllIndexes (catalog : Catalog) (table : TableInfo) (values : List LiteralValue) (rid : RID) :
    DatabaseM Unit :=
  (catalog.indexesOnTable table.name).forM fun index => do
    let key ← indexKeyOf table values index
    indexInsert index.objectId key rid

def deleteFromAllIndexes (catalog : Catalog) (table : TableInfo) (values : List LiteralValue) (rid : RID) :
    DatabaseM Unit :=
  (catalog.indexesOnTable table.name).forM fun index => do
    let key ← indexKeyOf table values index
    let _ ← indexDelete index.objectId key rid

def duplicateKey (table : TableInfo) (key : Int) : Exception :=
  .sqlSemanticError ("duplicate PRIMARY KEY value " ++ toString key ++ " for table '" ++ table.name ++ "'")

def checkPrimaryKeyUniqueness (catalog : Catalog) (table : TableInfo) (values : List LiteralValue) :
    DatabaseM Unit := do
  match catalog.primaryKeyIndex table.name with
  | none => return ()
  | some index =>
    let key ← indexKeyOf table values index
    let found ← indexSearch index.objectId key
    if found = [] then return () else throw (duplicateKey table key)

structure RowUpdate where
  rid : RID
  oldValues : List LiteralValue
  newValues : List LiteralValue

def RowUpdate.newBytes (update : RowUpdate) (table : TableInfo) : Bytes :=
  encodeRow table.columns update.newValues

def firstRepeated : List Int → List Int → Option Int
  | _, [] => none
  | seen, key :: keys => if key ∈ seen then some key else firstRepeated (key :: seen) keys

def validateUpdateBatch (catalog : Catalog) (table : TableInfo) (updates : List RowUpdate) : DatabaseM Unit := do
  if ∃ update ∈ updates, HeapFile.kMaxRowSize < (update.newBytes table).length then throw rowTooLarge
  else
    match catalog.primaryKeyIndex table.name with
    | none => return ()
    | some index =>
      let keys ← newKeys index
      match firstRepeated [] keys with
      | some key => throw (.sqlSemanticError ("duplicate PRIMARY KEY value " ++ toString key ++ " for table '" ++
          table.name ++ "' (this UPDATE would give two matched rows the same key)"))
      | none => keys.forM (checkKey index)
where
  newKeys (index : IndexInfo) : Except Exception (List Int) :=
    updates.mapM fun update => indexKeyOf table update.newValues index
  checkKey (index : IndexInfo) (key : Int) : DatabaseM Unit := do
    let found ← indexSearch index.objectId key
    if ∃ rid ∈ found, rid ∉ updates.map RowUpdate.rid then throw (duplicateKey table key) else return ()

def validateValuesAgainstColumns (table : TableInfo) (values : List LiteralValue) : Except Exception Unit :=
  if values.length ≠ table.columns.length then
    .error (.sqlSemanticError ("table '" ++ table.name ++ "' has " ++ toString table.columns.length ++
      " column(s) but " ++ toString values.length ++ " value(s) were given"))
  else (table.columns.zip values).forM fun (column, value) => requireLiteralMatchesColumn table column value

def requireNoActiveTransaction (statementKind : String) : DatabaseM Unit := do
  if (← get).activeTxns = ∅ then return ()
  else throw (.logicError ("DDL statement (" ++ statementKind ++ ") cannot run while a transaction is active " ++
    "anywhere (docs/SPEC.md section 4: no concurrent DDL)"))

def executeCreateTable (stmt : CreateTableStatement) : DatabaseM ExecuteResult := do
  requireNoActiveTransaction "CREATE TABLE"
  let _ ← createTable stmt.tableName stmt.columns stmt.primaryKeyColumn
  return {}

def executeCreateIndex (stmt : CreateIndexStatement) : DatabaseM ExecuteResult := do
  requireNoActiveTransaction "CREATE INDEX"
  let _ ← createIndex stmt.indexName stmt.tableName stmt.columnName populate
  return {}
where
  backfill (table : TableInfo) (column index : Nat) (row : RID × Bytes) : DatabaseM Unit := do
    let values ← decodeRow table.columns row.2
    let value ← orUndefined values[column]?
    indexInsert index value.key row.1
  populate (index : Nat) : DatabaseM Unit := do
    let table ← orUndefined ((← get).catalog.findTable stmt.tableName)
    let column ← columnIndex table stmt.columnName
    let heap ← heapFileForTable stmt.tableName
    let rows ← heapScan heap
    rows.forM (backfill table column index)

def noSuchTable (tableName : String) : Exception := .sqlSemanticError ("no such table '" ++ tableName ++ "'")

def executeInsert (stmt : InsertStatement) : DatabaseM ExecuteResult := do
  let catalog := (← get).catalog
  match catalog.findTable stmt.tableName with
  | none => throw (noSuchTable stmt.tableName)
  | some table =>
    validateValuesAgainstColumns table stmt.values
    checkPrimaryKeyUniqueness catalog table stmt.values
    let heap ← heapFileForTable stmt.tableName
    let rid ← heapInsert heap (encodeRow table.columns stmt.values)
    insertIntoAllIndexes catalog table stmt.values rid
    return { rowsAffected := 1 }

def deleteRow (catalog : Catalog) (table : TableInfo) (heap : Nat) (row : RID × List LiteralValue) :
    DatabaseM Unit := do
  deleteFromAllIndexes catalog table row.2 row.1
  let _ ← heapDelete heap row.1

def executeDelete (stmt : DeleteStatement) : DatabaseM ExecuteResult := do
  let catalog := (← get).catalog
  let access ← planTableAccess catalog stmt.tableName stmt.wherePredicates
  let table ← orUndefined (catalog.findTable stmt.tableName)
  let heap ← heapFileForTable stmt.tableName
  let candidates ← fetchCandidateRows access
  let deleted ← Fallible.collect (deleteIfMatching catalog table heap access.residualPredicates) candidates
  return { rowsAffected := deleted.length }
where
  deleteIfMatching (catalog : Catalog) (table : TableInfo) (heap : Nat) (residual : List Predicate)
      (row : RID × Bytes) : DatabaseM (List (RID × List LiteralValue)) := do
    let matched ← matchRow table residual row
    matched.forM (deleteRow catalog table heap)
    return matched

def resolveAssignment (table : TableInfo) (assignment : Assignment) : Except Exception (Nat × LiteralValue) := do
  let column ← requireColumn table assignment.columnName
  requireLiteralMatchesColumn table column assignment.value
  let idx ← columnIndex table assignment.columnName
  return (idx, assignment.value)

def resolveAssignments (table : TableInfo) (assignments : List Assignment) :
    Except Exception (List (Nat × LiteralValue)) :=
  assignments.mapM (resolveAssignment table)

def assign (assignments : List (Nat × LiteralValue)) (values : List LiteralValue) : List LiteralValue :=
  assignments.foldl (fun values (idx, value) => values.set idx value) values

def updateRow (catalog : Catalog) (table : TableInfo) (heap : Nat) (update : RowUpdate) : DatabaseM Unit := do
  deleteRow catalog table heap (update.rid, update.oldValues)
  let newRid ← heapInsert heap (update.newBytes table)
  insertIntoAllIndexes catalog table update.newValues newRid

def executeUpdate (stmt : UpdateStatement) : DatabaseM ExecuteResult := do
  let catalog := (← get).catalog
  match catalog.findTable stmt.tableName with
  | none => throw (noSuchTable stmt.tableName)
  | some table =>
    let assignments ← resolveAssignments table stmt.assignments
    let access ← planTableAccess catalog stmt.tableName stmt.wherePredicates
    let heap ← heapFileForTable stmt.tableName
    let candidates ← fetchCandidateRows access
    let matched ← Fallible.collect (fun row => liftM (matchRow table access.residualPredicates row)) candidates
    let updates := matched.map fun (rid, values) => RowUpdate.mk rid values (assign assignments values)
    validateUpdateBatch catalog table updates
    updates.forM (updateRow catalog table heap)
    return { rowsAffected := updates.length }

def columnNames (table : TableInfo) : List String := table.columns.map ColumnDef.name

def projectColumn (table : TableInfo) (values : List LiteralValue) (column : ColumnRef) :
    Except Exception LiteralValue := do
  let idx ← columnIndex table column.columnName
  orUndefined values[idx]?

def executeSelectSingleTable (plan : SelectPlan) (access : TableAccessPlan) : DatabaseM ExecuteResult := do
  let catalog := (← get).catalog
  let table ← orUndefined (catalog.findTable access.tableName)
  let candidates ← fetchCandidateRows access
  let rows ← Fallible.collect (fun row => liftM (selectRow table row)) candidates
  return { rows,
           columnNames := if plan.selectStar then columnNames table else plan.selectList.map ColumnRef.columnName }
where
  project (table : TableInfo) (values : List LiteralValue) : Except Exception (List LiteralValue) :=
    if plan.selectStar then .ok values else plan.selectList.mapM (projectColumn table values)
  selectRow (table : TableInfo) (row : RID × Bytes) : Except Exception (List (List LiteralValue)) := do
    let matched ← matchRow table access.residualPredicates row
    matched.mapM fun (_, values) => project table values

def executeSelectJoin (plan : SelectPlan) (join : JoinPlan) : DatabaseM ExecuteResult := do
  let catalog := (← get).catalog
  let outer ← orUndefined (catalog.findTable join.outer.tableName)
  let inner ← orUndefined (catalog.findTable join.innerTableName)
  let outerJoinIdx ← columnIndex outer join.outerJoinColumn
  let innerJoinIdx ← columnIndex inner join.innerJoinColumn
  let innerHeap ← heapFileForTable join.innerTableName
  let innerRows ← innerSource innerHeap
  let candidates ← fetchCandidateRows join.outer
  let rows ← Fallible.collect (joinRow outer inner outerJoinIdx innerJoinIdx innerHeap innerRows) candidates
  return { rows,
           columnNames := if plan.selectStar then columnNames outer ++ columnNames inner
             else plan.selectList.map ColumnRef.columnName }
where
  -- The inner index, or all rows of the inner table, fetched once.
  innerSource (innerHeap : Nat) : DatabaseM (Nat ⊕ List (RID × Bytes)) :=
    match join.innerMethod with
    | .kIndexScan => do return .inl (← indexByName join.innerIndexName)
    | .kSeqScan => do return .inr (← heapScan innerHeap)
  projectJoined (outer inner : TableInfo) (outerValues innerValues : List LiteralValue) (column : ColumnRef) :
      Except Exception LiteralValue :=
    if column.tableName = some outer.name then projectColumn outer outerValues column
    else projectColumn inner innerValues column
  project (outer inner : TableInfo) (outerValues innerValues : List LiteralValue) :
      Except Exception (List LiteralValue) :=
    if plan.selectStar then .ok (outerValues ++ innerValues)
    else plan.selectList.mapM (projectJoined outer inner outerValues innerValues)
  onEquality (outerValue innerValue : LiteralValue) : Bool :=
    join.innerMethod = .kIndexScan || literalsEqual outerValue innerValue
  joinPair (outer inner : TableInfo) (outerValues : List LiteralValue) (outerValue : LiteralValue)
      (innerJoinIdx : Nat) (innerRow : RID × Bytes) : Except Exception (List (List LiteralValue)) := do
    let innerValues ← decodeRow inner.columns innerRow.2
    let innerValue ← orUndefined innerValues[innerJoinIdx]?
    if onEquality outerValue innerValue then
      let keep ← matchesAll inner innerValues join.innerResidualPredicates
      if keep then
        let row ← project outer inner outerValues innerValues
        return [row]
      else return []
    else return []
  innerCandidates (outerValue : LiteralValue) (innerHeap : Nat) :
      Nat ⊕ List (RID × Bytes) → DatabaseM (List (RID × Bytes))
    | .inl index => do
      let rids ← indexSearch index outerValue.key
      fetchRows innerHeap (.logicError ("ExecuteSelectJoin: index names a RID with no live row -- index and " ++
        "heap file are out of sync")) rids
    | .inr rows => return rows
  joinMatched (outer inner : TableInfo) (outerJoinIdx innerJoinIdx innerHeap : Nat)
      (innerRows : Nat ⊕ List (RID × Bytes)) (outerValues : List LiteralValue) :
      DatabaseM (List (List LiteralValue)) := do
    let outerValue ← orUndefined outerValues[outerJoinIdx]?
    let innerCandidates ← innerCandidates outerValue innerHeap innerRows
    Fallible.collect (fun row => liftM (joinPair outer inner outerValues outerValue innerJoinIdx row)) innerCandidates
  joinRow (outer inner : TableInfo) (outerJoinIdx innerJoinIdx innerHeap : Nat)
      (innerRows : Nat ⊕ List (RID × Bytes)) (outerRow : RID × Bytes) : DatabaseM (List (List LiteralValue)) := do
    let matched ← matchRow outer join.outer.residualPredicates outerRow
    Fallible.collect
      (fun row => joinMatched outer inner outerJoinIdx innerJoinIdx innerHeap innerRows row.2) matched

def executeSelect (stmt : SelectStatement) : DatabaseM ExecuteResult := do
  let plan ← planSelect (← get).catalog stmt
  match plan.access with
  | .table access => executeSelectSingleTable plan access
  | .join join => executeSelectJoin plan join

end FlintDB
