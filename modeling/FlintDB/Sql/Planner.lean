import FlintDB.Sql.SqlSemantics

set_option autoImplicit false

namespace FlintDB

inductive ScanMethod
  | kSeqScan
  | kIndexScan
  deriving DecidableEq

structure TableAccessPlan where
  tableName : String
  method : ScanMethod := .kSeqScan
  indexName : String := ""
  indexKey : Int64 := 0
  residualPredicates : List Predicate := []

structure JoinPlan where
  outer : TableAccessPlan
  innerTableName : String
  innerMethod : ScanMethod := .kSeqScan
  innerIndexName : String := ""
  innerResidualPredicates : List Predicate
  outerJoinColumn : String
  innerJoinColumn : String

inductive AccessPlan
  | table (access : TableAccessPlan)
  | join (plan : JoinPlan)

structure SelectPlan where
  selectStar : Bool
  selectList : List ColumnRef
  access : AccessPlan

inductive JoinSide
  | kOuter
  | kInner
  deriving DecidableEq

def JoinSide.table (outer inner : TableInfo) : JoinSide → TableInfo
  | kOuter => outer
  | kInner => inner

def validatePredicateAgainstTable (table : TableInfo) (pred : Predicate) : Except Exception Unit := do
  inScope pred.column.tableName
  let column ← requireColumn table pred.column.columnName
  requireLiteralMatchesColumn table column pred.value
where
  inScope : Option String → Except Exception Unit
    | none => .ok ()
    | some name =>
      if name = table.name then .ok ()
      else .error (.sqlSemanticError ("predicate column is qualified with table '" ++ name ++
        "', which is not in scope here (expected '" ++ table.name ++ "')"))

def findIndexOnColumn (catalog : Catalog) (tableName columnName : String) : Option IndexInfo :=
  (catalog.indexesOnTable tableName).find? fun index => index.columnName = columnName

def resolveColumnSide (outer inner : TableInfo) (column : ColumnRef) : Except Exception JoinSide :=
  match column.tableName with
  | some name =>
    if name = outer.name then do
      let _ ← requireColumn outer column.columnName
      return .kOuter
    else if name = inner.name then do
      let _ ← requireColumn inner column.columnName
      return .kInner
    else .error (.sqlSemanticError ("unknown table '" ++ name ++ "' in query (expected '" ++ outer.name ++
      "' or '" ++ inner.name ++ "')"))
  | none =>
    match outer.findColumn column.columnName, inner.findColumn column.columnName with
    | some _, some _ => .error (.sqlSemanticError ("column '" ++ column.columnName ++
        "' is ambiguous -- it exists in both '" ++ outer.name ++ "' and '" ++ inner.name ++
        "'; qualify it as table.column"))
    | some _, none => .ok .kOuter
    | none, some _ => .ok .kInner
    | none, none => .error (.sqlSemanticError ("column '" ++ column.columnName ++ "' does not exist in '" ++
        outer.name ++ "' or '" ++ inner.name ++ "'"))

def drivingPredicate (catalog : Catalog) (tableName : String) :
    List Predicate → Option (IndexInfo × Int64 × List Predicate)
  | [] => none
  | pred :: predicates =>
    match candidate pred with
    | some index => some (index, pred.value.intValue, predicates)
    | none => (drivingPredicate catalog tableName predicates).map fun (index, key, residual) =>
        (index, key, pred :: residual)
where
  candidate (pred : Predicate) : Option IndexInfo :=
    if pred.op = .kEq then findIndexOnColumn catalog tableName pred.column.columnName else none

def planTableAccess (catalog : Catalog) (tableName : String) (predicates : List Predicate) :
    Except Exception TableAccessPlan :=
  match catalog.findTable tableName with
  | none => .error (.sqlSemanticError ("no such table '" ++ tableName ++ "'"))
  | some table => do
    predicates.forM (validatePredicateAgainstTable table)
    match drivingPredicate catalog tableName predicates with
    | some (index, key, residual) =>
      return { tableName, method := .kIndexScan, indexName := index.name, indexKey := key,
               residualPredicates := residual }
    | none => return { tableName, residualPredicates := predicates }

-- A select-list column of a query over one table.
def resolveSelectColumn (table : TableInfo) (column : ColumnRef) : Except Exception ColumnRef := do
  inScope column.tableName
  let _ ← requireColumn table column.columnName
  return { tableName := some table.name, columnName := column.columnName }
where
  inScope : Option String → Except Exception Unit
    | none => .ok ()
    | some name =>
      if name = table.name then .ok ()
      else .error (.sqlSemanticError ("unknown table '" ++ name ++ "' in select list"))

def resolveSelectList (resolve : ColumnRef → Except Exception ColumnRef) (stmt : SelectStatement) :
    Except Exception (List ColumnRef) :=
  if stmt.selectStar then .ok [] else stmt.selectList.mapM resolve

def splitPredicates (outer inner : TableInfo) :
    List Predicate → Except Exception (List Predicate × List Predicate)
  | [] => .ok ([], [])
  | pred :: predicates => do
    let side ← resolveColumnSide outer inner pred.column
    let column ← requireColumn (side.table outer inner) pred.column.columnName
    requireLiteralMatchesColumn (side.table outer inner) column pred.value
    let (onOuter, onInner) ← splitPredicates outer inner predicates
    match side with
    | .kOuter => return (pred :: onOuter, onInner)
    | .kInner => return (onOuter, pred :: onInner)

def resolveJoinColumns (outer inner : TableInfo) (join : JoinClause) : Except Exception (String × String) := do
  let leftSide ← resolveColumnSide outer inner join.leftColumn
  let rightSide ← resolveColumnSide outer inner join.rightColumn
  if leftSide = rightSide then
    .error (.sqlSemanticError ("JOIN ON clause must compare one column from '" ++ outer.name ++
      "' to one column from '" ++ inner.name ++ "', not two columns of the same table"))
  else
    let outerJoinColumn :=
      if leftSide = .kOuter then join.leftColumn.columnName else join.rightColumn.columnName
    let innerJoinColumn :=
      if leftSide = .kInner then join.leftColumn.columnName else join.rightColumn.columnName
    let outerColumn ← requireColumn outer outerJoinColumn
    let innerColumn ← requireColumn inner innerJoinColumn
    if outerColumn.type = innerColumn.type then .ok (outerJoinColumn, innerJoinColumn)
    else .error (.sqlSemanticError ("JOIN ON compares '" ++ outer.name ++ "." ++ outerJoinColumn ++ "' (" ++
      columnTypeToString outerColumn.type ++ ") to '" ++ inner.name ++ "." ++ innerJoinColumn ++ "' (" ++
      columnTypeToString innerColumn.type ++ ") -- both sides of an equi-join must be the same type"))

def planJoin (catalog : Catalog) (outer inner : TableInfo) (join : JoinClause) (stmt : SelectStatement) :
    Except Exception SelectPlan := do
  let (outerJoinColumn, innerJoinColumn) ← resolveJoinColumns outer inner join
  let (outerPredicates, innerPredicates) ← splitPredicates outer inner stmt.wherePredicates
  let outerAccess ← planTableAccess catalog outer.name outerPredicates
  let plan : JoinPlan :=
    { outer := outerAccess, innerTableName := inner.name, innerResidualPredicates := innerPredicates,
      outerJoinColumn, innerJoinColumn }
  let selectList ← resolveSelectList resolve stmt
  match findIndexOnColumn catalog inner.name innerJoinColumn with
  | some index => return ⟨stmt.selectStar, selectList,
      .join { plan with innerMethod := .kIndexScan, innerIndexName := index.name }⟩
  | none => return ⟨stmt.selectStar, selectList, .join plan⟩
where
  resolve (column : ColumnRef) : Except Exception ColumnRef := do
    let side ← resolveColumnSide outer inner column
    return { tableName := some (side.table outer inner).name, columnName := column.columnName }

def planSelect (catalog : Catalog) (stmt : SelectStatement) : Except Exception SelectPlan :=
  match catalog.findTable stmt.fromTable with
  | none => .error (.sqlSemanticError ("no such table '" ++ stmt.fromTable ++ "'"))
  | some fromTable =>
    match stmt.join with
    | none => do
      let selectList ← resolveSelectList (resolveSelectColumn fromTable) stmt
      let access ← planTableAccess catalog stmt.fromTable stmt.wherePredicates
      return ⟨stmt.selectStar, selectList, .table access⟩
    | some join =>
      match catalog.findTable join.tableName with
      | none => .error (.sqlSemanticError ("no such table '" ++ join.tableName ++ "'"))
      | some innerTable =>
        if innerTable.name = fromTable.name then
          .error (.sqlSemanticError ("JOIN requires two distinct tables (got '" ++ fromTable.name ++
            "' twice) -- self-joins aren't supported, since this grammar has no table aliasing to " ++
            "distinguish the two occurrences"))
        else planJoin catalog fromTable innerTable join stmt

end FlintDB
