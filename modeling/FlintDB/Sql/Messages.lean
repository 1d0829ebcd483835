import FlintDB.Lib.Utf8
import FlintDB.Sql.Printer
import FlintDB.Sql.SessionRuns

set_option autoImplicit false

-- Around the names of a statement and of the catalog the messages of the exceptions are in ASCII.

namespace FlintDB

open Lib Fallible

def PlainText (text : String) : Prop := IsAscii (bytesOf text)

instance (text : String) : Decidable (PlainText text) := inferInstanceAs (Decidable (IsAscii _))

-- A long text is cheaper to decide by its characters.
theorem plain_ofList {chars : List Char} (ascii : (chars.all fun c => c.toUInt8 < 128) = true) :
    PlainText (String.ofList chars) := by
  simpa [PlainText, bytesOf, IsAscii] using ascii

@[simp] theorem plain_append {front back : String} : PlainText (front ++ back) ↔ PlainText front ∧ PlainText back := by
  simp [PlainText, bytesOf, IsAscii, or_imp, forall_and]

theorem isAscii_naturalText (n : Nat) : IsAscii (naturalText n) := by
  intro c isThere
  have digit := (naturalText_digits n).2 c isThere
  simp only [isDigit, Bool.and_eq_true, decide_eq_true_eq] at digit
  exact UInt8.lt_of_le_of_lt digit.2 (by decide)

@[simp] theorem plain_natRepr (n : Nat) : PlainText n.repr := isAscii_naturalText n

@[simp] theorem plain_intRepr (n : Int) : PlainText n.repr := by
  cases n with
  | ofNat n => exact plain_natRepr n
  | negSucc n => exact plain_append.mpr ⟨by decide, plain_natRepr (n + 1)⟩

theorem isIdentCont_ascii {c : UInt8} (inWord : isIdentCont c = true) : c < 128 := by
  simp only [isIdentCont, isUpper, isLower, isDigit, Bool.or_eq_true, Bool.and_eq_true, decide_eq_true_eq,
    beq_iff_eq, UInt8.le_iff_toNat_le, UInt8.ext_iff, UInt8.lt_iff_toNat_lt] at inWord ⊢
  simp at inWord ⊢
  omega

theorem isIdentStart_cont {c : UInt8} (starts : isIdentStart c = true) : isIdentCont c = true := by
  simp only [isIdentStart, isIdentCont, Bool.or_eq_true] at starts ⊢
  tauto

theorem IsIdentifier.plain {name : String} (isName : IsIdentifier name) : PlainText name := by
  have word := isName.2.1
  rw [PlainText]
  cases text : bytesOf name with
  | nil => simp [IsAscii]
  | cons c rest =>
    rw [text, isWord, Bool.and_eq_true, List.all_eq_true] at word
    exact List.forall_mem_cons.mpr
      ⟨isIdentCont_ascii (isIdentStart_cont word.1), fun d isThere => isIdentCont_ascii (word.2 d isThere)⟩

@[simp] theorem plain_columnTypeToString (type : ColumnType) : PlainText (columnTypeToString type) := by
  cases type <;> decide

def Exception.Plain : Exception → Prop
  | .sqlSemanticError what | .invalidArgument what | .logicError what | .runtimeError what => PlainText what
  | .transactionAborted _ | .asleep | .undefined => True

structure TableInfo.Plain (table : TableInfo) : Prop where
  name : PlainText table.name
  columns : ∀ column ∈ table.columns, PlainText column.name

structure Catalog.Plain (catalog : Catalog) : Prop where
  tables : ∀ table ∈ catalog.tables, table.Plain
  indexes : ∀ index ∈ catalog.indexes, PlainText index.name ∧ PlainText index.columnName

def ColumnRef.Plain (column : ColumnRef) : Prop :=
  (∀ table ∈ column.tableName, PlainText table) ∧ PlainText column.columnName

theorem ColumnRef.WellFormed.plain {column : ColumnRef} (wellFormed : column.WellFormed) : column.Plain :=
  ⟨fun table isTable => (wellFormed.1 table isTable).plain, wellFormed.2.plain⟩

-- In each branch, what remains after the names is a text that is written out.
section Tables

variable {table outer inner : TableInfo} (plain : table.Plain) (plainOuter : outer.Plain) (plainInner : inner.Plain)

theorem requireColumn_wording (isPlain : PlainText table.name) {columnName : String} (named : PlainText columnName) :
    Gives (requireColumn table columnName) (fun column => column ∈ table.columns) Exception.Plain := by
  rw [requireColumn]
  split
  · exact List.mem_of_find?_eq_some ‹_›
  · simpa [Gives, Exception.Plain, named, isPlain] using by decide

include plain in
theorem requireLiteralMatchesColumn_wording {column : ColumnDef} (named : PlainText column.name) (value : LiteralValue) :
    Gives (requireLiteralMatchesColumn table column value) (fun _ => True) Exception.Plain := by
  rw [requireLiteralMatchesColumn]
  split
  · trivial
  · simpa [Gives, Exception.Plain, named, plain.name] using by decide

theorem columnIndex_wording (isPlain : PlainText table.name) {columnName : String} (named : PlainText columnName) :
    Gives (columnIndex table columnName) (fun _ => True) Exception.Plain := by
  refine (requireColumn_wording isPlain named).bind fun _ _ => ?_
  split
  · trivial
  · show PlainText _
    decide

include plain in
theorem validatePredicateAgainstTable_wording {pred : Predicate} (named : pred.column.Plain) :
    Gives (validatePredicateAgainstTable table pred) (fun _ => True) Exception.Plain := by
  refine Gives.bind (Q := fun _ => True) ?_ fun _ _ => (requireColumn_wording plain.name named.2).bind fun column isColumn =>
    requireLiteralMatchesColumn_wording plain (plain.columns column isColumn) _
  cases qualified : pred.column.tableName with
  | none => trivial
  | some name =>
    have isPlain := named.1 name qualified
    rw [validatePredicateAgainstTable.inScope]
    split
    · trivial
    · simpa [Gives, Exception.Plain, isPlain, plain.name] using by decide

include plain in
theorem resolveSelectColumn_wording {column : ColumnRef} (named : column.Plain) :
    Gives (resolveSelectColumn table column) (fun target => PlainText target.columnName) Exception.Plain := by
  refine Gives.bind (Q := fun _ => True) ?_ fun _ _ => (requireColumn_wording plain.name named.2).bind fun _ _ => named.2
  cases qualified : column.tableName with
  | none => trivial
  | some name =>
    have isPlain := named.1 name qualified
    rw [resolveSelectColumn.inScope]
    split
    · trivial
    · simpa [Gives, Exception.Plain, isPlain] using by decide

include plainOuter plainInner in
theorem resolveColumnSide_wording {column : ColumnRef} (named : column.Plain) :
    Gives (resolveColumnSide outer inner column) (fun _ => True) Exception.Plain := by
  rw [resolveColumnSide]
  split
  · rename_i name qualified
    have isPlain := named.1 name qualified
    split
    · exact (requireColumn_wording plainOuter.name named.2).bind fun _ _ => trivial
    split
    · exact (requireColumn_wording plainInner.name named.2).bind fun _ _ => trivial
    · simpa [Gives, Exception.Plain, isPlain, plainOuter.name, plainInner.name] using by decide
  · split
    · simpa [Gives, Exception.Plain, named.2, plainOuter.name, plainInner.name] using by decide
    · trivial
    · trivial
    · simpa [Gives, Exception.Plain, named.2, plainOuter.name, plainInner.name] using by decide

include plainOuter plainInner in
theorem JoinSide.table_plain (side : JoinSide) : (side.table outer inner).Plain := by
  cases side with
  | kOuter => exact plainOuter
  | kInner => exact plainInner

include plainOuter plainInner in
theorem splitPredicates_wording {predicates : List Predicate} (named : ∀ pred ∈ predicates, pred.column.Plain) :
    Gives (splitPredicates outer inner predicates)
      (fun sides => (∀ pred ∈ sides.1, pred.column.Plain) ∧ ∀ pred ∈ sides.2, pred.column.Plain) Exception.Plain := by
  induction predicates with
  | nil => exact ⟨by simp, by simp⟩
  | cons pred predicates ih =>
    obtain ⟨first, rest⟩ := List.forall_mem_cons.mp named
    refine (resolveColumnSide_wording plainOuter plainInner first).bind fun side _ => ?_
    have onSide := side.table_plain plainOuter plainInner
    refine (requireColumn_wording onSide.name first.2).bind fun column isColumn => ?_
    refine (requireLiteralMatchesColumn_wording onSide (onSide.columns column isColumn) _).bind fun _ _ => ?_
    refine (ih rest).bind fun sides plain => ?_
    cases side with
    | kOuter => exact ⟨List.forall_mem_cons.mpr ⟨first, plain.1⟩, plain.2⟩
    | kInner => exact ⟨plain.1, List.forall_mem_cons.mpr ⟨first, plain.2⟩⟩

include plainOuter plainInner in
theorem resolveJoinColumns_wording {join : JoinClause} (left : join.leftColumn.Plain) (right : join.rightColumn.Plain) :
    Gives (resolveJoinColumns outer inner join) (fun names => PlainText names.1 ∧ PlainText names.2) Exception.Plain := by
  refine (resolveColumnSide_wording plainOuter plainInner left).bind fun leftSide _ =>
    (resolveColumnSide_wording plainOuter plainInner right).bind fun rightSide _ => ?_
  split
  · simpa [Gives, Exception.Plain, plainOuter.name, plainInner.name] using by decide
  · have either : ∀ side, PlainText (if leftSide = side then join.leftColumn.columnName else join.rightColumn.columnName) := by
      intro side
      split
      · exact left.2
      · exact right.2
    refine (requireColumn_wording plainOuter.name (either _)).bind fun outerColumn _ =>
      (requireColumn_wording plainInner.name (either _)).bind fun innerColumn _ => ?_
    split
    · exact ⟨either _, either _⟩
    · simpa [Gives, Exception.Plain, plainOuter.name, plainInner.name, either] using by decide

end Tables

structure TableAccessPlan.Plain (access : TableAccessPlan) : Prop where
  indexName : PlainText access.indexName
  residual : ∀ pred ∈ access.residualPredicates, pred.column.Plain

structure JoinPlan.Plain (join : JoinPlan) : Prop where
  outer : join.outer.Plain
  residual : ∀ pred ∈ join.innerResidualPredicates, pred.column.Plain
  outerColumn : PlainText join.outerJoinColumn
  innerColumn : PlainText join.innerJoinColumn

structure SelectPlan.Plain (plan : SelectPlan) : Prop where
  selectList : ∀ column ∈ plan.selectList, PlainText column.columnName
  table : ∀ access, plan.access = .table access → access.Plain
  join : ∀ join, plan.access = .join join → join.Plain

structure SelectStatement.Plain (stmt : SelectStatement) : Prop where
  selectList : ∀ column ∈ stmt.selectList, column.Plain
  fromTable : PlainText stmt.fromTable
  join : ∀ join ∈ stmt.join, PlainText join.tableName ∧ join.leftColumn.Plain ∧ join.rightColumn.Plain
  predicates : ∀ pred ∈ stmt.wherePredicates, pred.column.Plain

section Plans

variable {catalog : Catalog} (plain : catalog.Plain)

include plain in
theorem drivingPredicate_plain {tableName : String} {predicates : List Predicate}
    (named : ∀ pred ∈ predicates, pred.column.Plain) {index : IndexInfo} {key : Int64} {residual : List Predicate}
    (driving : drivingPredicate catalog tableName predicates = some (index, key, residual)) :
    PlainText index.name ∧ ∀ pred ∈ residual, pred.column.Plain := by
  induction predicates generalizing residual with
  | nil => cases driving
  | cons pred predicates ih =>
    obtain ⟨first, rest⟩ := List.forall_mem_cons.mp named
    rw [drivingPredicate] at driving
    split at driving
    · rename_i found
      cases driving
      rw [drivingPredicate.candidate] at found
      split at found
      · have isIndex := List.mem_of_mem_filter (List.mem_of_find?_eq_some found)
        exact ⟨(plain.indexes index isIndex).1, rest⟩
      · cases found
    · obtain ⟨⟨index', key', residual'⟩, further, same⟩ := Option.map_eq_some_iff.mp driving
      cases same
      obtain ⟨isPlain, others⟩ := ih rest further
      exact ⟨isPlain, List.forall_mem_cons.mpr ⟨first, others⟩⟩

include plain in
theorem planTableAccess_wording {tableName : String} (isPlain : PlainText tableName) {predicates : List Predicate}
    (named : ∀ pred ∈ predicates, pred.column.Plain) :
    Gives (planTableAccess catalog tableName predicates) TableAccessPlan.Plain Exception.Plain := by
  rw [planTableAccess]
  split
  · simpa [Gives, Exception.Plain, isPlain] using by decide
  · rename_i table found
    have onTable := plain.tables table (Catalog.findTable_eq_some.mp found).1
    refine (Gives.forM fun pred isPred => validatePredicateAgainstTable_wording onTable (named pred isPred)).bind
      fun _ _ => ?_
    split
    · rename_i driving
      obtain ⟨indexName, residual⟩ := drivingPredicate_plain plain named driving
      exact ⟨indexName, residual⟩
    · exact ⟨(by decide : PlainText ""), named⟩

theorem resolveSelectList_wording {resolve : ColumnRef → Except Exception ColumnRef} {stmt : SelectStatement}
    (each : ∀ column ∈ stmt.selectList, Gives (resolve column) (fun target => PlainText target.columnName) Exception.Plain) :
    Gives (resolveSelectList resolve stmt) (fun targets => ∀ target ∈ targets, PlainText target.columnName)
      Exception.Plain := by
  rw [resolveSelectList]
  split
  · simp [Gives]
  · exact Gives.mapM each

include plain in
theorem planJoin_wording {outer inner : TableInfo} (plainOuter : outer.Plain) (plainInner : inner.Plain) {join : JoinClause}
    (left : join.leftColumn.Plain) (right : join.rightColumn.Plain) {stmt : SelectStatement} (named : stmt.Plain) :
    Gives (planJoin catalog outer inner join stmt) SelectPlan.Plain Exception.Plain := by
  refine (resolveJoinColumns_wording plainOuter plainInner left right).bind fun columns plainColumns => ?_
  refine (splitPredicates_wording plainOuter plainInner named.predicates).bind fun sides plainSides => ?_
  refine (planTableAccess_wording plain plainOuter.name plainSides.1).bind fun access plainAccess => ?_
  have resolves : ∀ column ∈ stmt.selectList,
      Gives (planJoin.resolve outer inner column) (fun target => PlainText target.columnName) Exception.Plain :=
    fun column isColumn => (resolveColumnSide_wording plainOuter plainInner (named.selectList column isColumn)).bind
      fun _ _ => (named.selectList column isColumn).2
  refine (resolveSelectList_wording resolves).bind fun selectList plainList => ?_
  split
  all_goals
    refine ⟨plainList, by rintro _ ⟨⟩, ?_⟩
    rintro _ ⟨⟩
    exact ⟨plainAccess, plainSides.2, plainColumns.1, plainColumns.2⟩

include plain in
theorem planSelect_wording {stmt : SelectStatement} (named : stmt.Plain) :
    Gives (planSelect catalog stmt) SelectPlan.Plain Exception.Plain := by
  rw [planSelect]
  split
  · simpa [Gives, Exception.Plain, named.fromTable] using by decide
  · rename_i fromTable found
    have onTable := plain.tables fromTable (Catalog.findTable_eq_some.mp found).1
    split
    · refine (resolveSelectList_wording fun column isColumn =>
        resolveSelectColumn_wording onTable (named.selectList column isColumn)).bind fun selectList plainList => ?_
      refine (planTableAccess_wording plain named.fromTable named.predicates).bind fun access plainAccess => ?_
      refine ⟨plainList, ?_, by rintro _ ⟨⟩⟩
      rintro _ ⟨⟩
      exact plainAccess
    · rename_i join joined
      obtain ⟨joinTable, left, right⟩ := named.join join joined
      split
      · simpa [Gives, Exception.Plain, joinTable] using by decide
      · rename_i innerTable innerFound
        have onInner := plain.tables innerTable (Catalog.findTable_eq_some.mp innerFound).1
        split
        · simpa [Gives, Exception.Plain, onTable.name] using by decide
        · exact planJoin_wording plain onTable onInner left right named

end Plans

abbrev Speaks {α : Type} (program : DatabaseM α) : Prop :=
  Ends (fun _ => True) program (fun _ => True) Exception.Plain

namespace Database

theorem lockPage_speaks (objectId pageId : Nat) (mode : LockMode) : Speaks (lockPage objectId pageId mode) := by
  refine Ends.get.bind fun db _ => ?_
  split
  · exact Ends.pure trivial
  · split
    · exact Ends.set trivial
    · exact Ends.throw trivial
    · exact Ends.throw trivial

theorem getHeapFile_speaks (objectId : Nat) : Speaks (getHeapFile objectId) := by
  refine Ends.get.bind fun db _ => ?_
  split
  · exact Ends.pure trivial
  · exact Ends.throw trivial

theorem storeHeapFile_speaks (objectId : Nat) (file : HeapFile) : Speaks (storeHeapFile objectId file) :=
  Ends.modify fun _ _ => trivial

theorem insertRecord_speaks (objectId pageId : Nat) (rowBytes : Bytes) :
    Speaks (insertRecord objectId pageId rowBytes) := by
  refine (getHeapFile_speaks _).bind fun file _ => ?_
  split
  · exact (storeHeapFile_speaks _ _).bind fun _ _ => Ends.pure trivial
  · exact Ends.pure trivial

theorem heapInsert_speaks (objectId : Nat) (rowBytes : Bytes) : Speaks (heapInsert objectId rowBytes) := by
  have inLast : Speaks (insertIntoLastPage objectId rowBytes) := by
    refine (getHeapFile_speaks _).bind fun file _ => ?_
    split
    · exact Ends.pure trivial
    · exact (lockPage_speaks _ _ _).bind fun _ _ => insertRecord_speaks _ _ _
  have inNew : Speaks (insertIntoNewPage objectId rowBytes) := by
    refine (getHeapFile_speaks _).bind fun file _ => (storeHeapFile_speaks _ _).bind fun _ _ => ?_
    refine (lockPage_speaks _ _ _).bind fun _ _ => (getHeapFile_speaks _).bind fun file _ => ?_
    refine (storeHeapFile_speaks _ _).bind fun _ _ => (insertRecord_speaks _ _ _).bind fun inserted _ => ?_
    split
    · exact Ends.pure trivial
    · exact Ends.throw (by decide : PlainText _)
  rw [heapInsert]
  split
  · exact Ends.throw (by decide : PlainText _)
  · refine inLast.bind fun inserted _ => ?_
    split
    · exact Ends.pure trivial
    · exact inNew

theorem heapGetRow_speaks (objectId : Nat) (rid : RID) : Speaks (heapGetRow objectId rid) := by
  refine (getHeapFile_speaks _).bind fun file _ => ?_
  split
  · exact (lockPage_speaks _ _ _).bind fun _ _ => (getHeapFile_speaks _).bind fun _ _ => Ends.pure trivial
  · exact Ends.pure trivial

theorem heapScan_speaks (objectId : Nat) : Speaks (heapScan objectId) :=
  (getHeapFile_speaks _).bind fun _ _ => Ends.collect fun _ _ =>
    (lockPage_speaks _ _ _).bind fun _ _ => (getHeapFile_speaks _).bind fun _ _ => Ends.pure trivial

theorem heapDelete_speaks (objectId : Nat) (rid : RID) : Speaks (heapDelete objectId rid) := by
  refine (getHeapFile_speaks _).bind fun file _ => ?_
  split
  · refine (lockPage_speaks _ _ _).bind fun _ _ => (getHeapFile_speaks _).bind fun file _ => ?_
    dsimp only
    split
    · exact (storeHeapFile_speaks _ _).bind fun _ _ => Ends.pure trivial
    · exact Ends.pure trivial
  · exact Ends.pure trivial

theorem ofBTree_wording {α : Type} (outcome : Except BTreeError α) :
    Gives (ofBTree outcome) (fun _ => True) Exception.Plain := by
  rcases outcome with e | a
  · cases e with
    | traversalStepsExceeded =>
      refine plain_append.mpr ⟨plain_append.mpr ⟨plain_ofList ?_, plain_ofList ?_⟩, plain_ofList ?_⟩ <;> decide
    | undefined => trivial
  · trivial

theorem getIndex_speaks (objectId : Nat) : Speaks (getIndex objectId) := by
  refine Ends.get.bind fun db _ => ?_
  split
  · exact Ends.pure trivial
  · exact Ends.throw trivial

theorem indexSearch_speaks (objectId : Nat) (key : Int) : Speaks (indexSearch objectId key) :=
  (lockPage_speaks _ _ _).bind fun _ _ => (getIndex_speaks _).bind fun _ _ => Ends.lift (ofBTree_wording _)

theorem modifyIndex_speaks {α : Type} (objectId : Nat) (operation : BTreeM α) : Speaks (modifyIndex objectId operation) :=
  (lockPage_speaks _ _ _).bind fun _ _ => (getIndex_speaks _).bind fun _ _ =>
    Ends.bind (Ends.modify fun _ _ => trivial) fun _ _ => Ends.lift (ofBTree_wording _)

theorem heapFileForTable_speaks (tableName : String) : Speaks (heapFileForTable tableName) := by
  refine Ends.get.bind fun db _ => ?_
  split
  · exact Ends.pure trivial
  · exact Ends.throw trivial

theorem indexByName_speaks (indexName : String) : Speaks (indexByName indexName) := by
  refine Ends.get.bind fun db _ => ?_
  split
  · exact Ends.pure trivial
  · exact Ends.throw trivial

end Database

theorem orUndefined_wording {α : Type} (found : Option α) :
    Gives (orUndefined found) (fun a => found = some a) Exception.Plain := by
  cases found with
  | none => trivial
  | some a => exact rfl

theorem decodeValue_wording (column : ColumnDef) (rowBytes : Bytes) :
    Gives (decodeValue column rowBytes) (fun _ => True) Exception.Plain := by
  rw [decodeValue]
  split
  · split
    · show PlainText _
      decide
    · trivial
  · split
    · show PlainText _
      decide
    · dsimp only
      split
      · show PlainText _
        decide
      · trivial

theorem decodeRow_wording (columns : List ColumnDef) (rowBytes : Bytes) :
    Gives (decodeRow columns rowBytes) (fun _ => True) Exception.Plain := by
  induction columns generalizing rowBytes with
  | nil => trivial
  | cons column columns ih =>
    exact (decodeValue_wording column rowBytes).bind fun _ _ => (ih _).bind fun _ _ => trivial

section Rows

variable {table : TableInfo} (plain : table.Plain)

include plain in
theorem matchesAll_wording {predicates : List Predicate} (named : ∀ pred ∈ predicates, pred.column.Plain)
    (values : List LiteralValue) : Gives (matchesAll table values predicates) (fun _ => True) Exception.Plain := by
  induction predicates with
  | nil => trivial
  | cons pred predicates ih =>
    obtain ⟨first, rest⟩ := List.forall_mem_cons.mp named
    have evaluates : Gives (evaluatePredicate table values pred) (fun _ => True) Exception.Plain :=
      (columnIndex_wording plain.name first.2).bind fun _ _ => (orUndefined_wording _).bind fun _ _ => trivial
    refine evaluates.bind fun holds _ => ?_
    split
    · exact ih rest
    · trivial

include plain in
theorem matchRow_wording {residual : List Predicate} (named : ∀ pred ∈ residual, pred.column.Plain) (row : RID × Bytes) :
    Gives (matchRow table residual row) (fun _ => True) Exception.Plain := by
  refine (decodeRow_wording _ _).bind fun values _ => (matchesAll_wording plain named values).bind fun keep _ => ?_
  split <;> trivial

include plain in
theorem indexKeyOf_wording {index : IndexInfo} (named : PlainText index.columnName) (values : List LiteralValue) :
    Gives (indexKeyOf table values index) (fun _ => True) Exception.Plain :=
  (columnIndex_wording plain.name named).bind fun _ _ => (orUndefined_wording _).bind fun _ _ => trivial

include plain in
theorem projectColumn_wording {columnName : ColumnRef} (named : PlainText columnName.columnName) (values : List LiteralValue) :
    Gives (projectColumn table values columnName) (fun _ => True) Exception.Plain :=
  (columnIndex_wording plain.name named).bind fun _ _ => (orUndefined_wording _).mono fun _ _ => trivial

theorem fetchRows_speaks {outOfSync : Exception} (known : outOfSync.Plain) (heap : Nat) (rids : List RID) :
    Speaks (fetchRows heap outOfSync rids) := by
  refine Ends.collect fun rid _ => (Database.heapGetRow_speaks _ _).bind fun row _ => ?_
  split
  · exact Ends.pure trivial
  · exact Ends.throw known

theorem fetchCandidateRows_speaks {access : TableAccessPlan} (named : access.Plain) : Speaks (fetchCandidateRows access) := by
  rw [fetchCandidateRows]
  split
  · exact (Database.heapFileForTable_speaks _).bind fun _ _ => Database.heapScan_speaks _
  · refine (Database.indexByName_speaks _).bind fun _ _ => (Database.heapFileForTable_speaks _).bind fun _ _ => ?_
    refine (Database.indexSearch_speaks _ _).bind fun _ _ => fetchRows_speaks ?_ _ _
    simpa [Exception.Plain, named.indexName] using by decide

end Rows

section Writing

variable {catalog : Catalog} {table : TableInfo} (plainCatalog : catalog.Plain) (plain : table.Plain)
include plainCatalog plain

theorem keyed_wording {index : IndexInfo} (isIndex : index ∈ catalog.indexes) (values : List LiteralValue) :
    Gives (indexKeyOf table values index) (fun _ => True) Exception.Plain :=
  indexKeyOf_wording plain (plainCatalog.indexes index isIndex).2 values

theorem insertIntoAllIndexes_speaks (values : List LiteralValue) (rid : RID) :
    Speaks (insertIntoAllIndexes catalog table values rid) :=
  Ends.forM fun _ onTable => (Ends.lift (keyed_wording plainCatalog plain (List.mem_of_mem_filter onTable) _)).bind
    fun _ _ => Database.modifyIndex_speaks _ _

theorem deleteRow_speaks (heap : Nat) (row : RID × List LiteralValue) : Speaks (deleteRow catalog table heap row) := by
  refine Ends.bind (Ends.forM fun index onTable => ?_) fun _ _ =>
    (Database.heapDelete_speaks _ _).bind fun _ _ => Ends.pure trivial
  exact (Ends.lift (keyed_wording plainCatalog plain (List.mem_of_mem_filter onTable) _)).bind fun _ _ =>
    (Database.modifyIndex_speaks _ _).bind fun _ _ => Ends.pure trivial

omit plainCatalog in
theorem duplicateKey_plain (key : Int) : (duplicateKey table key).Plain := by
  simpa [duplicateKey, Exception.Plain, plain.name] using by decide

theorem checkPrimaryKeyUniqueness_speaks (values : List LiteralValue) :
    Speaks (checkPrimaryKeyUniqueness catalog table values) := by
  rw [checkPrimaryKeyUniqueness]
  split
  · exact Ends.pure trivial
  · rename_i index isKey
    have isIndex := List.mem_of_find?_eq_some isKey
    refine (Ends.lift (keyed_wording plainCatalog plain ?_ _)).bind fun _ _ =>
      (Database.indexSearch_speaks _ _).bind fun found _ => ?_
    · exact isIndex
    · split
      · exact Ends.pure trivial
      · exact Ends.throw (duplicateKey_plain plain _)

theorem validateUpdateBatch_speaks (updates : List RowUpdate) : Speaks (validateUpdateBatch catalog table updates) := by
  rw [validateUpdateBatch]
  split
  · exact Ends.throw (by decide : PlainText _)
  split
  · exact Ends.pure trivial
  · rename_i index isKey
    have isIndex := List.mem_of_find?_eq_some isKey
    refine (Ends.lift (Gives.mapM fun update _ => keyed_wording plainCatalog plain ?_ _)).bind fun keys _ => ?_
    · exact isIndex
    split
    · refine Ends.throw ?_
      simpa [Exception.Plain, plain.name] using by decide
    · refine Ends.forM fun key _ => (Database.indexSearch_speaks _ _).bind fun found _ => ?_
      split
      · exact Ends.throw (duplicateKey_plain plain _)
      · exact Ends.pure trivial

end Writing

section Statements

theorem Catalog.duplicateName_plain {columns : List ColumnDef} (plain : ∀ column ∈ columns, PlainText column.name)
    {column : String} (isDuplicate : duplicateName columns = some column) : PlainText column := by
  induction columns with
  | nil => cases isDuplicate
  | cons first columns ih =>
    rw [List.forall_mem_cons] at plain
    rw [duplicateName] at isDuplicate
    split at isDuplicate
    · cases isDuplicate
      exact plain.1
    · exact ih plain.2 isDuplicate

theorem Catalog.createTable_wording (catalog : Catalog) {name : String} {columns : List ColumnDef}
    {primaryKeyColumn : Option String} (named : PlainText name) (plain : ∀ column ∈ columns, PlainText column.name)
    (key : ∀ key ∈ primaryKeyColumn, key ∈ columns.map ColumnDef.name) :
    Gives (catalog.createTable name columns primaryKeyColumn) (fun _ => True) Exception.Plain := by
  have checks : Gives (checkPrimaryKey name columns primaryKeyColumn) (fun _ => True) Exception.Plain := by
    cases primaryKeyColumn with
    | none => trivial
    | some primaryKey =>
      obtain ⟨column, isColumn, rfl⟩ := List.mem_map.mp (key _ rfl)
      have isPlain := plain column isColumn
      rw [checkPrimaryKey]
      split
      · simpa [Gives, Exception.Plain, named, isPlain] using by decide
      · split
        · trivial
        · simpa [Gives, Exception.Plain, isPlain] using by decide
  rw [Catalog.createTable]
  split
  · simpa [Gives, Exception.Plain, named] using by decide
  split
  · simpa [Gives, Exception.Plain, named] using by decide
  split
  · rename_i column isDuplicate
    have isPlain := duplicateName_plain plain isDuplicate
    simpa [Gives, Exception.Plain, named, isPlain] using by decide
  split
  · rename_i e notKeyed
    rw [notKeyed] at checks
    exact checks
  · cases primaryKeyColumn <;> trivial

theorem Catalog.createIndex_wording (catalog : Catalog) {name tableName columnName : String} (named : PlainText name)
    (onTable : PlainText tableName) (onColumn : PlainText columnName) :
    Gives (catalog.createIndex name tableName columnName) (fun _ => True) Exception.Plain := by
  rw [Catalog.createIndex]
  split
  · simpa [Gives, Exception.Plain, named] using by decide
  split
  · simpa [Gives, Exception.Plain, onTable] using by decide
  split
  · simpa [Gives, Exception.Plain, onTable, onColumn] using by decide
  split
  · trivial
  · simpa [Gives, Exception.Plain, onColumn] using by decide

namespace Database

theorem requireNoActiveTransaction_speaks {statementKind : String} (named : PlainText statementKind) :
    Speaks (requireNoActiveTransaction statementKind) := by
  refine Ends.get.bind fun db _ => ?_
  split
  · exact Ends.pure trivial
  · refine Ends.throw ?_
    simpa [Exception.Plain, named] using by decide

theorem createTable_speaks {stmt : CreateTableStatement} (wellFormed : (Statement.createTable stmt).WellFormed) :
    Speaks (createTable stmt.tableName stmt.columns stmt.primaryKeyColumn) := by
  obtain ⟨isName, -, columns, key⟩ := wellFormed
  refine Ends.get.bind fun db _ => (Ends.lift (db.catalog.createTable_wording isName.plain (fun column isColumn =>
    (columns column isColumn).plain) key)).bind fun created _ => (Ends.set trivial).bind fun _ _ => ?_
  split
  · split
    · exact (Ends.modify fun _ _ => trivial).bind fun _ _ => Ends.pure trivial
    · have fails : Speaks (throw .undefined : DatabaseM PUnit) := Ends.throw trivial
      exact fails.bind fun _ _ => Ends.pure trivial
  · exact Ends.pure trivial

theorem executeCreateTable_speaks {stmt : CreateTableStatement} (wellFormed : (Statement.createTable stmt).WellFormed) :
    Speaks (executeCreateTable stmt) :=
  (requireNoActiveTransaction_speaks (by decide)).bind fun _ _ => (createTable_speaks wellFormed).bind fun _ _ =>
    Ends.pure trivial

theorem populate_speaks {stmt : CreateIndexStatement} (wellFormed : (Statement.createIndex stmt).WellFormed) (index : Nat) :
    Speaks (executeCreateIndex.populate stmt index) := by
  obtain ⟨-, onTable, onColumn⟩ := wellFormed
  refine Ends.get.bind fun db _ => (Ends.lift (orUndefined_wording _)).bind fun table found => ?_
  have isPlain : PlainText table.name := by
    rw [(Catalog.findTable_eq_some.mp found).2]
    exact onTable.plain
  refine (Ends.lift (columnIndex_wording isPlain onColumn.plain)).bind fun column _ => ?_
  refine (heapFileForTable_speaks _).bind fun _ _ => (heapScan_speaks _).bind fun rows _ => Ends.forM fun row _ => ?_
  exact (Ends.lift (decodeRow_wording _ _)).bind fun _ _ => (Ends.lift (orUndefined_wording _)).bind fun _ _ =>
    modifyIndex_speaks _ _

theorem executeCreateIndex_speaks {stmt : CreateIndexStatement} (wellFormed : (Statement.createIndex stmt).WellFormed) :
    Speaks (executeCreateIndex stmt) := by
  have creates : Speaks (createIndex stmt.indexName stmt.tableName stmt.columnName (executeCreateIndex.populate stmt)) :=
    Ends.get.bind fun db _ => (Ends.lift (db.catalog.createIndex_wording wellFormed.1.plain wellFormed.2.1.plain
      wellFormed.2.2.plain)).bind fun _ _ => (Ends.set trivial).bind fun _ _ => (populate_speaks wellFormed _).bind
        fun _ _ => Ends.pure trivial
  exact (requireNoActiveTransaction_speaks (by decide)).bind fun _ _ => creates.bind fun _ _ => Ends.pure trivial

section Rows

variable {db : Database} (plain : db.catalog.Plain)
include plain

theorem executeInsert_wording {stmt : InsertStatement} (isName : PlainText stmt.tableName) :
    Gives ((executeInsert stmt).exec db).1 (fun _ => True) Exception.Plain := by
  rw [executeInsert, exec_bind_ok (exec_get db)]
  cases found : db.catalog.findTable stmt.tableName with
  | none => simpa [found, noSuchTable, Gives, Exception.Plain, isName] using by decide
  | some table =>
    have onTable := plain.tables table (Catalog.findTable_eq_some.mp found).1
    have validates : Gives (validateValuesAgainstColumns table stmt.values) (fun _ => True) Exception.Plain := by
      rw [validateValuesAgainstColumns]
      split
      · simpa [Gives, Exception.Plain, onTable.name] using by decide
      · exact Gives.forM fun entry isEntry =>
          requireLiteralMatchesColumn_wording onTable (onTable.columns _ (List.of_mem_zip isEntry).1) _
    simp only [found]
    refine Ends.gives ((Ends.lift validates).bind fun _ _ => ?_) db
    refine (checkPrimaryKeyUniqueness_speaks plain onTable _).bind fun _ _ => (heapFileForTable_speaks _).bind
      fun _ _ => (heapInsert_speaks _ _).bind fun _ _ => (insertIntoAllIndexes_speaks plain onTable _ _).bind
        fun _ _ => Ends.pure trivial

theorem executeDelete_wording {stmt : DeleteStatement} (isName : PlainText stmt.tableName)
    (named : ∀ pred ∈ stmt.wherePredicates, pred.column.Plain) :
    Gives ((executeDelete stmt).exec db).1 (fun _ => True) Exception.Plain := by
  rw [executeDelete, exec_bind_ok (exec_get db)]
  refine Ends.gives ((Ends.lift (planTableAccess_wording plain isName named)).bind fun access plainAccess => ?_) db
  refine (Ends.lift (orUndefined_wording _)).bind fun table found => (heapFileForTable_speaks _).bind fun heap _ => ?_
  have onTable := plain.tables table (Catalog.findTable_eq_some.mp found).1
  refine (fetchCandidateRows_speaks plainAccess).bind fun candidates _ => Ends.bind (Ends.collect fun row _ => ?_)
    fun _ _ => Ends.pure trivial
  exact (Ends.lift (matchRow_wording onTable plainAccess.residual row)).bind fun matched _ =>
    (Ends.forM fun row _ => deleteRow_speaks plain onTable _ _).bind fun _ _ => Ends.pure trivial

theorem executeUpdate_wording {stmt : UpdateStatement} (isName : PlainText stmt.tableName)
    (assigned : ∀ assignment ∈ stmt.assignments, PlainText assignment.columnName)
    (named : ∀ pred ∈ stmt.wherePredicates, pred.column.Plain) :
    Gives ((executeUpdate stmt).exec db).1 (fun _ => True) Exception.Plain := by
  rw [executeUpdate, exec_bind_ok (exec_get db)]
  cases found : db.catalog.findTable stmt.tableName with
  | none => simpa [found, noSuchTable, Gives, Exception.Plain, isName] using by decide
  | some table =>
    have onTable := plain.tables table (Catalog.findTable_eq_some.mp found).1
    have resolves : Gives (resolveAssignments table stmt.assignments) (fun _ => True) Exception.Plain := by
      refine Gives.mono (Gives.mapM (R := fun _ => True) fun assignment isAssigned => ?_) fun _ _ => trivial
      have isPlain := assigned assignment isAssigned
      exact (requireColumn_wording onTable.name isPlain).bind fun column isColumn =>
        (requireLiteralMatchesColumn_wording onTable (onTable.columns column isColumn) _).bind fun _ _ =>
          (columnIndex_wording onTable.name isPlain).bind fun _ _ => trivial
    have updates : ∀ heap update, Speaks (updateRow db.catalog table heap update) := fun heap update =>
      (deleteRow_speaks plain onTable _ _).bind fun _ _ => (heapInsert_speaks _ _).bind fun _ _ =>
        insertIntoAllIndexes_speaks plain onTable _ _
    simp only [found]
    refine Ends.gives ((Ends.lift resolves).bind fun assignments _ => ?_) db
    refine (Ends.lift (planTableAccess_wording plain isName named)).bind fun access plainAccess => ?_
    refine (heapFileForTable_speaks _).bind fun heap _ => (fetchCandidateRows_speaks plainAccess).bind
      fun candidates _ => ?_
    refine Ends.bind (Ends.collect fun row _ => Ends.lift (matchRow_wording onTable plainAccess.residual row))
      fun matched _ => ?_
    exact (validateUpdateBatch_speaks plain onTable _).bind fun _ _ => (Ends.forM fun update _ => updates _ _).bind
      fun _ _ => Ends.pure trivial

theorem executeSelectSingleTable_wording {plan : SelectPlan} {access : TableAccessPlan}
    (selectList : ∀ column ∈ plan.selectList, PlainText column.columnName) (plainAccess : access.Plain) :
    Gives ((executeSelectSingleTable plan access).exec db).1 (fun _ => True) Exception.Plain := by
  rw [executeSelectSingleTable, exec_bind_ok (exec_get db)]
  refine Ends.gives ((Ends.lift (orUndefined_wording _)).bind fun table found => ?_) db
  have onTable := plain.tables table (Catalog.findTable_eq_some.mp found).1
  have projects : ∀ values, Gives (executeSelectSingleTable.project plan table values) (fun _ => True)
      Exception.Plain := by
    intro values
    rw [executeSelectSingleTable.project]
    split
    · trivial
    · exact (Gives.mapM fun column isColumn => projectColumn_wording onTable (selectList column isColumn) values).mono
        fun _ _ => trivial
  refine (fetchCandidateRows_speaks plainAccess).bind fun candidates _ => Ends.bind (Ends.collect fun row _ => ?_)
    fun _ _ => Ends.pure trivial
  exact Ends.lift ((matchRow_wording onTable plainAccess.residual row).bind fun matched _ =>
    (Gives.mapM fun matching _ => projects _).mono fun _ _ => trivial)

theorem executeSelectJoin_wording {plan : SelectPlan} {join : JoinPlan}
    (selectList : ∀ column ∈ plan.selectList, PlainText column.columnName) (plainJoin : join.Plain) :
    Gives ((executeSelectJoin plan join).exec db).1 (fun _ => True) Exception.Plain := by
  rw [executeSelectJoin, exec_bind_ok (exec_get db)]
  refine Ends.gives ((Ends.lift (orUndefined_wording _)).bind fun outer outerFound =>
    (Ends.lift (orUndefined_wording _)).bind fun inner innerFound => ?_) db
  have plainOuter := plain.tables outer (Catalog.findTable_eq_some.mp outerFound).1
  have plainInner := plain.tables inner (Catalog.findTable_eq_some.mp innerFound).1
  have projects : ∀ outerValues innerValues, Gives (executeSelectJoin.project plan outer inner outerValues innerValues)
      (fun _ => True) Exception.Plain := by
    intro outerValues innerValues
    rw [executeSelectJoin.project]
    split
    · trivial
    · refine Gives.mono (Gives.mapM (R := fun _ => True) fun column isColumn => ?_) fun _ _ => trivial
      rw [executeSelectJoin.projectJoined]
      split
      · exact projectColumn_wording plainOuter (selectList column isColumn) _
      · exact projectColumn_wording plainInner (selectList column isColumn) _
  have pairs : ∀ outerValues outerValue innerJoinIdx row, Gives
      (executeSelectJoin.joinPair plan join outer inner outerValues outerValue innerJoinIdx row) (fun _ => True)
      Exception.Plain := by
    intro outerValues outerValue innerJoinIdx row
    refine (decodeRow_wording _ _).bind fun innerValues _ => (orUndefined_wording _).bind fun innerValue _ => ?_
    split
    · refine (matchesAll_wording plainInner plainJoin.residual innerValues).bind fun keep _ => ?_
      split
      · exact (projects _ _).bind fun _ _ => trivial
      · trivial
    · trivial
  have fetches : ∀ outerValue heap source, Speaks (executeSelectJoin.innerCandidates outerValue heap source) := by
    intro outerValue heap source
    cases source with
    | inl index =>
      refine (indexSearch_speaks _ _).bind fun rids _ => fetchRows_speaks ?_ _ _
      show PlainText _
      decide
    | inr rows => exact Ends.pure trivial
  have sources : ∀ heap, Speaks (executeSelectJoin.innerSource join heap) := by
    intro heap
    rw [executeSelectJoin.innerSource]
    split
    · exact (indexByName_speaks _).bind fun _ _ => Ends.pure trivial
    · exact (heapScan_speaks _).bind fun _ _ => Ends.pure trivial
  refine (Ends.lift (columnIndex_wording plainOuter.name plainJoin.outerColumn)).bind fun outerJoinIdx _ => ?_
  refine (Ends.lift (columnIndex_wording plainInner.name plainJoin.innerColumn)).bind fun innerJoinIdx _ => ?_
  refine (heapFileForTable_speaks _).bind fun innerHeap _ => (sources innerHeap).bind fun innerRows _ => ?_
  refine (fetchCandidateRows_speaks plainJoin.outer).bind fun candidates _ => Ends.bind (Ends.collect fun row _ => ?_)
    fun _ _ => Ends.pure trivial
  refine (Ends.lift (matchRow_wording plainOuter plainJoin.outer.residual row)).bind fun matched _ =>
    Ends.collect fun outerRow _ => (Ends.lift (orUndefined_wording _)).bind fun outerValue _ => ?_
  exact (fetches _ _ _).bind fun innerCandidates _ => Ends.collect fun innerRow _ => Ends.lift (pairs _ _ _ _)

theorem executeSelect_wording {stmt : SelectStatement} (named : stmt.Plain) :
    Gives ((executeSelect stmt).exec db).1 (fun _ => True) Exception.Plain := by
  have plans := planSelect_wording plain named
  rw [executeSelect, exec_bind_ok (exec_get db)]
  cases planned : planSelect db.catalog stmt with
  | error e =>
    rw [planned] at plans
    rw [exec_bind_error (exec_liftM _ db)]
    exact plans
  | ok plan =>
    rw [planned] at plans
    rw [exec_bind_ok (exec_liftM _ db)]
    cases access : plan.access with
    | table access' => exact executeSelectSingleTable_wording plain plans.selectList (plans.table _ access)
    | join join => exact executeSelectJoin_wording plain plans.selectList (plans.join _ access)

end Rows

end Database

namespace SqlSession

open Database

variable {session : SqlSession}

theorem executeDdl_wording {program : DatabaseM ExecuteResult} (speaks : Speaks program) :
    Gives ((executeDdl program).exec session).1 (fun _ => True) Exception.Plain := by
  have known := speaks.gives session.db
  rw [executeDdl_exec]
  cases ran : program.exec session.db with
  | mk outcome db =>
    rw [ran] at known
    cases outcome with
    | ok result => trivial
    | error e => exact known

theorem executeAutocommit_wording {program : DatabaseM ExecuteResult}
    (known : ∀ db, db.catalog = session.db.catalog → Gives (program.exec db).1 (fun _ => True) Exception.Plain) :
    Gives ((executeAutocommit program).exec session).1 (fun _ => True) Exception.Plain := by
  cases running : session.db.currentTransaction with
  | some txnId =>
    rw [executeAutocommit, exec_bind_ok (exec_get session), running]
    exact known session.db rfl
  | none =>
    have here := known (begun session.db) rfl
    rw [executeAutocommit_exec running]
    cases ran : program.exec (begun session.db) with
    | mk outcome db =>
      rw [ran] at here
      cases outcome with
      | ok result => trivial
      | error e => exact here

theorem executeTransaction_wording (stmt : Statement) (isTransaction : stmt = .begin ∨ stmt = .commit ∨ stmt = .rollback) :
    Gives ((execute stmt).exec session).1 (fun _ => True) Exception.Plain := by
  rcases isTransaction with rfl | rfl | rfl
  · rw [execute, executeBegin, beginTransaction, bind_assoc, exec_bind_ok (exec_get session)]
    cases session.db.currentTransaction with
    | none => trivial
    | some txnId =>
      refine plain_append.mpr ⟨plain_append.mpr ⟨plain_ofList ?_, plain_ofList ?_⟩, plain_ofList ?_⟩ <;> decide
  · rw [execute, executeCommit, exec_bind_ok (exec_get session)]
    cases session.db.currentTransaction with
    | some txnId => trivial
    | none =>
      show PlainText _
      decide
  · rw [execute, executeRollback, exec_bind_ok (exec_get session)]
    cases session.db.currentTransaction with
    | some txnId => trivial
    | none =>
      show PlainText _
      decide

-- Whatever a statement throws, its message is in ASCII.
theorem execute_wording (plain : session.db.catalog.Plain) {stmt : Statement} (wellFormed : stmt.WellFormed) :
    Gives ((execute stmt).exec session).1 (fun _ => True) Exception.Plain := by
  have wherePlain : ∀ {predicates : List Predicate}, (∀ pred ∈ predicates, pred.column.WellFormed) →
      ∀ pred ∈ predicates, pred.column.Plain := fun named pred isPred => (named pred isPred).plain
  cases stmt with
  | begin => exact executeTransaction_wording _ (by simp)
  | commit => exact executeTransaction_wording _ (by simp)
  | rollback => exact executeTransaction_wording _ (by simp)
  | createTable stmt => exact executeDdl_wording (executeCreateTable_speaks wellFormed)
  | createIndex stmt => exact executeDdl_wording (executeCreateIndex_speaks wellFormed)
  | insert stmt =>
    exact executeAutocommit_wording fun db same => executeInsert_wording (same ▸ plain) wellFormed.1.plain
  | select stmt =>
    obtain ⟨-, refs, fromTable, joins, conditions⟩ := wellFormed
    have named : stmt.Plain := by
      refine ⟨fun column isColumn => (refs column isColumn).plain, fromTable.plain, fun join isJoin => ?_,
        wherePlain conditions⟩
      obtain ⟨joinTable, left, right⟩ := joins join isJoin
      exact ⟨joinTable.plain, left.plain, right.plain⟩
    exact executeAutocommit_wording fun db same => executeSelect_wording (same ▸ plain) named
  | update stmt =>
    obtain ⟨isTable, -, assigned, conditions⟩ := wellFormed
    exact executeAutocommit_wording fun db same => executeUpdate_wording (same ▸ plain) isTable.plain
      (fun assignment isAssigned => (assigned assignment isAssigned).plain) (wherePlain conditions)
  | delete stmt =>
    exact executeAutocommit_wording fun db same => executeDelete_wording (same ▸ plain) wellFormed.1.plain
      (wherePlain wellFormed.2)

end SqlSession

end Statements

end FlintDB
