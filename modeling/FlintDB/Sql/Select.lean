import FlintDB.Sql.Matching

set_option autoImplicit false

-- The naive answer takes every row, or every pair of rows, and looks at nothing but the statement and the contents of
-- the tables.

namespace FlintDB

open Lib Fallible Database

abbrev Scope := List (TableInfo × List LiteralValue)

namespace Scope

def names (table : TableInfo) (column : ColumnRef) : Bool :=
  (column.tableName = none ∨ column.tableName = some table.name) ∧
    (table.findColumn column.columnName).isSome

def lookup (scope : Scope) (column : ColumnRef) : Option LiteralValue :=
  match scope.find? fun entry => names entry.1 column with
  | some (table, values) => table.valueAt values column.columnName
  | none => none

def satisfies (scope : Scope) (pred : Predicate) : Bool :=
  match scope.lookup pred.column with
  | some value => value.satisfies pred.op pred.value
  | none => false

def project (scope : Scope) (stmt : SelectStatement) : List LiteralValue :=
  if stmt.selectStar then scope.flatMap Prod.snd else stmt.selectList.filterMap scope.lookup

end Scope

-- The rows of FROM, or the pairs of rows of FROM and JOIN that satisfy ON.
def SelectStatement.scopes (stmt : SelectStatement) (catalog : Catalog) (contents : Contents) : List Scope :=
  match catalog.findTable stmt.fromTable, stmt.join with
  | some outer, none => (contents outer.name).map fun row => [(outer, row.2)]
  | some outer, some join =>
    match catalog.findTable join.tableName with
    | some inner =>
      ((contents outer.name).flatMap fun outerRow => (contents inner.name).map fun innerRow =>
        [(outer, outerRow.2), (inner, innerRow.2)]).filter fun scope : Scope =>
          scope.lookup join.leftColumn = scope.lookup join.rightColumn
    | none => []
  | none, _ => []

def naiveSelect (catalog : Catalog) (contents : Contents) (stmt : SelectStatement) : List (List LiteralValue) :=
  ((stmt.scopes catalog contents).filter fun scope => stmt.wherePredicates.all scope.satisfies).map
    fun scope => scope.project stmt

theorem Scope.lookup_single {table : TableInfo} {column : ColumnRef}
    (inScope : column.tableName = none ∨ column.tableName = some table.name)
    (present : ∃ definition, table.findColumn column.columnName = some definition) (values : List LiteralValue) :
    Scope.lookup [(table, values)] column = table.valueAt values column.columnName := by
  obtain ⟨definition, found⟩ := present
  simp [Scope.lookup, Scope.names, inScope, found]

theorem Scope.satisfies_single {table : TableInfo} {pred : Predicate} (fits : pred.Fits table)
    (values : List LiteralValue) : Scope.satisfies [(table, values)] pred = pred.passes table values := by
  obtain ⟨column, found, -⟩ := fits.column
  rw [Scope.satisfies, Scope.lookup_single fits.inScope ⟨column, found⟩]
  rfl

def JoinSide.values (outerValues innerValues : List LiteralValue) : JoinSide → List LiteralValue
  | kOuter => outerValues
  | kInner => innerValues

theorem resolveColumnSide_ok {outer inner : TableInfo} {column : ColumnRef} {side : JoinSide}
    (resolved : resolveColumnSide outer inner column = .ok side) :
    (∃ definition, (side.table outer inner).findColumn column.columnName = some definition) ∧
      ∀ outerValues innerValues, Scope.lookup [(outer, outerValues), (inner, innerValues)] column =
        (side.table outer inner).valueAt (side.values outerValues innerValues) column.columnName := by
  rw [resolveColumnSide] at resolved
  cases qualifier : column.tableName with
  | some name =>
    rw [qualifier] at resolved
    simp only at resolved
    split at resolved
    · rename_i isOuter
      obtain ⟨definition, required, same⟩ := bind_eq_ok.mp resolved
      cases same
      have found := requireColumn_ok.mp required
      refine ⟨⟨definition, found⟩, fun outerValues innerValues => ?_⟩
      simp [Scope.lookup, Scope.names, qualifier, isOuter, found, JoinSide.table, JoinSide.values]
    · rename_i notOuter
      split at resolved
      · rename_i isInner
        obtain ⟨definition, required, same⟩ := bind_eq_ok.mp resolved
        cases same
        have found := requireColumn_ok.mp required
        refine ⟨⟨definition, found⟩, fun outerValues innerValues => ?_⟩
        rw [isInner] at notOuter
        simp [Scope.lookup, Scope.names, qualifier, notOuter, isInner, found, JoinSide.table, JoinSide.values]
      · cases resolved
  | none =>
    rw [qualifier] at resolved
    simp only at resolved
    split at resolved
    · cases resolved
    · rename_i definition inOuter notInner
      cases resolved
      refine ⟨⟨definition, inOuter⟩, fun outerValues innerValues => ?_⟩
      simp [Scope.lookup, Scope.names, qualifier, inOuter, JoinSide.table, JoinSide.values]
    · rename_i definition notOuter inInner
      cases resolved
      refine ⟨⟨definition, inInner⟩, fun outerValues innerValues => ?_⟩
      simp [Scope.lookup, Scope.names, qualifier, notOuter, inInner, JoinSide.table, JoinSide.values]
    · cases resolved

theorem mapM_project {resolve : ColumnRef → Except Exception ColumnRef}
    {project : ColumnRef → Except Exception LiteralValue} {lookup : ColumnRef → Option LiteralValue}
    {selectList resolved : List ColumnRef} (resolves : selectList.mapM resolve = .ok resolved)
    (each : ∀ column target, resolve column = .ok target →
      ∃ value, lookup column = some value ∧ project target = .ok value) :
    resolved.mapM project = .ok (selectList.filterMap lookup) := by
  rw [mapM_eq_ok]
  have related := mapM_eq_ok.mp resolves
  clear resolves
  induction related with
  | nil => exact .nil
  | @cons column target selectList resolved first _ ih =>
    obtain ⟨value, found, projected⟩ := each column target first
    rw [List.filterMap_cons_some found]
    exact .cons projected ih

theorem projectColumn_ok {table : TableInfo} {values : List LiteralValue} {column : ColumnRef}
    (row : RowOf table.columns values)
    (present : ∃ definition, table.findColumn column.columnName = some definition) :
    ∃ value, table.valueAt values column.columnName = some value ∧
      projectColumn table values column = .ok value := by
  obtain ⟨definition, found⟩ := present
  obtain ⟨idx, value, indexed, at_idx, valueAt_eq, -⟩ := row.valueAt found
  refine ⟨value, valueAt_eq, ?_⟩
  rw [projectColumn, indexed]
  simp only [bind, Except.bind, at_idx, orUndefined]

theorem flatMap_ite {α β : Type} (keep : α → Bool) (f : α → List β) (items : List α) :
    (items.flatMap fun item => if keep item then f item else []) = (items.filter keep).flatMap f := by
  induction items with
  | nil => rfl
  | cons item items ih =>
    rw [List.flatMap_cons, ih, List.filter_cons]
    split <;> simp

section SingleTable

variable {guests : Nat → PageKey → Prop} {catalog : Catalog} {objects : Nat → Option ObjectStorage}
  {contents : Contents} {stmt : SelectStatement} {table : TableInfo} {selectList : List ColumnRef}

theorem resolveSelectColumn_ok {column target : ColumnRef}
    (resolved : resolveSelectColumn table column = .ok target) :
    (column.tableName = none ∨ column.tableName = some table.name) ∧
      (∃ definition, table.findColumn column.columnName = some definition) ∧
      target.columnName = column.columnName := by
  obtain ⟨_, qualified, resolved⟩ := bind_eq_ok.mp resolved
  obtain ⟨definition, required, same⟩ := bind_eq_ok.mp resolved
  cases same
  refine ⟨?_, ⟨definition, requireColumn_ok.mp required⟩, rfl⟩
  cases qualifier : column.tableName with
  | none => exact .inl rfl
  | some name =>
    rw [qualifier, resolveSelectColumn.inScope] at qualified
    split at qualified
    · rename_i same
      exact .inr (by rw [same])
    · cases qualified

theorem project_single {access : TableAccessPlan}
    (resolved : resolveSelectList (resolveSelectColumn table) stmt = .ok selectList)
    {values : List LiteralValue} (row : RowOf table.columns values) :
    executeSelectSingleTable.project ⟨stmt.selectStar, selectList, .table access⟩ table values =
      .ok (Scope.project [(table, values)] stmt) := by
  rw [executeSelectSingleTable.project, Scope.project]
  rw [resolveSelectList] at resolved
  split
  · simp
  · rename_i listed
    rw [if_neg listed] at resolved
    apply mapM_project resolved
    intro column target resolvesTo
    obtain ⟨inScope, present, same⟩ := resolveSelectColumn_ok resolvesTo
    rw [Scope.lookup_single inScope present]
    obtain ⟨value, found, projected⟩ := projectColumn_ok row present
    refine ⟨value, found, ?_⟩
    rw [← projected, projectColumn, projectColumn, same]

theorem executeSelectSingleTable_yields (stores : Stores catalog objects contents)
    (indexes : Indexes catalog objects contents) (found : catalog.findTable stmt.fromTable = some table)
    (noJoin : stmt.join = none) {access : TableAccessPlan}
    (resolved : resolveSelectList (resolveSelectColumn table) stmt = .ok selectList)
    (planned : planTableAccess catalog stmt.fromTable stmt.wherePredicates = .ok access) :
    ∃ result, Yields (Shows guests catalog objects)
        (executeSelectSingleTable ⟨stmt.selectStar, selectList, .table access⟩ access) result ∧
      result.rows.Perm (naiveSelect catalog contents stmt) := by
  obtain ⟨table', candidates, found', accessTable, fits, fetched, delivers⟩ :=
    fetchCandidateRows_yields guests stores indexes planned
  cases found.symm.trans found'
  have member := (Catalog.findTable_eq_some.mp found).1
  have selected : ∀ row ∈ candidates, Yields (Shows guests catalog objects)
      (liftM (executeSelectSingleTable.selectRow ⟨stmt.selectStar, selectList, .table access⟩ access table
        (table.encode row)) : DatabaseM (List (List LiteralValue)))
      (if access.residualPredicates.all (·.passes table row.2) then [Scope.project [(table, row.2)] stmt]
        else []) := by
    intro row isCandidate
    have storable := stores.storable table member row (delivers.mem row isCandidate)
    apply Yields.lift
    rw [executeSelectSingleTable.selectRow, matchRow_ok storable fun pred isPred => (delivers.fits pred isPred).column]
    simp only [bind, Except.bind]
    split
    · rw [List.mapM_cons, project_single resolved storable.row]
      rfl
    · rfl
  refine ⟨{
    rows := candidates.flatMap fun row => if access.residualPredicates.all (·.passes table row.2) then
      [Scope.project [(table, row.2)] stmt] else []
    columnNames := if stmt.selectStar then columnNames table else selectList.map ColumnRef.columnName }, ?_, ?_⟩
  · apply Yields.get_bind
    intro db shows
    rw [shows.catalog_eq]
    apply Yields.bind (Yields.lift (by rw [accessTable, found]; rfl))
    apply Yields.bind fetched
    apply Yields.bind (Yields.collect_view table.encode _ selected)
    exact Yields.pure _
  · simp only [naiveSelect, SelectStatement.scopes, found, noJoin]
    rw [flatMap_ite, ← List.map_eq_flatMap, List.filter_map, List.map_map]
    refine (delivers.filtered.map _).trans (List.Perm.of_eq ?_)
    congr 1
    apply List.filter_congr
    intro row _
    rw [Function.comp_apply, Bool.eq_iff_iff, List.all_eq_true, List.all_eq_true]
    exact forall₂_congr fun pred isPred => by rw [Scope.satisfies_single (fits pred isPred)]

end SingleTable

section Join

variable {guests : Nat → PageKey → Prop} {catalog : Catalog} {objects : Nat → Option ObjectStorage}
  {contents : Contents} {stmt : SelectStatement} {outer inner : TableInfo}

theorem splitPredicates_ok {predicates onOuter onInner : List Predicate}
    (split : splitPredicates outer inner predicates = .ok (onOuter, onInner)) :
    (∀ pred ∈ onInner, ∃ column,
      inner.findColumn pred.column.columnName = some column ∧ column.type = pred.value.type) ∧
    ∀ outerValues innerValues,
      predicates.all (Scope.satisfies [(outer, outerValues), (inner, innerValues)]) =
        (onOuter.all (·.passes outer outerValues) && onInner.all (·.passes inner innerValues)) := by
  induction predicates generalizing onOuter onInner with
  | nil =>
    cases split
    simp
  | cons pred predicates ih =>
    obtain ⟨side, resolved, split⟩ := bind_eq_ok.mp split
    obtain ⟨column, required, split⟩ := bind_eq_ok.mp split
    obtain ⟨_, typed, split⟩ := bind_eq_ok.mp split
    obtain ⟨⟨restOuter, restInner⟩, splitRest, split⟩ := bind_eq_ok.mp split
    obtain ⟨fits, all⟩ := ih splitRest
    have satisfies : ∀ outerValues innerValues,
        Scope.satisfies [(outer, outerValues), (inner, innerValues)] pred =
          pred.passes (side.table outer inner) (side.values outerValues innerValues) := by
      intro outerValues innerValues
      rw [Scope.satisfies, (resolveColumnSide_ok resolved).2]
      rfl
    cases side with
    | kOuter =>
      cases split
      refine ⟨fits, fun outerValues innerValues => ?_⟩
      simp only [List.all_cons, satisfies, all, JoinSide.table, JoinSide.values, Bool.and_assoc]
    | kInner =>
      cases split
      refine ⟨List.forall_mem_cons.mpr ⟨⟨column, requireColumn_ok.mp required,
        requireLiteralMatchesColumn_ok.mp typed⟩, fits⟩, fun outerValues innerValues => ?_⟩
      simp only [List.all_cons, satisfies, all, JoinSide.table, JoinSide.values]
      ac_rfl

structure JoinColumns (outer inner : TableInfo) (join : JoinClause) (outerColumn innerColumn : String) :
    Prop where
  columns : ∃ outerDef innerDef, outer.findColumn outerColumn = some outerDef ∧
    inner.findColumn innerColumn = some innerDef ∧ outerDef.type = innerDef.type
  equality : ∀ outerValues innerValues,
    Scope.lookup [(outer, outerValues), (inner, innerValues)] join.leftColumn =
        Scope.lookup [(outer, outerValues), (inner, innerValues)] join.rightColumn ↔
      outer.valueAt outerValues outerColumn = inner.valueAt innerValues innerColumn

theorem resolveJoinColumns_ok {join : JoinClause} {outerColumn innerColumn : String}
    (resolved : resolveJoinColumns outer inner join = .ok (outerColumn, innerColumn)) :
    JoinColumns outer inner join outerColumn innerColumn := by
  obtain ⟨leftSide, left, resolved⟩ := bind_eq_ok.mp resolved
  obtain ⟨rightSide, right, resolved⟩ := bind_eq_ok.mp resolved
  have leftLookup := (resolveColumnSide_ok left).2
  have rightLookup := (resolveColumnSide_ok right).2
  split at resolved
  · cases resolved
  · rename_i different
    obtain ⟨outerDef, outerRequired, resolved⟩ := bind_eq_ok.mp resolved
    obtain ⟨innerDef, innerRequired, resolved⟩ := bind_eq_ok.mp resolved
    split at resolved
    · rename_i sameType
      cases resolved
      refine ⟨⟨outerDef, innerDef, requireColumn_ok.mp outerRequired, requireColumn_ok.mp innerRequired,
        sameType⟩, fun outerValues innerValues => ?_⟩
      rw [leftLookup, rightLookup]
      cases leftSide with
      | kOuter =>
        cases rightSide with
        | kOuter => exact absurd rfl different
        | kInner => simp [JoinSide.table, JoinSide.values]
      | kInner =>
        cases rightSide with
        | kInner => exact absurd rfl different
        | kOuter =>
          rw [eq_comm]
          simp [JoinSide.table, JoinSide.values]
    · cases resolved

theorem project_join {plan : SelectPlan} (star : plan.selectStar = stmt.selectStar)
    (resolved : resolveSelectList (planJoin.resolve outer inner) stmt = .ok plan.selectList)
    (distinct : inner.name ≠ outer.name) {outerValues innerValues : List LiteralValue}
    (outerRow : RowOf outer.columns outerValues) (innerRow : RowOf inner.columns innerValues) :
    executeSelectJoin.project plan outer inner outerValues innerValues =
      .ok (Scope.project [(outer, outerValues), (inner, innerValues)] stmt) := by
  rw [executeSelectJoin.project, Scope.project, star]
  rw [resolveSelectList] at resolved
  split
  · simp
  · rename_i listed
    rw [if_neg listed] at resolved
    apply mapM_project resolved
    intro column target resolvesTo
    obtain ⟨side, sideResolved, same⟩ := bind_eq_ok.mp resolvesTo
    cases same
    obtain ⟨present, lookup⟩ := resolveColumnSide_ok sideResolved
    rw [lookup]
    cases side with
    | kOuter =>
      obtain ⟨value, found, projected⟩ := projectColumn_ok outerRow present
      exact ⟨value, found, by simpa [executeSelectJoin.projectJoined, JoinSide.table, projectColumn] using projected⟩
    | kInner =>
      obtain ⟨value, found, projected⟩ := projectColumn_ok innerRow present
      refine ⟨value, found, ?_⟩
      simpa [executeSelectJoin.projectJoined, JoinSide.table, distinct, projectColumn] using projected

structure PlansJoin (catalog : Catalog) (outer inner : TableInfo) (clause : JoinClause) (stmt : SelectStatement)
    (plan : SelectPlan) (join : JoinPlan) : Prop where
  star : plan.selectStar = stmt.selectStar
  selectList : resolveSelectList (planJoin.resolve outer inner) stmt = .ok plan.selectList
  innerTable : join.innerTableName = inner.name
  columns : JoinColumns outer inner clause join.outerJoinColumn join.innerJoinColumn
  split : ∃ onOuter, splitPredicates outer inner stmt.wherePredicates = .ok (onOuter, join.innerResidualPredicates) ∧
    planTableAccess catalog outer.name onOuter = .ok join.outer
  method : join.innerMethod = .kSeqScan ∨ ∃ index, join.innerMethod = .kIndexScan ∧
    join.innerIndexName = index.name ∧ findIndexOnColumn catalog inner.name join.innerJoinColumn = some index

theorem planJoin_ok {clause : JoinClause} {plan : SelectPlan}
    (planned : planJoin catalog outer inner clause stmt = .ok plan) :
    ∃ join, plan.access = .join join ∧ PlansJoin catalog outer inner clause stmt plan join := by
  obtain ⟨⟨outerColumn, innerColumn⟩, columns, planned⟩ := bind_eq_ok.mp planned
  obtain ⟨⟨onOuter, onInner⟩, split, planned⟩ := bind_eq_ok.mp planned
  obtain ⟨access, accessPlanned, planned⟩ := bind_eq_ok.mp planned
  obtain ⟨selectList, selected, planned⟩ := bind_eq_ok.mp planned
  have joined := resolveJoinColumns_ok columns
  cases indexed : findIndexOnColumn catalog inner.name innerColumn with
  | some index =>
    simp only [indexed] at planned
    cases planned
    exact ⟨_, rfl, rfl, selected, rfl, joined, ⟨onOuter, split, accessPlanned⟩, .inr ⟨index, rfl, rfl, indexed⟩⟩
  | none =>
    simp only [indexed] at planned
    cases planned
    exact ⟨_, rfl, rfl, selected, rfl, joined, ⟨onOuter, split, accessPlanned⟩, .inl rfl⟩

theorem joinPair_ok {plan : SelectPlan} {join : JoinPlan} {clause : JoinClause}
    (planned : PlansJoin catalog outer inner clause stmt plan join) (distinct : inner.name ≠ outer.name)
    {outerValues : List LiteralValue} (outerRow : RowOf outer.columns outerValues) {outerValue : LiteralValue}
    (outerAt : outer.valueAt outerValues join.outerJoinColumn = some outerValue) {innerJoinIdx : Nat}
    (indexed : columnIndex inner join.innerJoinColumn = .ok innerJoinIdx)
    {row : RID × List LiteralValue} (storable : inner.Storable row.2) :
    executeSelectJoin.joinPair plan join outer inner outerValues outerValue innerJoinIdx (inner.encode row) =
      .ok (if (join.innerMethod = .kIndexScan ∨ inner.valueAt row.2 join.innerJoinColumn = some outerValue) ∧
          join.innerResidualPredicates.all (·.passes inner row.2)
        then [Scope.project [(outer, outerValues), (inner, row.2)] stmt] else []) := by
  obtain ⟨outerDef, innerDef, outerFound, innerFound, sameType⟩ := planned.columns.columns
  obtain ⟨idx, innerValue, indexed', at_idx, innerAt, innerType⟩ := storable.row.valueAt innerFound
  cases indexed.symm.trans indexed'
  obtain ⟨_, outerValue', _, _, outerAt', outerType⟩ := outerRow.valueAt outerFound
  cases outerAt.symm.trans outerAt'
  obtain ⟨onOuter, split, -⟩ := planned.split
  have equal : executeSelectJoin.onEquality join outerValue innerValue =
      decide (join.innerMethod = .kIndexScan ∨ inner.valueAt row.2 join.innerJoinColumn = some outerValue) := by
    rw [executeSelectJoin.onEquality, literalsEqual_spec (outerType.trans (sameType.trans innerType.symm)), innerAt]
    simp [eq_comm]
  rw [executeSelectJoin.joinPair, TableInfo.encode, storable.decode]
  simp only [bind, Except.bind, at_idx, orUndefined, equal, decide_eq_true_eq,
    matchesAll_ok storable.row (splitPredicates_ok split).1,
    project_join planned.star planned.selectList distinct outerRow storable.row, ite_and]
  split
  · split <;> rfl
  · rfl

variable (guests) in
theorem innerSource_yields (stores : Stores catalog objects contents) (indexes : Indexes catalog objects contents)
    {plan : SelectPlan} {join : JoinPlan} {clause : JoinClause}
    (planned : PlansJoin catalog outer inner clause stmt plan join) (member : inner ∈ catalog.tables) :
    ∃ source, Yields (Shows guests catalog objects)
        (executeSelectJoin.innerSource join inner.heapObjectId) source ∧
      ∀ outerValues outerValue, RowOf outer.columns outerValues →
        outer.valueAt outerValues join.outerJoinColumn = some outerValue →
        ∃ candidates : List (RID × List LiteralValue), Yields (Shows guests catalog objects)
            (executeSelectJoin.innerCandidates outerValue inner.heapObjectId source)
            (candidates.map inner.encode) ∧
          (∀ row ∈ candidates, row ∈ contents inner.name) ∧
          (candidates.filter fun row => join.innerMethod = .kIndexScan ∨
            inner.valueAt row.2 join.innerJoinColumn = some outerValue).Perm
          ((contents inner.name).filter fun row =>
            inner.valueAt row.2 join.innerJoinColumn = some outerValue) := by
  obtain ⟨file, heap, rows_eq⟩ := stores.heap inner member
  rcases planned.method with sequential | ⟨index, byIndex, indexName, indexed⟩
  · refine ⟨.inr ((contents inner.name).map inner.encode), ?_, fun outerValues outerValue _ _ =>
      ⟨contents inner.name, Yields.pure _, fun _ isRow => isRow, ?_⟩⟩
    · rw [executeSelectJoin.innerSource, sequential, ← rows_eq]
      apply Yields.bind (heapScan_yields heap)
      exact Yields.pure _
    · simp only [sequential, reduceCtorEq, false_or]
      exact List.Perm.refl _
  · obtain ⟨onTable, columnName⟩ := findIndexOnColumn_eq_some indexed
    obtain ⟨found, -, named, -⟩ := indexRows_yields guests stores indexes member onTable 0 .undefined
    refine ⟨.inl found.objectId, ?_, fun outerValues outerValue outerRow outerAt => ?_⟩
    · rw [executeSelectJoin.innerSource, byIndex, indexName]
      apply Yields.bind (indexByName_yields named)
      exact Yields.pure _
    · obtain ⟨found', candidates, named', fetched, perm⟩ := indexRows_yields guests stores indexes member onTable
        outerValue.key (.logicError ("ExecuteSelectJoin: index names a RID with no live row -- index and " ++
          "heap file are out of sync"))
      cases named.symm.trans named'
      refine ⟨candidates, fetched, fun row isRow => List.mem_of_mem_filter (perm.mem_iff.mp isRow), ?_⟩
      simp only [byIndex, true_or, decide_true, List.filter_true]
      refine perm.trans (List.Perm.of_eq (List.filter_congr fun row isRow => ?_))
      obtain ⟨outerDef, innerDef, outerFound, innerFound, sameType⟩ := planned.columns.columns
      obtain ⟨innerDef', innerFound', integer⟩ := Catalog.indexesOnTable_integer member onTable
      rw [columnName, innerFound] at innerFound'
      cases innerFound'
      obtain ⟨_, innerValue, _, _, innerAt, innerType⟩ :=
        (stores.storable inner member row isRow).row.valueAt innerFound
      obtain ⟨_, outerValue', _, _, outerAt', outerType⟩ := outerRow.valueAt outerFound
      cases outerAt.symm.trans outerAt'
      rw [TableInfo.keyAt, columnName, innerAt, Option.map_some, decide_eq_decide, Option.some.injEq,
        Option.some.injEq]
      exact LiteralValue.key_inj (innerType.trans integer) (outerType.trans (sameType.trans integer))

def naivePairs (contents : Contents) (stmt : SelectStatement) (outer inner : TableInfo) (join : JoinPlan)
    (outerValues : List LiteralValue) : List (List LiteralValue) :=
  ((contents inner.name).filter fun row =>
    outer.valueAt outerValues join.outerJoinColumn = inner.valueAt row.2 join.innerJoinColumn ∧
      join.innerResidualPredicates.all (·.passes inner row.2)).map
    fun row => Scope.project [(outer, outerValues), (inner, row.2)] stmt

theorem joinMatched_yields (stores : Stores catalog objects contents) {plan : SelectPlan} {join : JoinPlan}
    {clause : JoinClause} (planned : PlansJoin catalog outer inner clause stmt plan join)
    (distinct : inner.name ≠ outer.name) (member : inner ∈ catalog.tables) {outerJoinIdx innerJoinIdx : Nat}
    (outerIndexed : columnIndex outer join.outerJoinColumn = .ok outerJoinIdx)
    (innerIndexed : columnIndex inner join.innerJoinColumn = .ok innerJoinIdx)
    {source : Nat ⊕ List (RID × Bytes)} (reads : ∀ outerValues outerValue, RowOf outer.columns outerValues →
      outer.valueAt outerValues join.outerJoinColumn = some outerValue →
      ∃ candidates : List (RID × List LiteralValue), Yields (Shows guests catalog objects)
          (executeSelectJoin.innerCandidates outerValue inner.heapObjectId source)
          (candidates.map inner.encode) ∧
        (∀ row ∈ candidates, row ∈ contents inner.name) ∧
        (candidates.filter fun row => join.innerMethod = .kIndexScan ∨
          inner.valueAt row.2 join.innerJoinColumn = some outerValue).Perm
        ((contents inner.name).filter fun row => inner.valueAt row.2 join.innerJoinColumn = some outerValue))
    {outerValues : List LiteralValue} (outerRow : RowOf outer.columns outerValues) :
    ∃ rows, Yields (Shows guests catalog objects)
        (executeSelectJoin.joinMatched plan join outer inner outerJoinIdx innerJoinIdx inner.heapObjectId source
          outerValues) rows ∧
      rows.Perm (naivePairs contents stmt outer inner join outerValues) := by
  obtain ⟨outerDef, innerDef, outerFound, innerFound, sameType⟩ := planned.columns.columns
  obtain ⟨idx, outerValue, indexed, at_idx, outerAt, -⟩ := outerRow.valueAt outerFound
  cases outerIndexed.symm.trans indexed
  obtain ⟨candidates, fetched, listed, perm⟩ := reads outerValues outerValue outerRow outerAt
  have paired : ∀ row ∈ candidates, Yields (Shows guests catalog objects)
      (liftM (executeSelectJoin.joinPair plan join outer inner outerValues outerValue innerJoinIdx
        (inner.encode row)) : DatabaseM (List (List LiteralValue)))
      (if (join.innerMethod = .kIndexScan ∨ inner.valueAt row.2 join.innerJoinColumn = some outerValue) ∧
          join.innerResidualPredicates.all (·.passes inner row.2)
        then [Scope.project [(outer, outerValues), (inner, row.2)] stmt] else []) :=
    fun row isRow => Yields.lift (joinPair_ok planned distinct outerRow outerAt innerIndexed
      (stores.storable inner member row (listed row isRow)))
  refine ⟨_, Yields.bind (Yields.lift (by rw [at_idx]; rfl))
    (Yields.bind fetched (Yields.collect_view inner.encode _ paired)), ?_⟩
  have keeps := flatMap_ite (fun row : RID × List LiteralValue =>
    decide ((join.innerMethod = .kIndexScan ∨ inner.valueAt row.2 join.innerJoinColumn = some outerValue) ∧
      join.innerResidualPredicates.all (·.passes inner row.2)))
    (fun row => [Scope.project [(outer, outerValues), (inner, row.2)] stmt]) candidates
  simp only [decide_eq_true_eq] at keeps
  rw [keeps, ← List.map_eq_flatMap, naivePairs, outerAt]
  apply List.Perm.map
  have filtered := perm.filter fun row => join.innerResidualPredicates.all (·.passes inner row.2)
  rw [List.filter_filter, List.filter_filter] at filtered
  refine (List.Perm.of_eq (List.filter_congr fun row _ => ?_)).trans
    (filtered.trans (List.Perm.of_eq (List.filter_congr fun row _ => ?_)))
  · rw [Bool.eq_iff_iff]
    simp [and_comm]
  · rw [Bool.eq_iff_iff, Bool.and_eq_true, decide_eq_true_eq, decide_eq_true_eq]
    exact ⟨fun ⟨passes, equal⟩ => ⟨equal.symm, passes⟩, fun ⟨equal, passes⟩ => ⟨passes, equal.symm⟩⟩

theorem naiveSelect_join {clause : JoinClause} {plan : SelectPlan} {join : JoinPlan}
    (fromTable : catalog.findTable stmt.fromTable = some outer) (joined : stmt.join = some clause)
    (joinTable : catalog.findTable clause.tableName = some inner)
    (planned : PlansJoin catalog outer inner clause stmt plan join) {onOuter : List Predicate}
    (split : splitPredicates outer inner stmt.wherePredicates = .ok (onOuter, join.innerResidualPredicates)) :
    naiveSelect catalog contents stmt =
      ((contents outer.name).filter fun row => onOuter.all (·.passes outer row.2)).flatMap
        fun row => naivePairs contents stmt outer inner join row.2 := by
  simp only [naiveSelect, SelectStatement.scopes, fromTable, joined, joinTable]
  rw [← flatMap_ite, List.filter_filter, List.filter_flatMap, List.map_flatMap]
  apply List.flatMap_congr
  intro outerRow _
  rw [List.filter_map, List.map_map, naivePairs]
  by_cases passes : onOuter.all (·.passes outer outerRow.2) = true
  · rw [if_pos passes]
    congr 1
    apply List.filter_congr
    intro innerRow _
    rw [Function.comp_apply, (splitPredicates_ok split).2, passes, Bool.eq_iff_iff]
    simp [planned.columns.equality, and_comm]
  · rw [if_neg passes, List.map_eq_nil_iff, List.filter_eq_nil_iff]
    intro innerRow _
    rw [Function.comp_apply, (splitPredicates_ok split).2, Bool.eq_false_iff.mpr passes]
    simp

theorem executeSelectJoin_yields (stores : Stores catalog objects contents)
    (indexes : Indexes catalog objects contents) {clause : JoinClause} {plan : SelectPlan} {join : JoinPlan}
    (fromTable : catalog.findTable stmt.fromTable = some outer) (joined : stmt.join = some clause)
    (joinTable : catalog.findTable clause.tableName = some inner) (distinct : inner.name ≠ outer.name)
    (planned : PlansJoin catalog outer inner clause stmt plan join) :
    ∃ result, Yields (Shows guests catalog objects) (executeSelectJoin plan join) result ∧
      result.rows.Perm (naiveSelect catalog contents stmt) := by
  obtain ⟨outerMember, -⟩ := Catalog.findTable_eq_some.mp fromTable
  obtain ⟨innerMember, innerName⟩ := Catalog.findTable_eq_some.mp joinTable
  have outerFound := Catalog.findTable_eq_some.mpr ⟨outerMember, rfl⟩
  have innerFound := Catalog.findTable_eq_some.mpr ⟨innerMember, rfl⟩
  obtain ⟨onOuter, split, accessPlanned⟩ := planned.split
  obtain ⟨outer', candidates, found', accessTable, fits, fetched, delivers⟩ :=
    fetchCandidateRows_yields guests stores indexes accessPlanned
  cases outerFound.symm.trans found'
  obtain ⟨outerDef, innerDef, outerColumn, innerColumn, -⟩ := planned.columns.columns
  obtain ⟨outerJoinIdx, outerIndexed, -, -⟩ := columnIndex_of_findColumn outerColumn
  obtain ⟨innerJoinIdx, innerIndexed, -, -⟩ := columnIndex_of_findColumn innerColumn
  obtain ⟨source, sourced, reads⟩ := innerSource_yields guests stores indexes planned innerMember
  have storable : ∀ row ∈ candidates, outer.Storable row.2 := fun row isRow =>
    stores.storable outer outerMember row (delivers.mem row isRow)
  choose! pairs matched perm using fun (row : RID × List LiteralValue) (isRow : row ∈ candidates) =>
    joinMatched_yields stores planned distinct innerMember outerIndexed innerIndexed reads (storable row isRow).row
  have looped : ∀ row ∈ candidates, Yields (Shows guests catalog objects)
      (executeSelectJoin.joinRow plan join outer inner outerJoinIdx innerJoinIdx inner.heapObjectId source
        (outer.encode row))
      (if join.outer.residualPredicates.all (·.passes outer row.2) then pairs row else []) := by
    intro row isRow
    apply Yields.bind (Yields.lift (matchRow_ok (storable row isRow)
      fun pred isPred => (delivers.fits pred isPred).column))
    split
    · have alone : Yields (Shows guests catalog objects) (collect (fun row =>
          executeSelectJoin.joinMatched plan join outer inner outerJoinIdx innerJoinIdx inner.heapObjectId source
            row.2) [row]) ([row].flatMap pairs) :=
        Yields.collect fun other isOther => List.mem_singleton.mp isOther ▸ matched row isRow
      simpa using alone
    · exact Yields.pure []
  refine ⟨{
    rows := candidates.flatMap fun row =>
      if join.outer.residualPredicates.all (·.passes outer row.2) then pairs row else []
    columnNames := if plan.selectStar then columnNames outer ++ columnNames inner
      else plan.selectList.map ColumnRef.columnName }, ?_, ?_⟩
  · apply Yields.get_bind
    intro db shows
    rw [shows.catalog_eq]
    apply Yields.bind (Yields.lift (by rw [accessTable, outerFound]; rfl))
    apply Yields.bind (Yields.lift (by rw [planned.innerTable, innerFound]; rfl))
    apply Yields.bind (Yields.lift outerIndexed)
    apply Yields.bind (Yields.lift innerIndexed)
    rw [planned.innerTable]
    apply Yields.bind (heapFileForTable_yields innerFound)
    apply Yields.bind sourced
    apply Yields.bind fetched
    apply Yields.bind (Yields.collect_view outer.encode _ looped)
    exact Yields.pure _
  · rw [flatMap_ite, naiveSelect_join fromTable joined joinTable planned split]
    refine List.Perm.flatMap delivers.filtered fun row isRow => perm row (List.mem_of_mem_filter isRow)

end Join

/-- Whatever access paths it is planned with, a SELECT that is accepted returns the naive answer. -/
theorem executeSelect_eq_naive (db : Database) (contents : Contents)
    (stores : Stores db.catalog db.objects contents) (indexes : Indexes db.catalog db.objects contents)
    (undisturbed : db.Undisturbed fun _ _ => True) (stmt : SelectStatement) (plan : SelectPlan)
    (accepted : planSelect db.catalog stmt = .ok plan) :
    ∃ result db', (executeSelect stmt).exec db = (.ok result, db') ∧ db'.objects = db.objects ∧
      result.rows.Perm (naiveSelect db.catalog contents stmt) := by
  have answered : ∃ result, Yields (Shows (fun _ _ => True) db.catalog db.objects) (executeSelect stmt) result ∧
      result.rows.Perm (naiveSelect db.catalog contents stmt) := by
    have enter : ∀ {result}, (∀ access, plan.access = .table access →
          Yields (Shows (fun _ _ => True) db.catalog db.objects) (executeSelectSingleTable plan access) result) →
        (∀ join, plan.access = .join join →
          Yields (Shows (fun _ _ => True) db.catalog db.objects) (executeSelectJoin plan join) result) →
        Yields (Shows (fun _ _ => True) db.catalog db.objects) (executeSelect stmt) result := by
      intro result single join
      apply Yields.get_bind
      intro s shows
      rw [shows.catalog_eq]
      apply Yields.bind (Yields.lift accepted)
      split
      · exact single _ (by assumption)
      · exact join _ (by assumption)
    rw [planSelect] at accepted
    split at accepted
    · cases accepted
    · rename_i outer fromTable
      split at accepted
      · rename_i noJoin
        obtain ⟨selectList, resolved, planned⟩ := bind_eq_ok.mp accepted
        obtain ⟨access, accessPlanned, same⟩ := bind_eq_ok.mp planned
        cases same
        obtain ⟨result, yields, perm⟩ :=
          executeSelectSingleTable_yields stores indexes fromTable noJoin resolved accessPlanned
        exact ⟨result, enter (by rintro _ ⟨⟩; exact yields) (by rintro _ ⟨⟩), perm⟩
      · rename_i clause joined
        split at accepted
        · cases accepted
        · rename_i inner joinTable
          split at accepted
          · cases accepted
          · rename_i distinct
            obtain ⟨join, access_eq, planned⟩ := planJoin_ok accepted
            obtain ⟨result, yields, perm⟩ :=
              executeSelectJoin_yields stores indexes fromTable joined joinTable distinct planned
            refine ⟨result, enter (fun _ isTable => ?_) (fun other isJoin => ?_), perm⟩
            · cases access_eq.symm.trans isTable
            · cases access_eq.symm.trans isJoin
              exact yields
  obtain ⟨result, yields, perm⟩ := answered
  obtain ⟨db', done, shows⟩ := yields db ⟨undisturbed, rfl, rfl⟩
  exact ⟨result, db', done, shows.objects_eq, perm⟩

theorem noIndex_integer : ∀ index ∈ ([] : List IndexInfo), index.OverInteger [] := by simp

theorem noObject_lt : ∀ id ∈ ([] : List TableInfo).map TableInfo.heapObjectId ++
    ([] : List IndexInfo).map IndexInfo.objectId, id < 0 := by simp

-- What Catalog finds in an empty directory.
def emptyCatalog : Catalog := ⟨[], [], 0, List.nodup_nil, noIndex_integer, List.nodup_nil, noObject_lt⟩

theorem emptyCatalog_fresh : "t" ∉ emptyCatalog.tables.map TableInfo.name := List.not_mem_nil

theorem oneColumn_ne : [ColumnDef.mk "a" .kInteger] ≠ [] := List.cons_ne_nil _ _

theorem oneColumn_nodup : ([ColumnDef.mk "a" .kInteger].map ColumnDef.name).Nodup := List.nodup_singleton _

def keyedCatalog : Catalog :=
  (Catalog.pushTable emptyCatalog "t" [⟨"a", .kInteger⟩] (some "a") emptyCatalog_fresh oneColumn_ne
    oneColumn_nodup).pushIndex "t.a#pk" "t" "a" true ⟨_, List.mem_singleton_self _, rfl, _, rfl, rfl⟩

def keyedDatabase : Database where
  catalog := keyedCatalog
  objects
    | 0 => some (.heap ⟨[0], fun _ => ⟨[{ record := appendInt64 7 }], 20, 4088⟩, 1⟩)
    | 1 => some (.index ⟨fun _ => some (.leaf { pageId := 1, entries := [(7, ⟨0, 0⟩)] }), 1, 2⟩)
    | _ => none
  currentTransaction := some 1

def selectSeven : SelectStatement where
  selectStar := true
  fromTable := "t"
  wherePredicates := [⟨⟨none, "a"⟩, .kEq, .integer 7⟩]

theorem executeSelect_eq_naive_by_index : ∃ result db',
    (executeSelect selectSeven).exec keyedDatabase = (.ok result, db') ∧ result.rows = [[.integer 7]] := by
  obtain ⟨result, db', done, -, perm⟩ := executeSelect_eq_naive keyedDatabase (fun _ => [(⟨0, 0⟩, [.integer 7])])
    ⟨by
      intro table member
      cases List.mem_singleton.mp member
      exact ⟨_, rfl, rfl⟩, by
      intro table member row isRow
      cases List.mem_singleton.mp member
      cases List.mem_singleton.mp isRow
      exact ⟨.cons rfl .nil, by decide⟩⟩
    (by
      intro table member index onTable
      cases List.mem_singleton.mp member
      cases List.mem_singleton.mp onTable
      refine ⟨_, _, rfl, rfl, fun key => ⟨_, rfl, List.Perm.of_eq ?_⟩⟩
      have seven : (LiteralValue.integer 7).key = 7 := by decide
      by_cases same : (7 : Int) = key <;>
        simp [TableInfo.keyAt, TableInfo.valueAt, seven, same])
    ⟨rfl, LockManager.consistent_empty, by simp [LockManager.HoldsExclusive, keyedDatabase], by simp⟩
    selectSeven _ rfl
  exact ⟨result, db', done, List.perm_singleton.mp (perm.trans (List.Perm.of_eq (by decide)))⟩

end FlintDB
