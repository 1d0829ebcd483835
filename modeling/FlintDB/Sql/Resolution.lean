import FlintDB.Sql.Mutations

set_option autoImplicit false

-- When a query means something, said without the planner: which tables it is about, which column of them each of its
-- names stands for, and what is compared with what.

namespace FlintDB

open Lib Fallible

-- The name stands for this column: the table is the only one of the query in which it names a column.
structure ColumnRef.Means (column : ColumnRef) (tables : List TableInfo) (table : TableInfo) (definition : ColumnDef) :
    Prop where
  only : tables.filter (Scope.names · column) = [table]
  found : table.findColumn column.columnName = some definition

-- The tables of FROM and JOIN, in this order; a query that names one table twice has none.
inductive SelectStatement.Reads (catalog : Catalog) (stmt : SelectStatement) : List TableInfo → Prop
  | single {table : TableInfo} (fromTable : catalog.findTable stmt.fromTable = some table) (alone : stmt.join = none) :
      Reads catalog stmt [table]
  | joined {outer inner : TableInfo} {join : JoinClause} (fromTable : catalog.findTable stmt.fromTable = some outer)
      (isJoin : stmt.join = some join) (joinTable : catalog.findTable join.tableName = some inner)
      (distinct : inner.name ≠ outer.name) : Reads catalog stmt [outer, inner]

/-- Every name stands for a column, ON compares columns of different tables and of one type, and a column of WHERE is
compared with a literal of its type. -/
structure SelectStatement.WellFormed (tables : List TableInfo) (stmt : SelectStatement) : Prop where
  selected : stmt.selectStar = false → ∀ column ∈ stmt.selectList, ∃ table definition, column.Means tables table definition
  compared : ∀ pred ∈ stmt.wherePredicates, ∃ table definition,
    pred.column.Means tables table definition ∧ definition.type = pred.value.type
  joined : ∀ join, stmt.join = some join → ∃ left leftDefinition right rightDefinition,
    join.leftColumn.Means tables left leftDefinition ∧ join.rightColumn.Means tables right rightDefinition ∧
      left ≠ right ∧ leftDefinition.type = rightDefinition.type

def SelectStatement.Meaningful (catalog : Catalog) (stmt : SelectStatement) : Prop :=
  ∃ tables, stmt.Reads catalog tables ∧ stmt.WellFormed tables

/-- What is wrong is told as an SqlSemanticError. -/
def Exception.IsSemantic (e : Exception) : Prop := ∃ message, e = .sqlSemanticError message

section Single

variable {table : TableInfo}

theorem ColumnRef.means_single {column : ColumnRef} {definition : ColumnDef} :
    (∃ other, column.Means [table] other definition) ↔
      (column.tableName = none ∨ column.tableName = some table.name) ∧
        table.findColumn column.columnName = some definition := by
  constructor
  · rintro ⟨other, only, found⟩
    have isNamed : Scope.names table column = true ∧ [table] = [other] := by
      rw [List.filter_singleton] at only
      cases named : Scope.names table column with
      | false => simp [named] at only
      | true => simpa [named] using only
    obtain ⟨named, same⟩ := isNamed
    cases same
    exact ⟨(of_decide_eq_true named).1, found⟩
  · rintro ⟨inScope, found⟩
    have named : Scope.names table column = true := decide_eq_true ⟨inScope, by simp [found]⟩
    exact ⟨table, by simp [named], found⟩

theorem resolveSelectColumn_means {column : ColumnRef} :
    (∃ target, resolveSelectColumn table column = .ok target) ↔
      ∃ other definition, column.Means [table] other definition := by
  rw [exists_comm]
  simp only [ColumnRef.means_single, exists_and_left]
  constructor
  · rintro ⟨target, resolved⟩
    obtain ⟨_, inScope, resolved⟩ := bind_eq_ok.mp resolved
    obtain ⟨definition, required, -⟩ := bind_eq_ok.mp resolved
    refine ⟨?_, definition, requireColumn_ok.mp required⟩
    cases qualified : column.tableName with
    | none => exact .inl rfl
    | some name =>
      rw [qualified, resolveSelectColumn.inScope] at inScope
      by_cases here : name = table.name
      · exact .inr (congrArg some here)
      · rw [if_neg here] at inScope
        cases inScope
  · rintro ⟨inScope, definition, found⟩
    have qualified : resolveSelectColumn.inScope table column.tableName = .ok () := by
      rcases inScope with unqualified | here
      · rw [unqualified, resolveSelectColumn.inScope]
      · rw [here, resolveSelectColumn.inScope, if_pos rfl]
    rw [resolveSelectColumn, qualified, requireColumn_ok.mpr found]
    exact ⟨_, rfl⟩

theorem Predicate.fits_iff_means {pred : Predicate} : pred.Fits table ↔
    ∃ other definition, pred.column.Means [table] other definition ∧ definition.type = pred.value.type := by
  rw [exists_comm]
  simp only [exists_and_right, ColumnRef.means_single]
  constructor
  · rintro ⟨inScope, definition, found, typed⟩
    exact ⟨definition, ⟨inScope, found⟩, typed⟩
  · rintro ⟨definition, ⟨inScope, found⟩, typed⟩
    exact ⟨inScope, definition, found, typed⟩

end Single

section Joined

variable {outer inner : TableInfo}

theorem ColumnRef.Means.exists_side {column : ColumnRef} {table : TableInfo} {definition : ColumnDef}
    (means : column.Means [outer, inner] table definition) : ∃ side : JoinSide, side.table outer inner = table := by
  have isNamed : table ∈ [outer, inner].filter (Scope.names · column) := by
    rw [means.only]
    exact List.mem_singleton_self table
  rcases List.mem_pair.mp (List.mem_of_mem_filter isNamed) with rfl | rfl
  · exact ⟨.kOuter, rfl⟩
  · exact ⟨.kInner, rfl⟩

theorem JoinSide.table_injective (distinct : inner.name ≠ outer.name) {first second : JoinSide}
    (same : first.table outer inner = second.table outer inner) : first = second := by
  cases first with
  | kOuter =>
    cases second with
    | kOuter => rfl
    | kInner => exact absurd (congrArg TableInfo.name same).symm distinct
  | kInner =>
    cases second with
    | kOuter => exact absurd (congrArg TableInfo.name same) distinct
    | kInner => rfl

theorem resolveColumnSide_means (distinct : inner.name ≠ outer.name) {column : ColumnRef} {side : JoinSide} :
    resolveColumnSide outer inner column = .ok side ↔
      ∃ definition, column.Means [outer, inner] (side.table outer inner) definition := by
  have different : outer ≠ inner := fun same => distinct (congrArg TableInfo.name same).symm
  have means : ∀ definition, column.Means [outer, inner] (side.table outer inner) definition ↔
      (side.table outer inner).findColumn column.columnName = some definition ∧
        (Scope.names outer column = decide (side = .kOuter) ∧ Scope.names inner column = decide (side = .kInner)) := by
    intro definition
    rw [and_comm]
    refine ⟨fun ⟨only, found⟩ => ⟨?_, found⟩, fun ⟨sides, found⟩ => ⟨?_, found⟩⟩
    · cases side <;> cases inOuter : Scope.names outer column <;> cases inInner : Scope.names inner column <;>
        simp_all [JoinSide.table, List.filter]
    · cases side <;> simp_all [JoinSide.table, List.filter]
  simp only [means, resolveColumnSide]
  cases qualified : column.tableName with
  | some name =>
    by_cases isOuter : name = outer.name
    · subst isOuter
      have notInner : outer.name ≠ inner.name := fun same => distinct same.symm
      cases found : outer.findColumn column.columnName <;> cases side <;>
        simp [Scope.names, qualified, notInner, requireColumn, found, JoinSide.table, bind, Except.bind, pure, Except.pure]
    · by_cases isInner : name = inner.name
      · subst isInner
        cases found : inner.findColumn column.columnName <;> cases side <;>
          simp [Scope.names, qualified, distinct, requireColumn, found, JoinSide.table, bind, Except.bind, pure, Except.pure]
      · cases side <;> simp [Scope.names, qualified, isOuter, isInner]
  | none =>
    cases inOuter : outer.findColumn column.columnName <;> cases inInner : inner.findColumn column.columnName <;>
      cases side <;> simp [Scope.names, qualified, inOuter, inInner, JoinSide.table]

theorem splitPredicates_means (distinct : inner.name ≠ outer.name) {predicates : List Predicate} :
    (∃ parts, splitPredicates outer inner predicates = .ok parts) ↔ ∀ pred ∈ predicates, ∃ table definition,
      pred.column.Means [outer, inner] table definition ∧ definition.type = pred.value.type := by
  induction predicates with
  | nil => exact ⟨fun _ pred isPred => (List.not_mem_nil isPred).elim, fun _ => ⟨_, rfl⟩⟩
  | cons pred predicates ih =>
    rw [List.forall_mem_cons, ← ih]
    constructor
    · rintro ⟨parts, split⟩
      obtain ⟨side, resolved, split⟩ := bind_eq_ok.mp split
      obtain ⟨definition, required, split⟩ := bind_eq_ok.mp split
      obtain ⟨_, typed, split⟩ := bind_eq_ok.mp split
      obtain ⟨rest, splitRest, -⟩ := bind_eq_ok.mp split
      obtain ⟨definition', means⟩ := (resolveColumnSide_means distinct).mp resolved
      cases (requireColumn_ok.mp required).symm.trans means.found
      exact ⟨⟨_, definition, means, requireLiteralMatchesColumn_ok.mp typed⟩, rest, splitRest⟩
    · rintro ⟨⟨table, definition, means, typed⟩, rest, splitRest⟩
      obtain ⟨side, rfl⟩ := means.exists_side
      have resolved := (resolveColumnSide_means distinct).mpr ⟨definition, means⟩
      have required := requireColumn_ok.mpr means.found
      have matching : requireLiteralMatchesColumn (side.table outer inner) definition pred.value = .ok () :=
        requireLiteralMatchesColumn_ok.mpr typed
      rw [splitPredicates, resolved]
      simp only [bind, Except.bind, required, matching, splitRest]
      cases side <;> exact ⟨_, rfl⟩

theorem splitPredicates_fit (distinct : inner.name ≠ outer.name) {predicates onOuter onInner : List Predicate}
    (split : splitPredicates outer inner predicates = .ok (onOuter, onInner)) : ∀ pred ∈ onOuter, pred.Fits outer := by
  induction predicates generalizing onOuter onInner with
  | nil =>
    cases split
    exact fun _ isPred => (List.not_mem_nil isPred).elim
  | cons pred predicates ih =>
    obtain ⟨side, resolved, split⟩ := bind_eq_ok.mp split
    obtain ⟨definition, required, split⟩ := bind_eq_ok.mp split
    obtain ⟨_, typed, split⟩ := bind_eq_ok.mp split
    obtain ⟨⟨restOuter, restInner⟩, splitRest, split⟩ := bind_eq_ok.mp split
    cases side with
    | kOuter =>
      cases split
      obtain ⟨_, means⟩ := (resolveColumnSide_means distinct).mp resolved
      have isNamed : outer ∈ [outer, inner].filter (Scope.names · pred.column) := by
        rw [means.only]
        exact List.mem_singleton_self outer
      have inScope := (of_decide_eq_true (List.mem_filter.mp isNamed).2).1
      exact List.forall_mem_cons.mpr ⟨⟨inScope, definition, requireColumn_ok.mp required,
        requireLiteralMatchesColumn_ok.mp typed⟩, ih splitRest⟩
    | kInner =>
      cases split
      exact ih splitRest

theorem resolveJoinColumns_means (distinct : inner.name ≠ outer.name) {join : JoinClause} :
    (∃ columns, resolveJoinColumns outer inner join = .ok columns) ↔
      ∃ left leftDefinition right rightDefinition, join.leftColumn.Means [outer, inner] left leftDefinition ∧
        join.rightColumn.Means [outer, inner] right rightDefinition ∧ left ≠ right ∧
          leftDefinition.type = rightDefinition.type := by
  constructor
  · rintro ⟨columns, resolved⟩
    obtain ⟨leftSide, left, resolved⟩ := bind_eq_ok.mp resolved
    obtain ⟨rightSide, right, resolved⟩ := bind_eq_ok.mp resolved
    obtain ⟨leftDefinition, leftMeans⟩ := (resolveColumnSide_means distinct).mp left
    obtain ⟨rightDefinition, rightMeans⟩ := (resolveColumnSide_means distinct).mp right
    split at resolved
    · cases resolved
    · rename_i different
      obtain ⟨outerDefinition, outerRequired, resolved⟩ := bind_eq_ok.mp resolved
      obtain ⟨innerDefinition, innerRequired, resolved⟩ := bind_eq_ok.mp resolved
      split at resolved
      · rename_i sameType
        refine ⟨_, leftDefinition, _, rightDefinition, leftMeans, rightMeans,
          fun same => different (JoinSide.table_injective distinct same), ?_⟩
        have leftFound := leftMeans.found
        have rightFound := rightMeans.found
        cases leftSide with
        | kOuter =>
          cases rightSide with
          | kOuter => exact absurd rfl different
          | kInner =>
            cases (requireColumn_ok.mp outerRequired).symm.trans leftFound
            cases (requireColumn_ok.mp innerRequired).symm.trans rightFound
            exact sameType
        | kInner =>
          cases rightSide with
          | kInner => exact absurd rfl different
          | kOuter =>
            cases (requireColumn_ok.mp outerRequired).symm.trans rightFound
            cases (requireColumn_ok.mp innerRequired).symm.trans leftFound
            exact sameType.symm
      · cases resolved
  · rintro ⟨left, leftDefinition, right, rightDefinition, leftMeans, rightMeans, different, sameType⟩
    obtain ⟨leftSide, rfl⟩ := leftMeans.exists_side
    obtain ⟨rightSide, rfl⟩ := rightMeans.exists_side
    have left := (resolveColumnSide_means distinct).mpr ⟨leftDefinition, leftMeans⟩
    have right := (resolveColumnSide_means distinct).mpr ⟨rightDefinition, rightMeans⟩
    have leftRequired := requireColumn_ok.mpr leftMeans.found
    have rightRequired := requireColumn_ok.mpr rightMeans.found
    rw [resolveJoinColumns, left]
    simp only [bind, Except.bind, right]
    cases leftSide with
    | kOuter =>
      cases rightSide with
      | kOuter => exact absurd rfl different
      | kInner =>
        simp only [JoinSide.table] at leftRequired rightRequired
        simp [leftRequired, rightRequired, sameType]
    | kInner =>
      cases rightSide with
      | kInner => exact absurd rfl different
      | kOuter =>
        simp only [JoinSide.table] at leftRequired rightRequired
        simp [leftRequired, rightRequired, sameType]

theorem resolve_means (distinct : inner.name ≠ outer.name) {column : ColumnRef} :
    (∃ target, planJoin.resolve outer inner column = .ok target) ↔
      ∃ table definition, column.Means [outer, inner] table definition := by
  constructor
  · rintro ⟨target, resolved⟩
    obtain ⟨side, resolved, -⟩ := bind_eq_ok.mp resolved
    exact ⟨_, (resolveColumnSide_means distinct).mp resolved⟩
  · rintro ⟨table, definition, means⟩
    obtain ⟨side, rfl⟩ := means.exists_side
    rw [planJoin.resolve, (resolveColumnSide_means distinct).mpr ⟨definition, means⟩]
    exact ⟨_, rfl⟩

end Joined

theorem resolveSelectList_accepts {resolve : ColumnRef → Except Exception ColumnRef} {stmt : SelectStatement} :
    (∃ selectList, resolveSelectList resolve stmt = .ok selectList) ↔
      (stmt.selectStar = false → ∀ column ∈ stmt.selectList, ∃ target, resolve column = .ok target) := by
  rw [resolveSelectList]
  cases stmt.selectStar with
  | true => simp
  | false => simpa using exists_mapM_eq_ok

theorem planSingle_accepts {catalog : Catalog} {stmt : SelectStatement} {table : TableInfo}
    (found : catalog.findTable stmt.fromTable = some table) (alone : stmt.join = none) :
    (∃ plan, planSelect catalog stmt = .ok plan) ↔ stmt.WellFormed [table] := by
  have plans : (∃ plan, planSelect catalog stmt = .ok plan) ↔
      (∃ selectList, resolveSelectList (resolveSelectColumn table) stmt = .ok selectList) ∧
        ∃ access, planTableAccess catalog stmt.fromTable stmt.wherePredicates = .ok access := by
    rw [planSelect, found, alone]
    simp only [bind_eq_ok]
    constructor
    · rintro ⟨plan, selectList, selected, access, planned, -⟩
      exact ⟨⟨selectList, selected⟩, access, planned⟩
    · rintro ⟨⟨selectList, selected⟩, access, planned⟩
      exact ⟨_, selectList, selected, access, planned, rfl⟩
  rw [plans, resolveSelectList_accepts, planTableAccess_fits found]
  simp only [resolveSelectColumn_means, Predicate.fits_iff_means]
  constructor
  · rintro ⟨selected, compared⟩
    refine ⟨selected, compared, fun join isJoin => ?_⟩
    cases alone.symm.trans isJoin
  · exact fun wellFormed => ⟨wellFormed.selected, wellFormed.compared⟩

theorem planJoin_accepts {catalog : Catalog} {outer inner : TableInfo} (isTable : outer ∈ catalog.tables)
    (distinct : inner.name ≠ outer.name) {join : JoinClause} {stmt : SelectStatement} (isJoin : stmt.join = some join) :
    (∃ plan, planJoin catalog outer inner join stmt = .ok plan) ↔ stmt.WellFormed [outer, inner] := by
  have found : catalog.findTable outer.name = some outer := Catalog.findTable_eq_some.mpr ⟨isTable, rfl⟩
  constructor
  · rintro ⟨plan, planned⟩
    obtain ⟨columns, resolved, planned⟩ := bind_eq_ok.mp planned
    obtain ⟨parts, split, planned⟩ := bind_eq_ok.mp planned
    obtain ⟨access, -, planned⟩ := bind_eq_ok.mp planned
    obtain ⟨selectList, selected, -⟩ := bind_eq_ok.mp planned
    refine ⟨fun listed column isColumn => ?_, (splitPredicates_means distinct).mp ⟨parts, split⟩, ?_⟩
    · exact (resolve_means distinct).mp (resolveSelectList_accepts.mp ⟨selectList, selected⟩ listed column isColumn)
    · rintro other same
      cases isJoin.symm.trans same
      exact (resolveJoinColumns_means distinct).mp ⟨columns, resolved⟩
  · intro wellFormed
    obtain ⟨columns, resolved⟩ := (resolveJoinColumns_means distinct).mpr (wellFormed.joined join isJoin)
    obtain ⟨⟨onOuter, onInner⟩, split⟩ := (splitPredicates_means distinct).mpr wellFormed.compared
    obtain ⟨access, planned⟩ := (planTableAccess_fits found).mpr (splitPredicates_fit distinct split)
    obtain ⟨selectList, selected⟩ := resolveSelectList_accepts.mpr fun listed column isColumn =>
      (resolve_means distinct).mpr (wellFormed.selected listed column isColumn)
    rw [planJoin, resolved]
    simp only [bind, Except.bind, split, planned, selected]
    cases findIndexOnColumn catalog inner.name columns.2 <;> exact ⟨_, rfl⟩

section Errors

theorem requireColumn_semantic (table : TableInfo) (columnName : String) :
    Throws Exception.IsSemantic (requireColumn table columnName) := by
  rw [requireColumn]
  split
  · exact .ok _
  · exact .error ⟨_, rfl⟩

theorem requireLiteralMatchesColumn_semantic (table : TableInfo) (column : ColumnDef) (value : LiteralValue) :
    Throws Exception.IsSemantic (requireLiteralMatchesColumn table column value) := by
  rw [requireLiteralMatchesColumn]
  split
  · exact .ok _
  · exact .error ⟨_, rfl⟩

theorem resolveColumnSide_semantic (outer inner : TableInfo) (column : ColumnRef) :
    Throws Exception.IsSemantic (resolveColumnSide outer inner column) := by
  rw [resolveColumnSide]
  split
  · split
    · exact .bind (requireColumn_semantic _ _) fun _ => .ok _
    · split
      · exact .bind (requireColumn_semantic _ _) fun _ => .ok _
      · exact .error ⟨_, rfl⟩
  · split
    · exact .error ⟨_, rfl⟩
    · exact .ok _
    · exact .ok _
    · exact .error ⟨_, rfl⟩

theorem validatePredicateAgainstTable_semantic (table : TableInfo) (pred : Predicate) :
    Throws Exception.IsSemantic (validatePredicateAgainstTable table pred) := by
  have inScope : Throws Exception.IsSemantic (validatePredicateAgainstTable.inScope table pred.column.tableName) := by
    rw [validatePredicateAgainstTable.inScope.eq_def]
    split
    · exact .ok _
    · split
      · exact .ok _
      · exact .error ⟨_, rfl⟩
  exact .bind inScope fun _ => .bind (requireColumn_semantic _ _) fun _ => requireLiteralMatchesColumn_semantic _ _ _

theorem planTableAccess_semantic (catalog : Catalog) (tableName : String) (predicates : List Predicate) :
    Throws Exception.IsSemantic (planTableAccess catalog tableName predicates) := by
  rw [planTableAccess]
  split
  · exact .error ⟨_, rfl⟩
  · refine .bind (.forM (validatePredicateAgainstTable_semantic _) _) fun _ => ?_
    split <;> exact .ok _

theorem resolveSelectList_semantic {resolve : ColumnRef → Except Exception ColumnRef}
    (each : ∀ column, Throws Exception.IsSemantic (resolve column)) (stmt : SelectStatement) :
    Throws Exception.IsSemantic (resolveSelectList resolve stmt) := by
  rw [resolveSelectList]
  split
  · exact .ok _
  · exact .mapM each _

theorem resolveSelectColumn_semantic (table : TableInfo) (column : ColumnRef) :
    Throws Exception.IsSemantic (resolveSelectColumn table column) := by
  have inScope : Throws Exception.IsSemantic (resolveSelectColumn.inScope table column.tableName) := by
    rw [resolveSelectColumn.inScope.eq_def]
    split
    · exact .ok _
    · split
      · exact .ok _
      · exact .error ⟨_, rfl⟩
  exact .bind inScope fun _ => .bind (requireColumn_semantic _ _) fun _ => .ok _

theorem splitPredicates_semantic (outer inner : TableInfo) (predicates : List Predicate) :
    Throws Exception.IsSemantic (splitPredicates outer inner predicates) := by
  induction predicates with
  | nil => exact .ok _
  | cons pred predicates ih =>
    refine .bind (resolveColumnSide_semantic _ _ _) fun side => .bind (requireColumn_semantic _ _) fun _ =>
      .bind (requireLiteralMatchesColumn_semantic _ _ _) fun _ => .bind ih fun _ => ?_
    cases side <;> exact .ok _

theorem resolveJoinColumns_semantic (outer inner : TableInfo) (join : JoinClause) :
    Throws Exception.IsSemantic (resolveJoinColumns outer inner join) := by
  refine .bind (resolveColumnSide_semantic _ _ _) fun _ => .bind (resolveColumnSide_semantic _ _ _) fun _ => ?_
  split
  · exact .error ⟨_, rfl⟩
  · refine .bind (requireColumn_semantic _ _) fun _ => .bind (requireColumn_semantic _ _) fun _ => ?_
    split
    · exact .ok _
    · exact .error ⟨_, rfl⟩

theorem planJoin_semantic (catalog : Catalog) (outer inner : TableInfo) (join : JoinClause) (stmt : SelectStatement) :
    Throws Exception.IsSemantic (planJoin catalog outer inner join stmt) := by
  have resolves : ∀ column, Throws Exception.IsSemantic (planJoin.resolve outer inner column) := fun column =>
    .bind (resolveColumnSide_semantic _ _ _) fun _ => .ok _
  refine .bind (resolveJoinColumns_semantic _ _ _) fun columns => .bind (splitPredicates_semantic _ _ _) fun _ =>
    .bind (planTableAccess_semantic _ _ _) fun _ => .bind (resolveSelectList_semantic resolves stmt) fun _ => ?_
  cases findIndexOnColumn catalog inner.name columns.2 <;> exact .ok _

end Errors

theorem planSelect_meaningful {catalog : Catalog} {stmt : SelectStatement} :
    (∃ plan, planSelect catalog stmt = .ok plan) ↔ stmt.Meaningful catalog := by
  constructor
  · rintro ⟨plan, planned⟩
    have accepted := planned
    rw [planSelect] at planned
    split at planned
    · cases planned
    · rename_i fromTable found
      split at planned
      · rename_i alone
        exact ⟨[fromTable], .single found alone, (planSingle_accepts found alone).mp ⟨plan, accepted⟩⟩
      · rename_i join isJoin
        split at planned
        · cases planned
        · rename_i innerTable joinTable
          split at planned
          · cases planned
          · rename_i distinct
            have isTable := (Catalog.findTable_eq_some.mp found).1
            exact ⟨[fromTable, innerTable], .joined found isJoin joinTable distinct,
              (planJoin_accepts isTable distinct isJoin).mp ⟨plan, planned⟩⟩
  · rintro ⟨tables, reads, wellFormed⟩
    cases reads with
    | single fromTable alone => exact (planSingle_accepts fromTable alone).mpr wellFormed
    | joined fromTable isJoin joinTable distinct =>
      have isTable := (Catalog.findTable_eq_some.mp fromTable).1
      obtain ⟨plan, planned⟩ := (planJoin_accepts isTable distinct isJoin).mpr wellFormed
      refine ⟨plan, ?_⟩
      simp only [planSelect, fromTable, isJoin, joinTable, if_neg distinct, planned]

theorem planSelect_semantic (catalog : Catalog) (stmt : SelectStatement) :
    Throws Exception.IsSemantic (planSelect catalog stmt) := by
  rw [planSelect]
  split
  · exact .error ⟨_, rfl⟩
  · split
    · exact .bind (resolveSelectList_semantic (resolveSelectColumn_semantic _) stmt) fun _ =>
        .bind (planTableAccess_semantic _ _ _) fun _ => .ok _
    · split
      · exact .error ⟨_, rfl⟩
      · split
        · exact .error ⟨_, rfl⟩
        · exact planJoin_semantic _ _ _ _ _

/-- PlanSelect accepts the queries that mean something, all of them and no others, and tells of the rest by an
SqlSemanticError. -/
theorem planSelect_accepts (catalog : Catalog) (stmt : SelectStatement) :
    ((∃ plan, planSelect catalog stmt = .ok plan) ↔ stmt.Meaningful catalog) ∧
      ∀ e, planSelect catalog stmt = .error e → e.IsSemantic :=
  ⟨planSelect_meaningful, planSelect_semantic catalog stmt⟩

end FlintDB
