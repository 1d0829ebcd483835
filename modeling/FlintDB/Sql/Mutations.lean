import FlintDB.Sql.Schema
import FlintDB.Sql.Select

set_option autoImplicit false

-- What a writing statement makes of the rows of its table, whatever their places in the file are, and when it is
-- refused.

namespace FlintDB

open Lib Fallible Database

inductive Mutation
  | insert (stmt : InsertStatement)
  | delete (stmt : DeleteStatement)
  | update (stmt : UpdateStatement)

-- The value of a column after an UPDATE: of several assignments to it the last one counts.
def assigned (assignments : List Assignment) (columnName : String) (value : LiteralValue) : LiteralValue :=
  match assignments.reverse.find? fun assignment => assignment.columnName = columnName with
  | some assignment => assignment.value
  | none => value

namespace Mutation

def tableName : Mutation → String
  | insert stmt => stmt.tableName
  | delete stmt => stmt.tableName
  | update stmt => stmt.tableName

def execute : Mutation → DatabaseM ExecuteResult
  | insert stmt => executeInsert stmt
  | delete stmt => executeDelete stmt
  | update stmt => executeUpdate stmt

-- The rows that the WHERE clause lets through.
def matching (table : TableInfo) (predicates : List Predicate) (values : List LiteralValue) : Bool :=
  predicates.all (·.passes table values)

def rewrite (table : TableInfo) (assignments : List Assignment) (values : List LiteralValue) : List LiteralValue :=
  List.zipWith (fun column value => assigned assignments column.name value) table.columns values

/-- The names are those of columns of the table, and the literals are of the columns' kinds, one for each column in an
INSERT. -/
def WellFormed (table : TableInfo) : Mutation → Prop
  | insert stmt => RowOf table.columns stmt.values
  | delete stmt => ∀ pred ∈ stmt.wherePredicates, pred.Fits table
  | update stmt => (∀ pred ∈ stmt.wherePredicates, pred.Fits table) ∧ ∀ assignment ∈ stmt.assignments,
      ∃ column, table.findColumn assignment.columnName = some column ∧ column.type = assignment.value.type

-- The rows that are inserted or rewritten.
def written (table : TableInfo) (rows : List (List LiteralValue)) : Mutation → List (List LiteralValue)
  | insert stmt => [stmt.values]
  | delete _ => []
  | update stmt => (rows.filter (matching table stmt.wherePredicates)).map (rewrite table stmt.assignments)

/-- The rows of the table afterwards. -/
def result (table : TableInfo) (rows : List (List LiteralValue)) : Mutation → List (List LiteralValue)
  | insert stmt => rows ++ [stmt.values]
  | delete stmt => rows.filter fun row => !matching table stmt.wherePredicates row
  | update stmt => rows.map fun row =>
      if matching table stmt.wherePredicates row then rewrite table stmt.assignments row else row

/-- How many rows it is about. -/
def touched (table : TableInfo) (rows : List (List LiteralValue)) : Mutation → Nat
  | insert _ => 1
  | delete stmt => rows.countP (matching table stmt.wherePredicates)
  | update stmt => rows.countP (matching table stmt.wherePredicates)

end Mutation

/-- No two rows have the same primary key. -/
def TableInfo.KeysUnique (table : TableInfo) (rows : List (List LiteralValue)) : Prop :=
  ∀ key, table.primaryKeyColumn = some key → (rows.map fun row => table.valueAt row key).Nodup

/-- The statement names an unknown table, does not fit its table, writes a row that is too large, or would give two
rows the same primary key. -/
def Mutation.Rejected (m : Mutation) (catalog : Catalog) (contents : Contents) : Prop :=
  catalog.findTable m.tableName = none ∨ ∃ table, catalog.findTable m.tableName = some table ∧
    (¬ m.WellFormed table ∨
      (∃ row ∈ m.written table ((contents table.name).map Prod.snd),
        HeapFile.kMaxRowSize < (encodeRow table.columns row).length) ∨
      ¬ table.KeysUnique (m.result table ((contents table.name).map Prod.snd)))

theorem validatePredicateAgainstTable_of_fits {table : TableInfo} {pred : Predicate} (fits : pred.Fits table) :
    validatePredicateAgainstTable table pred = .ok () := by
  obtain ⟨column, found, typed⟩ := fits.column
  have qualified : validatePredicateAgainstTable.inScope table pred.column.tableName = .ok () := by
    rcases fits.inScope with none | here
    · rw [none, validatePredicateAgainstTable.inScope]
    · rw [here, validatePredicateAgainstTable.inScope, if_pos rfl]
  simp only [validatePredicateAgainstTable, qualified, requireColumn_ok.mpr found, bind, Except.bind,
    requireLiteralMatchesColumn_ok.mpr typed]

theorem planTableAccess_fits {catalog : Catalog} {tableName : String} {table : TableInfo}
    (found : catalog.findTable tableName = some table) {predicates : List Predicate} :
    (∃ access, planTableAccess catalog tableName predicates = .ok access) ↔ ∀ pred ∈ predicates, pred.Fits table := by
  have checks : (predicates.forM (validatePredicateAgainstTable table) = .ok ()) ↔
      ∀ pred ∈ predicates, pred.Fits table := by
    rw [forM_eq_ok]
    exact forall₂_congr fun pred _ =>
      ⟨validatePredicateAgainstTable_ok, validatePredicateAgainstTable_of_fits⟩
  rw [← checks, planTableAccess, found]
  cases valid : predicates.forM (validatePredicateAgainstTable table) with
  | error e => simp [valid, bind, Except.bind]
  | ok _ =>
    simp only [valid, bind, Except.bind]
    split <;> simp [pure, Except.pure]

theorem resolveAssignment_fits {table : TableInfo} {assignment : Assignment} :
    (∃ resolved, resolveAssignment table assignment = .ok resolved) ↔
      ∃ column, table.findColumn assignment.columnName = some column ∧ column.type = assignment.value.type := by
  constructor
  · rintro ⟨resolved, resolves⟩
    obtain ⟨column, required, _, typed, -⟩ : ∃ column, requireColumn table assignment.columnName = .ok column ∧
        ∃ u, requireLiteralMatchesColumn table column assignment.value = .ok u ∧
          ∃ idx, columnIndex table assignment.columnName = .ok idx ∧ (idx, assignment.value) = resolved := by
      simpa only [resolveAssignment, bind_eq_ok, pure, Except.pure, Except.ok.injEq] using resolves
    exact ⟨column, requireColumn_ok.mp required, requireLiteralMatchesColumn_ok.mp typed⟩
  · rintro ⟨column, found, typed⟩
    obtain ⟨idx, indexed, -, -⟩ := columnIndex_of_findColumn found
    refine ⟨(idx, assignment.value), ?_⟩
    simp only [resolveAssignment, requireColumn_ok.mpr found, requireLiteralMatchesColumn_ok.mpr typed, indexed, bind,
      Except.bind, pure, Except.pure]

theorem resolveAssignments_fit {table : TableInfo} {assignments : List Assignment} :
    (∃ resolved, resolveAssignments table assignments = .ok resolved) ↔ ∀ assignment ∈ assignments,
      ∃ column, table.findColumn assignment.columnName = some column ∧ column.type = assignment.value.type := by
  simp only [resolveAssignments, mapM_eq_ok, ← resolveAssignment_fits]
  induction assignments with
  | nil => simp
  | cons assignment assignments ih =>
    rw [List.forall_mem_cons, ← ih]
    constructor
    · rintro ⟨_, first | ⟨first, rest⟩⟩
      exact ⟨⟨_, first⟩, _, rest⟩
    · rintro ⟨⟨resolved, first⟩, others, rest⟩
      exact ⟨resolved :: others, .cons first rest⟩

theorem assigned_cons (assignment : Assignment) (assignments : List Assignment) (columnName : String)
    (value : LiteralValue) : assigned (assignment :: assignments) columnName value =
      assigned assignments columnName (if assignment.columnName = columnName then assignment.value else value) := by
  rw [assigned, assigned, List.reverse_cons, List.find?_append]
  cases assignments.reverse.find? fun assignment => assignment.columnName = columnName with
  | some later => rfl
  | none => by_cases here : assignment.columnName = columnName <;> simp [here]

theorem set_eq_zipWith {columns : List ColumnDef} (nodup : (columns.map ColumnDef.name).Nodup) {idx : Nat}
    {column : ColumnDef} (here : columns[idx]? = some column) (value : LiteralValue) {values : List LiteralValue}
    (sameLength : columns.length = values.length) : values.set idx value =
      List.zipWith (fun other old => if column.name = other.name then value else old) columns values := by
  refine List.ext_getElem? fun place => ?_
  rw [List.getElem?_zipWith, List.getElem?_set]
  by_cases within : place < values.length
  · have present : columns[place]? = some columns[place] := List.getElem?_eq_getElem (sameLength ▸ within)
    rw [present, List.getElem?_eq_getElem within]
    by_cases same : idx = place
    · subst same
      cases present.symm.trans here
      simp [within]
    · have otherName : column.name ≠ columns[place].name := by
        intro sameName
        obtain ⟨isColumn, rfl⟩ := List.getElem?_eq_some_iff.mp here
        have sameColumn := List.inj_on_of_nodup_map nodup (List.getElem_mem isColumn) (List.getElem_mem _) sameName
        exact same (nodup.of_map.getElem_inj_iff.mp sameColumn)
      simp [same, otherName]
  · have outside : values[place]? = none := List.getElem?_eq_none (Nat.le_of_not_lt within)
    have noColumn : columns[place]? = none := List.getElem?_eq_none (sameLength ▸ Nat.le_of_not_lt within)
    rw [outside, noColumn]
    split <;> simp_all

theorem rewrite_nil {table : TableInfo} {values : List LiteralValue} (sameLength : table.columns.length = values.length) :
    Mutation.rewrite table [] values = values := by
  refine List.ext_getElem (by simp [Mutation.rewrite, sameLength]) fun place _ _ => ?_
  simp [Mutation.rewrite, assigned]

theorem assign_eq_rewrite {table : TableInfo} {assignments : List Assignment} {resolved : List (Nat × LiteralValue)}
    (resolves : resolveAssignments table assignments = .ok resolved) {values : List LiteralValue}
    (row : RowOf table.columns values) : assign resolved values = Mutation.rewrite table assignments values := by
  have each := mapM_eq_ok.mp resolves
  clear resolves
  induction each generalizing values with
  | nil => exact (rewrite_nil row.length_eq).symm
  | @cons assignment first assignments rest resolves _ ih =>
    obtain ⟨column, required, _, typed, idx, indexed, rfl⟩ : ∃ column,
        requireColumn table assignment.columnName = .ok column ∧
        ∃ u, requireLiteralMatchesColumn table column assignment.value = .ok u ∧
          ∃ idx, columnIndex table assignment.columnName = .ok idx ∧ (idx, assignment.value) = first := by
      simpa only [resolveAssignment, bind_eq_ok, pure, Except.pure, Except.ok.injEq] using resolves
    have found := requireColumn_ok.mp required
    have named : column.name = assignment.columnName := by simpa using List.find?_some found
    obtain ⟨idx', indexed', here, -⟩ := columnIndex_of_findColumn found
    cases indexed.symm.trans indexed'
    have after := rowOf_set row here (requireLiteralMatchesColumn_ok.mp typed)
    show assign rest (values.set idx assignment.value) = _
    rw [ih after, set_eq_zipWith table.columns_nodup here assignment.value row.length_eq, Mutation.rewrite,
      Mutation.rewrite]
    refine List.ext_getElem (by simp) fun place _ _ => ?_
    simp only [List.getElem_zipWith, assigned_cons, named]

section Keys

variable {catalog : Catalog} (keyed : catalog.Keyed) {table : TableInfo} (isTable : table ∈ catalog.tables)
include keyed isTable

theorem keysUnique_iff {rows : List (List LiteralValue)} (typed : ∀ row ∈ rows, RowOf table.columns row) :
    table.KeysUnique rows ↔ ∀ index, catalog.primaryKeyIndex table.name = some index →
      (rows.map (table.keyAt index.columnName)).Nodup := by
  have column : ∀ key, table.primaryKeyColumn = some key ↔
      ∃ index, catalog.primaryKeyIndex table.name = some index ∧ index.columnName = key := fun key => by
    rw [← keyed.keyed table isTable, Option.map_eq_some_iff]
  have same : ∀ index, catalog.primaryKeyIndex table.name = some index →
      ((rows.map fun row => table.valueAt row index.columnName).Nodup ↔
        (rows.map (table.keyAt index.columnName)).Nodup) := by
    intro index isKey
    obtain ⟨column, found, integer⟩ :=
      Catalog.indexesOnTable_integer isTable (Catalog.primaryKeyIndex_onTable isKey)
    rw [List.Nodup, List.Nodup, List.pairwise_map, List.pairwise_map]
    refine List.Pairwise.iff_of_mem fun {first second} isFirst isSecond => not_congr ?_
    obtain ⟨-, a, -, -, a_eq, aType⟩ := (typed first isFirst).valueAt found
    obtain ⟨-, b, -, -, b_eq, bType⟩ := (typed second isSecond).valueAt found
    rw [TableInfo.keyAt, TableInfo.keyAt, a_eq, b_eq, Option.map_some, Option.map_some, Option.some.injEq,
      Option.some.injEq, LiteralValue.key_inj (aType.trans integer) (bType.trans integer)]
  constructor
  · exact fun unique index isKey => (same index isKey).mp (unique _ ((column _).mpr ⟨index, isKey, rfl⟩))
  · intro nodup key isColumn
    obtain ⟨index, isKey, rfl⟩ := (column key).mp isColumn
    exact (same index isKey).mpr (nodup index isKey)

end Keys

theorem TableInfo.KeysUnique.perm {table : TableInfo} {rows rows' : List (List LiteralValue)}
    (unique : table.KeysUnique rows) (same : rows.Perm rows') : table.KeysUnique rows' :=
  fun key isKey => (same.map _).nodup_iff.mp (unique key isKey)

theorem TableInfo.KeysUnique.sublist {table : TableInfo} {rows rows' : List (List LiteralValue)}
    (unique : table.KeysUnique rows) (fewer : rows'.Sublist rows) : table.KeysUnique rows' :=
  fun key isKey => (unique key isKey).sublist (fewer.map _)

theorem nodup_filterMap_iff {α β : Type} (f : α → Option β) {as : List α} (all : ∀ a ∈ as, ∃ b, f a = some b) :
    (as.filterMap f).Nodup ↔ (as.map f).Nodup := by
  rw [List.Nodup, List.Nodup, List.pairwise_filterMap, List.pairwise_map]
  refine List.Pairwise.iff_of_mem fun {first second} isFirst isSecond => ?_
  obtain ⟨b, b_eq⟩ := all first isFirst
  obtain ⟨c, c_eq⟩ := all second isSecond
  simp [b_eq, c_eq]

section Keys

variable {catalog : Catalog} (keyed : catalog.Keyed) {table : TableInfo} (isTable : table ∈ catalog.tables)
  {contents : Contents} (typed : ∀ row ∈ contents table.name, RowOf table.columns row.2)
  (unique : table.KeysUnique ((contents table.name).map Prod.snd))
include keyed isTable typed unique

theorem keyTaken_iff {values : List LiteralValue} (row : RowOf table.columns values) :
    KeyTaken catalog contents table values ↔
      ¬ table.KeysUnique ((contents table.name).map Prod.snd ++ [values]) := by
  have oldTyped : ∀ row ∈ (contents table.name).map Prod.snd, RowOf table.columns row := List.forall_mem_map.mpr typed
  rw [keysUnique_iff keyed isTable (by simpa [or_imp, forall_and] using ⟨fun values rid isRow => typed _ isRow, row⟩)]
  have before := (keysUnique_iff keyed isTable oldTyped).mp unique
  have step : ∀ index, catalog.primaryKeyIndex table.name = some index →
      ((((contents table.name).map Prod.snd ++ [values]).map (table.keyAt index.columnName)).Nodup ↔
        ¬ ∃ row ∈ contents table.name, table.keyAt index.columnName row.2 = table.keyAt index.columnName values) := by
    intro index isKey
    rw [List.map_append, List.map_singleton, List.nodup_append, and_iff_right (before index isKey)]
    simp only [List.nodup_singleton, true_and, List.mem_singleton, forall_eq, List.forall_mem_map, not_exists, not_and,
      ne_eq]
  constructor
  · rintro ⟨index, isKey, taken⟩ nodup
    exact (step index isKey).mp (nodup index isKey) taken
  · intro twice
    by_contra free
    refine twice fun index isKey => (step index isKey).mpr fun taken => free ⟨index, isKey, taken⟩

theorem refusedBatch_iff {updates : List RowUpdate} (rids : ((contents table.name).map Prod.fst).Nodup)
    (isRow : ∀ update ∈ updates, oldRow update ∈ contents table.name)
    (newTyped : ∀ update ∈ updates, RowOf table.columns update.newValues) :
    RefusedBatch catalog contents table updates ↔
      (∃ update ∈ updates, HeapFile.kMaxRowSize < (update.newBytes table).length) ∨
        ¬ table.KeysUnique (((contents table.name).diff (updates.map oldRow)).map Prod.snd ++
          updates.map RowUpdate.newValues) := by
  refine or_congr Iff.rfl ?_
  have stays : ∀ row ∈ contents table.name, row ∈ (contents table.name).diff (updates.map oldRow) ↔
      row.1 ∉ updates.map RowUpdate.rid := by
    intro row isThere
    rw [rids.of_map.mem_sdiff_iff, and_iff_right isThere, not_iff_not]
    constructor
    · intro isOld
      obtain ⟨update, isUpdate, rfl⟩ := List.mem_map.mp isOld
      exact List.mem_map_of_mem isUpdate
    · intro isRid
      obtain ⟨update, isUpdate, same⟩ := List.mem_map.mp isRid
      rw [← List.inj_on_of_nodup_map rids (isRow update isUpdate) isThere same]
      exact List.mem_map_of_mem isUpdate
  have restTyped : ∀ row ∈ (contents table.name).diff (updates.map oldRow), RowOf table.columns row.2 :=
    fun row isRest => typed row (List.diff_subset _ _ isRest)
  have restUnique := unique.sublist (((contents table.name).diff_sublist (updates.map oldRow)).map Prod.snd)
  rw [keysUnique_iff keyed isTable (List.forall_mem_append.mpr
    ⟨List.forall_mem_map.mpr restTyped, List.forall_mem_map.mpr newTyped⟩)]
  have before := (keysUnique_iff keyed isTable (List.forall_mem_map.mpr restTyped)).mp restUnique
  have step : ∀ index, catalog.primaryKeyIndex table.name = some index →
      (((((contents table.name).diff (updates.map oldRow)).map Prod.snd ++
        updates.map RowUpdate.newValues).map (table.keyAt index.columnName)).Nodup ↔
        (updates.filterMap fun update => table.keyAt index.columnName update.newValues).Nodup ∧
          ¬ ∃ update ∈ updates, ∃ row ∈ contents table.name, row.1 ∉ updates.map RowUpdate.rid ∧
            table.keyAt index.columnName row.2 = table.keyAt index.columnName update.newValues) := by
    intro index isKey
    have onTable := Catalog.primaryKeyIndex_onTable isKey
    have news := nodup_filterMap_iff (fun update : RowUpdate => table.keyAt index.columnName update.newValues)
      fun update (isUpdate : update ∈ updates) => by
        obtain ⟨key, -, keyed⟩ := indexKeyOf_ok isTable onTable (newTyped update isUpdate)
        exact ⟨key, keyed⟩
    rw [news, List.map_append, List.nodup_append, and_iff_right (before index isKey), List.map_map, List.map_map]
    refine and_congr Iff.rfl ?_
    simp only [List.forall_mem_map, Function.comp_apply, not_exists, not_and, ne_eq]
    constructor
    · intro apart update isUpdate row isThere outside same
      exact apart row ((stays row isThere).mpr outside) update isUpdate same
    · intro apart row isRest update isUpdate same
      have isThere := List.diff_subset _ _ isRest
      exact apart update isUpdate row isThere ((stays row isThere).mp isRest) same
  constructor
  · rintro ⟨index, isKey, repeated | taken⟩ nodup
    · exact repeated ((step index isKey).mp (nodup index isKey)).1
    · exact ((step index isKey).mp (nodup index isKey)).2 taken
  · intro twice
    by_contra free
    refine twice fun index isKey => (step index isKey).mpr ⟨?_, fun taken => free ⟨index, isKey, .inr taken⟩⟩
    by_contra repeated
    exact free ⟨index, isKey, .inl repeated⟩

end Keys

section Rows

variable {table : TableInfo} {rows matched : List (RID × List LiteralValue)} {predicates : List Predicate}
  (nodup : rows.Nodup)
  (filtered : matched.Perm (rows.filter fun row => predicates.all (·.passes table row.2)))
include filtered

theorem length_matched : matched.length = (rows.map Prod.snd).countP (Mutation.matching table predicates) := by
  rw [filtered.length_eq, List.countP_map, List.countP_eq_length_filter]
  rfl

include nodup

theorem diff_matched : rows.diff matched = rows.filter fun row => !Mutation.matching table predicates row.2 := by
  rw [nodup.sdiff_eq_filter]
  refine List.filter_congr fun row isRow => ?_
  rw [Bool.eq_iff_iff, decide_eq_true_eq, filtered.mem_iff, List.mem_filter, and_iff_right isRow]
  simp [Mutation.matching]

theorem diff_matched_values :
    (rows.diff matched).map Prod.snd = (rows.map Prod.snd).filter fun row => !Mutation.matching table predicates row := by
  rw [diff_matched nodup filtered, List.filter_map]
  rfl

theorem rewritten_perm (assignments : List Assignment) :
    ((rows.diff matched).map Prod.snd ++ matched.map fun row => Mutation.rewrite table assignments row.2).Perm
      ((rows.map Prod.snd).map fun row =>
        if Mutation.matching table predicates row then Mutation.rewrite table assignments row else row) := by
  let after (row : RID × List LiteralValue) : List LiteralValue :=
    if Mutation.matching table predicates row.2 then Mutation.rewrite table assignments row.2 else row.2
  have stayed : (rows.diff matched).map Prod.snd = (rows.diff matched).map after := by
    refine List.map_congr_left fun row isRest => ?_
    rw [diff_matched nodup filtered, List.mem_filter, Bool.not_eq_true'] at isRest
    simp [after, isRest.2]
  have rewritten : (matched.map fun row => Mutation.rewrite table assignments row.2) = matched.map after := by
    refine List.map_congr_left fun row isMatched => ?_
    have passes : Mutation.matching table predicates row.2 = true :=
      (List.mem_filter.mp (filtered.mem_iff.mp isMatched)).2
    simp [after, passes]
  have split : rows.Perm (matched ++ rows.diff matched) :=
    perm_append_diff (filtered.nodup_iff.mpr (nodup.filter _)) fun row isMatched =>
      List.mem_of_mem_filter (filtered.mem_iff.mp isMatched)
  rw [stayed, rewritten, ← List.map_append, List.map_map]
  exact ((split.trans List.perm_append_comm).map after).symm

end Rows

theorem FewKeys.perm {catalog : Catalog} {table : TableInfo} {rows rows' : List (List LiteralValue)} {index : IndexInfo}
    (few : FewKeys catalog table rows index) (same : rows.Perm rows') : FewKeys catalog table rows' index :=
  fun onTable key => keyCount_perm same ▸ few onTable key

namespace Database

theorem Cramped.mono {origin db : Database} {followed followed' : IndexInfo → Prop}
    (cramped : origin.Cramped followed db) (weaker : ∀ index, followed' index → followed index) :
    origin.Cramped followed' db :=
  ⟨cramped.extended, fun all => cramped.cramped fun index isIndex => weaker index (all index isIndex)⟩

end Database

namespace Mutation

variable {origin : Database} {contents : Contents} {table : TableInfo}

theorem rejected_iff {m : Mutation} (found : origin.catalog.findTable m.tableName = some table) :
    m.Rejected origin.catalog contents ↔ (¬ m.WellFormed table ∨
      (∃ row ∈ m.written table ((contents table.name).map Prod.snd),
        HeapFile.kMaxRowSize < (encodeRow table.columns row).length) ∨
      ¬ table.KeysUnique (m.result table ((contents table.name).map Prod.snd))) := by
  simp [Rejected, found]

def Spec (m : Mutation) (origin : Database) (contents : Contents) (table : TableInfo) : Prop :=
  Meets (· = origin) m.execute
    (fun returned db => ¬ m.Rejected origin.catalog contents ∧ ∃ rows : List (RID × List LiteralValue),
      (rows.map Prod.snd).Perm (m.result table ((contents table.name).map Prod.snd)) ∧
        returned.rowsAffected = m.touched table ((contents table.name).map Prod.snd) ∧
        origin.SettlesAs (Function.update contents table.name rows) db)
    (fun db => (m.Rejected origin.catalog contents ∧ origin.Still db) ∨
      ¬ m.Rejected origin.catalog contents ∧
        origin.Cramped (FewKeys origin.catalog table (m.result table ((contents table.name).map Prod.snd))) db)

section Known

variable (keyed : origin.catalog.Keyed) (lockstep : Lockstep origin.catalog origin.objects contents)
  (alone : origin.Alone)
  (unique : ∀ table ∈ origin.catalog.tables, table.KeysUnique ((contents table.name).map Prod.snd))
include keyed lockstep alone unique

omit alone in
theorem refused_rejected (stmt : InsertStatement) (found : origin.catalog.findTable stmt.tableName = some table) :
    stmt.Refused origin.catalog contents table ↔ (Mutation.insert stmt).Rejected origin.catalog contents := by
  obtain ⟨isTable, -⟩ := Catalog.findTable_eq_some.mp found
  have typed : ∀ row ∈ contents table.name, RowOf table.columns row.2 := fun row isRow =>
    (lockstep.storable table isTable row isRow).row
  rw [rejected_iff found]
  by_cases row : RowOf table.columns stmt.values
  · have taken := keyTaken_iff keyed isTable typed (unique table isTable) row
    simp only [InsertStatement.Refused, WellFormed, written, result, row, not_true_eq_false, false_or, taken,
      List.mem_singleton, exists_eq_left]
    exact or_comm
  · simp [InsertStatement.Refused, WellFormed, row]

theorem executeInsert_relational (stmt : InsertStatement) (found : origin.catalog.findTable stmt.tableName = some table) :
    (Mutation.insert stmt).Spec origin contents table := by
  have spec := executeInsert_spec stmt lockstep alone found
  rw [refused_rejected keyed lockstep unique stmt found] at spec
  refine spec.of_post ?_
  rintro returned db ⟨⟨accepted, one⟩, rid, settles⟩
  exact ⟨accepted, _, by simp [result], one, settles⟩

omit keyed lockstep alone in
theorem unplanned_rejected (stmt : DeleteStatement) (found : origin.catalog.findTable stmt.tableName = some table) :
    ¬ (∃ access, planTableAccess origin.catalog stmt.tableName stmt.wherePredicates = .ok access) ↔
      (Mutation.delete stmt).Rejected origin.catalog contents := by
  have isTable := (Catalog.findTable_eq_some.mp found).1
  have fewer := (unique table isTable).sublist (List.filter_sublist :
    (((contents table.name).map Prod.snd).filter fun row => !matching table stmt.wherePredicates row).Sublist _)
  rw [rejected_iff found, planTableAccess_fits found]
  simp [WellFormed, written, result, fewer]

theorem executeDelete_relational (stmt : DeleteStatement) (found : origin.catalog.findTable stmt.tableName = some table) :
    (Mutation.delete stmt).Spec origin contents table := by
  have nodup := (lockstep.rids_nodup (Catalog.findTable_eq_some.mp found).1).of_map
  have same := unplanned_rejected unique stmt found
  cases planned : planTableAccess origin.catalog stmt.tableName stmt.wherePredicates with
  | error e =>
    have rejected := same.mp (by simp [planned])
    exact Meets.of_exec_error (executeDelete_unplanned planned) (.inl ⟨rejected, still_of_alone alone⟩)
  | ok access =>
    have accepted : ¬ (Mutation.delete stmt).Rejected origin.catalog contents := fun rejected =>
      same.mpr rejected ⟨access, planned⟩
    obtain ⟨matched, filtered, spec⟩ := executeDelete_spec stmt lockstep keyed.distinct alone found planned
    refine (spec.of_post fun returned db ⟨affected, settles⟩ => ⟨accepted, _, ?_, ?_, settles⟩).of_error
      fun db cramped => .inr ⟨accepted, cramped.mono fun _ _ => trivial⟩
    · rw [diff_matched_values nodup filtered]
      exact List.Perm.refl _
    · rw [affected, length_matched filtered]
      rfl

omit alone in
theorem refusedBatch_rejected {stmt : UpdateStatement} (found : origin.catalog.findTable stmt.tableName = some table)
    (fits : (Mutation.update stmt).WellFormed table) {assignments : List (Nat × LiteralValue)}
    (resolves : resolveAssignments table stmt.assignments = .ok assignments) {matched : List (RID × List LiteralValue)}
    (filtered : matched.Perm
      ((contents table.name).filter fun row => stmt.wherePredicates.all (·.passes table row.2))) :
    RefusedBatch origin.catalog contents table (updatesOf assignments matched) ↔
      (Mutation.update stmt).Rejected origin.catalog contents := by
  obtain ⟨isTable, -⟩ := Catalog.findTable_eq_some.mp found
  have rids := lockstep.rids_nodup isTable
  have typed : ∀ row ∈ contents table.name, RowOf table.columns row.2 := fun row isRow =>
    (lockstep.storable table isTable row isRow).row
  have isRow : ∀ row ∈ matched, row ∈ contents table.name := fun row isMatched =>
    List.mem_of_mem_filter (filtered.mem_iff.mp isMatched)
  have news : (updatesOf assignments matched).map RowUpdate.newValues =
      matched.map fun row => rewrite table stmt.assignments row.2 := by
    rw [newValues_updatesOf]
    exact List.map_congr_left fun row isMatched => assign_eq_rewrite resolves (typed row (isRow row isMatched))
  have perm := rewritten_perm rids.of_map filtered stmt.assignments
  have isOld : ∀ update ∈ updatesOf assignments matched, oldRow update ∈ contents table.name :=
    List.forall_mem_map.mpr isRow
  have newTyped : ∀ update ∈ updatesOf assignments matched, RowOf table.columns update.newValues :=
    List.forall_mem_map.mpr fun row isMatched => rowOf_assign resolves (typed row (isRow row isMatched))
  have writes : (matched.map fun row => rewrite table stmt.assignments row.2).Perm
      ((Mutation.update stmt).written table ((contents table.name).map Prod.snd)) := by
    rw [written, List.filter_map, List.map_map]
    exact filtered.map _
  have tooLarge : (∃ update ∈ updatesOf assignments matched,
      HeapFile.kMaxRowSize < (update.newBytes table).length) ↔
      ∃ row ∈ (Mutation.update stmt).written table ((contents table.name).map Prod.snd),
        HeapFile.kMaxRowSize < (encodeRow table.columns row).length := by
    simp only [← writes.mem_iff, ← news, List.mem_map, exists_exists_and_eq_and]
    rfl
  have clash : ¬ table.KeysUnique (((contents table.name).diff matched).map Prod.snd ++
      matched.map fun row => rewrite table stmt.assignments row.2) ↔
      ¬ table.KeysUnique ((Mutation.update stmt).result table ((contents table.name).map Prod.snd)) :=
    not_congr ⟨fun once => once.perm perm, fun once => once.perm perm.symm⟩
  rw [refusedBatch_iff keyed isTable typed (unique table isTable) rids isOld newTyped, oldRows_updatesOf, news,
    rejected_iff found, tooLarge, clash]
  simp only [fits, not_true_eq_false, false_or]

theorem executeUpdate_relational (stmt : UpdateStatement) (found : origin.catalog.findTable stmt.tableName = some table) :
    (Mutation.update stmt).Spec origin contents table := by
  obtain ⟨isTable, -⟩ := Catalog.findTable_eq_some.mp found
  have rids := lockstep.rids_nodup isTable
  have isFit : (Mutation.update stmt).WellFormed table ↔
      (∃ access, planTableAccess origin.catalog stmt.tableName stmt.wherePredicates = .ok access) ∧
        ∃ resolved, resolveAssignments table stmt.assignments = .ok resolved :=
    and_congr (planTableAccess_fits found).symm resolveAssignments_fit.symm
  have misfit : ¬ (Mutation.update stmt).WellFormed table → (Mutation.update stmt).Rejected origin.catalog contents :=
    fun misfit => (rejected_iff found).mpr (.inl misfit)
  have still := still_of_alone alone
  cases resolves : resolveAssignments table stmt.assignments with
  | error e =>
    refine Meets.of_exec_error (executeUpdate_unresolved found resolves) (.inl ⟨misfit ?_, still⟩)
    simp [isFit, resolves]
  | ok assignments =>
    cases planned : planTableAccess origin.catalog stmt.tableName stmt.wherePredicates with
    | error e =>
      refine Meets.of_exec_error (executeUpdate_unplanned found resolves planned) (.inl ⟨misfit ?_, still⟩)
      simp [isFit, planned]
    | ok access =>
      obtain ⟨matched, filtered, spec⟩ :=
        executeUpdate_spec stmt lockstep keyed.distinct alone found resolves planned
      have rewrites : (matched.map fun row => assign assignments row.2) =
          matched.map fun row => rewrite table stmt.assignments row.2 :=
        List.map_congr_left fun row isMatched => assign_eq_rewrite resolves
          (lockstep.storable table isTable row (List.mem_of_mem_filter (filtered.mem_iff.mp isMatched))).row
      have perm := rewritten_perm rids.of_map filtered stmt.assignments
      have fits : (Mutation.update stmt).WellFormed table := isFit.mpr ⟨⟨access, planned⟩, assignments, resolves⟩
      have same := refusedBatch_rejected keyed lockstep unique found fits resolves filtered
      rw [same, rewrites] at spec
      refine (spec.of_post fun returned db ⟨⟨accepted, affected⟩, rows, values_eq, settles⟩ =>
        ⟨accepted, _, ?_, ?_, settles⟩).of_error fun db failed => failed.imp_right fun ⟨accepted, cramped⟩ =>
          ⟨accepted, cramped.mono fun index few => few.perm perm.symm⟩
      · rw [List.map_append, values_eq]
        exact perm
      · rw [affected, length_matched filtered]
        rfl

theorem execute_relational (m : Mutation) (found : origin.catalog.findTable m.tableName = some table) :
    m.Spec origin contents table := by
  cases m with
  | insert stmt => exact executeInsert_relational keyed lockstep alone unique stmt found
  | delete stmt => exact executeDelete_relational keyed lockstep alone unique stmt found
  | update stmt => exact executeUpdate_relational keyed lockstep alone unique stmt found

end Known

theorem execute_unknown {m : Mutation} (unknown : origin.catalog.findTable m.tableName = none) :
    ∃ e, m.execute.exec origin = (.error e, origin) := by
  cases m with
  | insert stmt => exact ⟨_, executeInsert_unknown unknown⟩
  | update stmt => exact ⟨_, executeUpdate_unknown unknown⟩
  | delete stmt =>
    have unplanned : planTableAccess origin.catalog stmt.tableName stmt.wherePredicates =
        .error (noSuchTable stmt.tableName) := by
      rw [planTableAccess, show origin.catalog.findTable stmt.tableName = none from unknown]
      rfl
    exact ⟨_, executeDelete_unplanned unplanned⟩

theorem keysUnique_after {m : Mutation} (found : origin.catalog.findTable m.tableName = some table)
    (accepted : ¬ m.Rejected origin.catalog contents)
    (unique : ∀ table ∈ origin.catalog.tables, table.KeysUnique ((contents table.name).map Prod.snd))
    {rows : List (RID × List LiteralValue)}
    (perm : (rows.map Prod.snd).Perm (m.result table ((contents table.name).map Prod.snd))) :
    ∀ other ∈ origin.catalog.tables,
      other.KeysUnique ((Function.update contents table.name rows other.name).map Prod.snd) := by
  intro other isOther
  by_cases same : other.name = table.name
  · have isTable := (Catalog.findTable_eq_some.mp found).1
    have isThis : other = table := List.inj_on_of_nodup_map origin.catalog.names_nodup isOther isTable same
    rw [isThis, Function.update_self]
    have unclashed : table.KeysUnique (m.result table ((contents table.name).map Prod.snd)) := by
      by_contra clash
      exact accepted ((rejected_iff found).mpr (.inr (.inr clash)))
    exact unclashed.perm perm.symm
  · rw [Function.update_of_ne same]
    exact unique other isOther

end Mutation

namespace Database

theorem SettlesAs.lockstep {origin db : Database} {contents : Contents} (settles : origin.SettlesAs contents db)
    (few : ∀ index ∈ origin.catalog.indexes, FewRepeated origin.catalog contents index) (room : db.HasRoom) :
    Lockstep origin.catalog db.objects contents := by
  refine ⟨fun table isTable => ?_, settles.storable, fun table isTable index onTable => ?_⟩
  · obtain ⟨file, present, holds⟩ := settles.agrees.heap table isTable
    exact ⟨file, present, holds (room.heap _ file present)⟩
  · have isIndex := (Catalog.mem_indexesOnTable.mp onTable).1
    obtain ⟨tree, present, represents⟩ := settles.agrees.index index isIndex
    have here := represents (few index isIndex) (room.index _ tree present)
    rw [Catalog.entries_eq isTable onTable] at here
    exact ⟨tree, present, here⟩

theorem fewRepeated_update {catalog : Catalog} {objects : Nat → Option ObjectStorage} {contents : Contents}
    (lockstep : Lockstep catalog objects contents) {table : TableInfo} (isTable : table ∈ catalog.tables)
    {rows : List (RID × List LiteralValue)} (few : ∀ index, FewKeys catalog table (rows.map Prod.snd) index) :
    ∀ index ∈ catalog.indexes, FewRepeated catalog (Function.update contents table.name rows) index := by
  intro index isIndex key
  by_cases onTable : index ∈ catalog.indexesOnTable table.name
  · rw [Catalog.entries_eq isTable onTable, Function.update_self, TableInfo.keys_entries]
    exact few index onTable key
  · rw [Catalog.entries_update onTable isIndex]
    obtain ⟨owner, isOwner, named, -⟩ := catalog.indexes_integer index isIndex
    have onOwner : index ∈ catalog.indexesOnTable owner.name := Catalog.mem_indexesOnTable.mpr ⟨isIndex, named.symm⟩
    obtain ⟨tree, -, represents⟩ := lockstep.index owner isOwner index onOwner
    rw [Catalog.entries_eq isOwner onOwner]
    exact represents.few key

end Database

/-- INSERT, UPDATE and DELETE compute the relational result or nothing. A tree is an exact multimap as long as no key is
repeated more often than a leaf has room for. -/
theorem relational_result_or_nothing {db : Database} {contents : Contents} (m : Mutation) (built : db.catalog.Built)
    (alone : db.Alone) (lockstep : Lockstep db.catalog db.objects contents)
    (unique : ∀ table ∈ db.catalog.tables, table.KeysUnique ((contents table.name).map Prod.snd))
    (multimaps : ¬ m.Rejected db.catalog contents → ∀ table, db.catalog.findTable m.tableName = some table →
      ∀ index ∈ db.catalog.indexesOnTable table.name, ∀ key,
        keyCount table index.columnName key (m.result table ((contents table.name).map Prod.snd)) ≤ kLeafMaxKeys)
    (room : (m.execute.exec db).2.HasRoom) :
    ((∃ e, (m.execute.exec db).1 = .error e) ↔ m.Rejected db.catalog contents) ∧
    (∀ e after, m.execute.exec db = (.error e, after) → after.catalog = db.catalog ∧ after.objects = db.objects) ∧
    ∀ returned after, m.execute.exec db = (.ok returned, after) → ∃ table rows,
      db.catalog.findTable m.tableName = some table ∧
      (rows.map Prod.snd).Perm (m.result table ((contents table.name).map Prod.snd)) ∧
      returned.rowsAffected = m.touched table ((contents table.name).map Prod.snd) ∧
      after.catalog = db.catalog ∧ Lockstep db.catalog after.objects (Function.update contents table.name rows) ∧
      ∀ other ∈ db.catalog.tables,
        other.KeysUnique ((Function.update contents table.name rows other.name).map Prod.snd) := by
  cases found : db.catalog.findTable m.tableName with
  | none =>
    obtain ⟨e, fails⟩ := Mutation.execute_unknown found
    rw [fails]
    refine ⟨⟨fun _ => .inl found, fun _ => ⟨e, rfl⟩⟩, ?_, fun returned after returns => by cases returns⟩
    rintro _ _ ⟨⟩
    exact ⟨rfl, rfl⟩
  | some table =>
    obtain ⟨isTable, -⟩ := Catalog.findTable_eq_some.mp found
    have ends := Mutation.execute_relational built.keyed lockstep alone unique m found db rfl
    cases ran : m.execute.exec db with
    | mk outcome after =>
      rw [ran] at ends room
      cases outcome with
      | error e =>
        have rejected : m.Rejected db.catalog contents ∧ db.Still after := by
          rcases ends with rejected | ⟨accepted, cramped⟩
          · exact rejected
          · refine absurd room (cramped.cramped fun index _ onTable key => ?_)
            exact multimaps accepted table found index onTable key
        refine ⟨⟨fun _ => rejected.1, fun _ => ⟨e, rfl⟩⟩, ?_, ?_⟩
        · rintro _ _ ⟨⟩
          exact ⟨rejected.2.frame.catalog_eq, rejected.2.objects_eq⟩
        · rintro _ _ ⟨⟩
      | ok returned =>
        obtain ⟨accepted, rows, perm, affected, settles⟩ := ends
        have few : ∀ index, FewKeys db.catalog table (rows.map Prod.snd) index := fun index =>
          FewKeys.perm (fun onTable key => multimaps accepted table found index onTable key) perm.symm
        refine ⟨⟨?_, fun rejected => absurd rejected accepted⟩, ?_, ?_⟩
        · rintro ⟨_, ⟨⟩⟩
        · rintro _ _ ⟨⟩
        rintro _ _ ⟨⟩
        refine ⟨table, rows, rfl, perm, affected, settles.agrees.extended.frame.catalog_eq,
          settles.lockstep (fewRepeated_update lockstep isTable few) room, ?_⟩
        exact Mutation.keysUnique_after found accepted unique perm

def ObjectStorage.hasRoom : ObjectStorage → Bool
  | .heap file => file.allocated < 2 ^ 32
  | .index tree => tree.allocated < invalidPageId

theorem Database.hasRoom_of_two {db : Database} (first : (db.objects 0).all ObjectStorage.hasRoom = true)
    (second : (db.objects 1).all ObjectStorage.hasRoom = true) (others : ∀ n, db.objects (n + 2) = none) :
    db.HasRoom := by
  have all : ∀ objectId storage, db.objects objectId = some storage → storage.hasRoom = true := by
    intro objectId storage present
    match objectId with
    | 0 => simpa [present] using first
    | 1 => simpa [present] using second
    | n + 2 => cases present.symm.trans (others n)
  exact ⟨fun objectId file present => of_decide_eq_true (all objectId _ present),
    fun objectId tree present => of_decide_eq_true (all objectId _ present)⟩

theorem pairColumns_ne : [ColumnDef.mk "a" .kInteger, ⟨"b", .kInteger⟩] ≠ [] := List.cons_ne_nil _ _

theorem pairColumns_nodup : ([ColumnDef.mk "a" .kInteger, ⟨"b", .kInteger⟩].map ColumnDef.name).Nodup := by decide

-- CREATE TABLE t (a INTEGER PRIMARY KEY, b INTEGER)
def pairCatalog : Catalog :=
  (Catalog.pushTable emptyCatalog "t" [⟨"a", .kInteger⟩, ⟨"b", .kInteger⟩] (some "a") emptyCatalog_fresh pairColumns_ne
    pairColumns_nodup).pushIndex "t.a#pk" "t" "a" true ⟨_, List.mem_singleton_self _, rfl, _, rfl, rfl⟩

def pairs : List (RID × List LiteralValue) :=
  [(⟨0, 0⟩, [.integer 1, .integer 10]), (⟨0, 1⟩, [.integer 2, .integer 20]), (⟨0, 2⟩, [.integer 3, .integer 30])]

def pairFile : HeapFile where
  pageIds := [0]
  pages := Function.update (fun _ => {}) 0 ⟨[{ record := appendInt64 1 ++ appendInt64 10 },
    { record := appendInt64 2 ++ appendInt64 20 }, { record := appendInt64 3 ++ appendInt64 30 }], 28, 4048⟩
  allocated := 1

def pairKeys : List TreeOp := [.insert 1 ⟨0, 0⟩, .insert 2 ⟨0, 1⟩, .insert 3 ⟨0, 2⟩]

def pairDatabase : Database where
  catalog := pairCatalog
  objects := Function.update (Function.update (fun _ => none) 0 (some (.heap pairFile))) 1
    (some (.index ((TreeOp.applyAll pairKeys).exec {}).2))

theorem pairKeys_represents : ((TreeOp.applyAll pairKeys).exec {}).2.Represents [(1, ⟨0, 0⟩), (2, ⟨0, 1⟩), (3, ⟨0, 2⟩)] := by
  have small : ∀ ops, ops <+: pairKeys → (TreeOp.storeAll ops []).length ≤ kLeafMaxKeys ∧
      ((TreeOp.applyAll ops).exec {}).2.allocated < invalidPageId := by
    intro ops isPrefix
    simp only [pairKeys, List.prefix_cons_iff, List.prefix_nil] at isPrefix
    rcases isPrefix with rfl | ⟨_, rfl, rfl | ⟨_, rfl, rfl | ⟨_, rfl, rfl⟩⟩⟩ <;> decide
  obtain ⟨tree, done, represents⟩ := TreeOp.applyAll_exec BPlusTree.represents_empty pairKeys
    (fun ops isPrefix key => Nat.le_trans List.count_le_length (by simpa using (small ops isPrefix).1))
    fun ops isPrefix => (small ops isPrefix).2
  rw [done]
  exact represents.perm (by decide)

theorem pairs_lockstep : Lockstep pairCatalog pairDatabase.objects fun _ => pairs := by
  refine ⟨?_, ?_, ?_⟩
  · intro table isTable
    cases List.mem_singleton.mp isTable
    refine ⟨pairFile, rfl, ⟨List.nodup_singleton 0, by simp [pairFile], fun pageId beyond => ?_⟩, by decide⟩
    obtain ⟨n, rfl⟩ : ∃ n, pageId = n + 1 := ⟨pageId - 1, (Nat.sub_add_cancel beyond).symm⟩
    rfl
  · intro table isTable row isRow
    cases List.mem_singleton.mp isTable
    simp only [pairs, List.mem_cons, List.not_mem_nil, or_false] at isRow
    rcases isRow with rfl | rfl | rfl
    all_goals exact ⟨.cons rfl (.cons rfl .nil), by decide⟩
  · intro table isTable index onTable
    cases List.mem_singleton.mp isTable
    cases List.mem_singleton.mp onTable
    exact ⟨_, rfl, pairKeys_represents⟩

-- UPDATE t SET b = 0 WHERE a > 1
def zeroLarger : Mutation := .update ⟨"t", [⟨"b", .integer 0⟩], [⟨⟨none, "a"⟩, .kGt, .integer 1⟩]⟩

theorem relational_result_or_nothing_update : ∃ returned after rows,
    zeroLarger.execute.exec pairDatabase = (.ok returned, after) ∧ returned.rowsAffected = 2 ∧
    (rows.map Prod.snd).Perm [[.integer 1, .integer 10], [.integer 2, .integer 0], [.integer 3, .integer 0]] ∧
    Lockstep pairCatalog after.objects (Function.update (fun _ => pairs) "t" rows) := by
  have built : pairCatalog.Built :=
    .createTable .empty (by decide : IsIdentifier "t")
      (show Catalog.createTable {} "t" [⟨"a", .kInteger⟩, ⟨"b", .kInteger⟩] (some "a") = _ from rfl)
  have alone : pairDatabase.Alone := by
    refine ⟨rfl, LockManager.consistent_empty, fun other key held => ?_⟩
    simp [pairDatabase, LockManager.Holds, LockManager.HoldsExclusive, LockManager.HoldsShared] at held
  have unique : ∀ table ∈ pairCatalog.tables, table.KeysUnique (pairs.map Prod.snd) := by
    intro table isTable key isKey
    cases List.mem_singleton.mp isTable
    cases isKey
    decide
  have room : (zeroLarger.execute.exec pairDatabase).2.HasRoom := hasRoom_of_two rfl rfl fun _ => rfl
  obtain ⟨-, -, returns⟩ := relational_result_or_nothing zeroLarger built alone pairs_lockstep unique (by
    rintro - table found index - key
    refine (keyCount_le_length _).trans ?_
    cases found
    decide) room
  obtain ⟨table, rows, found, perm, affected, -, agrees, -⟩ := returns _ _ rfl
  cases found
  exact ⟨_, _, rows, rfl, affected, perm, agrees⟩

end FlintDB
