import Mathlib.Data.List.Perm.Basic
import FlintDB.Db.Reading

set_option autoImplicit false

-- The rows an access path delivers and keeps are those that satisfy every predicate, whichever predicate drives an
-- index and whichever index it drives.

namespace FlintDB

open Lib Fallible Database

def Comparator.compares {α : Type} [DecidableEq α] [LT α] [DecidableLT α] (op : Comparator) (a b : α) : Bool :=
  match op with
  | .kEq => a = b
  | .kNeq => a ≠ b
  | .kLt => a < b
  | .kLe => a < b ∨ a = b
  | .kGt => b < a
  | .kGe => b < a ∨ a = b

-- INTEGERs are compared as numbers, TEXTs byte by byte.
def LiteralValue.satisfies (op : Comparator) : LiteralValue → LiteralValue → Bool
  | .integer a, .integer b => op.compares a.toInt b.toInt
  | .text a, .text b => op.compares a b
  | _, _ => false

-- How EvaluatePredicate reads the sign of CompareLiterals.
def Comparator.readsSign (op : Comparator) (cmp : Int) : Bool :=
  match op with
  | .kEq => cmp = 0
  | .kNeq => cmp ≠ 0
  | .kLt => cmp < 0
  | .kLe => cmp ≤ 0
  | .kGt => 0 < cmp
  | .kGe => 0 ≤ cmp

theorem Comparator.readsSign_of_compare {α : Type} [DecidableEq α] [LT α] [DecidableLT α]
    (irrefl : ∀ a : α, ¬ a < a) (asymm : ∀ a b : α, a < b → ¬ b < a)
    (connected : ∀ a b : α, ¬ a < b → ¬ b < a → a = b) (op : Comparator) (a b : α) :
    op.readsSign (if a < b then -1 else if b < a then 1 else 0) = op.compares a b := by
  by_cases less : a < b
  · have different : a ≠ b := fun same => irrefl b (same ▸ less)
    cases op <;> simp [readsSign, compares, less, asymm a b less, different]
  · by_cases greater : b < a
    · have different : a ≠ b := fun same => less (same ▸ greater)
      cases op <;> simp [readsSign, compares, less, greater, different]
    · cases connected a b less greater
      cases op <;> simp [readsSign, compares, less]

theorem compareLiterals_spec {a b : LiteralValue} (sameType : a.type = b.type) (op : Comparator) :
    op.readsSign (compareLiterals a b) = a.satisfies op b := by
  cases a with
  | integer x =>
    cases b with
    | integer y =>
      rw [LiteralValue.satisfies, ← Comparator.readsSign_of_compare (fun a => Int.lt_irrefl a)
        (fun a b => Int.lt_asymm) (fun a b => by omega)]
      simp only [compareLiterals, LiteralValue.intValue_integer, Int64.lt_iff_toInt_lt]
    | text y => cases sameType
  | text x =>
    cases b with
    | integer y => cases sameType
    | text y =>
      rw [LiteralValue.satisfies, ← Comparator.readsSign_of_compare (fun a => List.lt_irrefl a)
        (fun a b => List.lt_asymm) (fun a b less greater => List.le_antisymm greater less)]
      rfl

theorem literalsEqual_spec {a b : LiteralValue} (sameType : a.type = b.type) :
    literalsEqual a b = decide (a = b) := by
  cases a with
  | integer x =>
    cases b with
    | integer y => exact decide_eq_decide.mpr (by simp)
    | text y => cases sameType
  | text x =>
    cases b with
    | integer y => cases sameType
    | text y => exact decide_eq_decide.mpr (by simp)

def Predicate.passes (table : TableInfo) (values : List LiteralValue) (pred : Predicate) : Bool :=
  match table.valueAt values pred.column.columnName with
  | some value => value.satisfies pred.op pred.value
  | none => false

/-- What planning makes sure of before a predicate is evaluated on the table's rows. -/
structure Predicate.Fits (table : TableInfo) (pred : Predicate) : Prop where
  inScope : pred.column.tableName = none ∨ pred.column.tableName = some table.name
  column : ∃ column, table.findColumn pred.column.columnName = some column ∧ column.type = pred.value.type

theorem evaluatePredicate_ok {table : TableInfo} {values : List LiteralValue} {pred : Predicate}
    (row : RowOf table.columns values)
    (column : ∃ column, table.findColumn pred.column.columnName = some column ∧ column.type = pred.value.type) :
    evaluatePredicate table values pred = .ok (pred.passes table values) := by
  obtain ⟨column, found, literalType⟩ := column
  obtain ⟨idx, value, indexed, at_idx, valueAt_eq, valueType⟩ := row.valueAt found
  have passes_eq : pred.passes table values = pred.op.readsSign (compareLiterals value pred.value) := by
    rw [compareLiterals_spec (valueType.trans literalType), Predicate.passes, valueAt_eq]
  rw [evaluatePredicate, indexed, passes_eq]
  simp only [bind, Except.bind, at_idx, orUndefined]
  rfl

theorem matchesAll_ok {table : TableInfo} {values : List LiteralValue} {predicates : List Predicate}
    (row : RowOf table.columns values) (fits : ∀ pred ∈ predicates, ∃ column,
      table.findColumn pred.column.columnName = some column ∧ column.type = pred.value.type) :
    matchesAll table values predicates = .ok (predicates.all (·.passes table values)) := by
  induction predicates with
  | nil => rfl
  | cons pred predicates ih =>
    rw [List.forall_mem_cons] at fits
    rw [matchesAll, evaluatePredicate_ok row fits.1, List.all_cons, ih fits.2]
    cases pred.passes table values <;> rfl

/-- The rows of every table, by the table's name. -/
abbrev Contents := String → List (RID × List LiteralValue)

def TableInfo.encode (table : TableInfo) (row : RID × List LiteralValue) : RID × Bytes :=
  (row.1, encodeRow table.columns row.2)

-- A row that INSERT or UPDATE can have written.
structure TableInfo.Storable (table : TableInfo) (values : List LiteralValue) : Prop where
  row : RowOf table.columns values
  fits : (encodeRow table.columns values).length ≤ HeapFile.kMaxRowSize

theorem TableInfo.Storable.decode {table : TableInfo} {values : List LiteralValue}
    (storable : table.Storable values) : decodeRow table.columns (encodeRow table.columns values) = .ok values :=
  decodeRow_of_short storable.row (Nat.lt_of_le_of_lt storable.fits (by decide))

/-- The heap of every table holds its rows. -/
structure Stores (catalog : Catalog) (objects : Nat → Option ObjectStorage) (contents : Contents) : Prop where
  heap : ∀ table ∈ catalog.tables, ∃ file, objects table.heapObjectId = some (.heap file) ∧
    file.rows = (contents table.name).map table.encode
  storable : ∀ table ∈ catalog.tables, ∀ row ∈ contents table.name, table.Storable row.2

-- The key a row has in an index on a column.
def TableInfo.keyAt (table : TableInfo) (columnName : String) (values : List LiteralValue) : Option Int :=
  (table.valueAt values columnName).map LiteralValue.key

/-- Search finds, in the tree that the name of an index stands for, exactly the rows with the key in the
indexed column. -/
def Indexes (catalog : Catalog) (objects : Nat → Option ObjectStorage) (contents : Contents) : Prop :=
  ∀ table ∈ catalog.tables, ∀ index ∈ catalog.indexesOnTable table.name, ∃ found tree,
    catalog.findIndex index.name = some found ∧ objects found.objectId = some (.index tree) ∧
    ∀ key, ∃ rids, tree.search key = .ok rids ∧ rids.Perm
      (((contents table.name).filter fun row => table.keyAt index.columnName row.2 = some key).map Prod.fst)

theorem matchRow_ok {table : TableInfo} {residual : List Predicate} {row : RID × List LiteralValue}
    (storable : table.Storable row.2) (fits : ∀ pred ∈ residual, ∃ column,
      table.findColumn pred.column.columnName = some column ∧ column.type = pred.value.type) :
    matchRow table residual (table.encode row) =
      .ok (if residual.all (·.passes table row.2) then [row] else []) := by
  rw [matchRow, TableInfo.encode, storable.decode]
  simp only [bind, Except.bind, matchesAll_ok storable.row fits]
  split <;> rfl

theorem validatePredicateAgainstTable_ok {table : TableInfo} {pred : Predicate}
    (valid : validatePredicateAgainstTable table pred = .ok ()) : pred.Fits table := by
  obtain ⟨_, qualified, column, required, typed⟩ : ∃ u, validatePredicateAgainstTable.inScope table
      pred.column.tableName = .ok u ∧ ∃ column, requireColumn table pred.column.columnName = .ok column ∧
        requireLiteralMatchesColumn table column pred.value = .ok () := by
    simpa only [validatePredicateAgainstTable, bind_eq_ok] using valid
  refine ⟨?_, column, requireColumn_ok.mp required, requireLiteralMatchesColumn_ok.mp typed⟩
  cases qualifier : pred.column.tableName with
  | none => exact .inl rfl
  | some name =>
    rw [qualifier, validatePredicateAgainstTable.inScope] at qualified
    split at qualified
    · rename_i same
      exact .inr (by rw [same])
    · cases qualified

theorem drivingPredicate_eq_some {catalog : Catalog} {tableName : String} {predicates residual : List Predicate}
    {index : IndexInfo} {key : Int64}
    (driven : drivingPredicate catalog tableName predicates = some (index, key, residual)) :
    ∃ before pred after, predicates = before ++ pred :: after ∧ residual = before ++ after ∧ pred.op = .kEq ∧
      findIndexOnColumn catalog tableName pred.column.columnName = some index ∧ key = pred.value.intValue := by
  induction predicates generalizing residual with
  | nil => cases driven
  | cons pred predicates ih =>
    rw [drivingPredicate] at driven
    cases candidate : drivingPredicate.candidate catalog tableName pred with
    | some found =>
      rw [candidate] at driven
      cases driven
      rw [drivingPredicate.candidate] at candidate
      split at candidate
      · rename_i equality
        exact ⟨[], pred, predicates, rfl, rfl, equality, candidate, rfl⟩
      · cases candidate
    | none =>
      rw [candidate] at driven
      obtain ⟨⟨index', key', rest⟩, drivenRest, same⟩ := Option.map_eq_some_iff.mp driven
      cases same
      obtain ⟨before, driving, after, rfl, rfl, equality, found, key_eq⟩ := ih drivenRest
      exact ⟨pred :: before, driving, after, rfl, rfl, equality, found, key_eq⟩

theorem findIndexOnColumn_eq_some {catalog : Catalog} {tableName columnName : String} {index : IndexInfo}
    (found : findIndexOnColumn catalog tableName columnName = some index) :
    index ∈ catalog.indexesOnTable tableName ∧ index.columnName = columnName :=
  ⟨List.mem_of_find?_eq_some found, by simpa using List.find?_some found⟩

theorem Catalog.indexesOnTable_integer {catalog : Catalog} {table : TableInfo} (member : table ∈ catalog.tables)
    {index : IndexInfo} (onTable : index ∈ catalog.indexesOnTable table.name) :
    ∃ column, table.findColumn index.columnName = some column ∧ column.type = .kInteger := by
  obtain ⟨listed, named⟩ := List.mem_filter.mp onTable
  obtain ⟨owner, ownerMember, ownerName, integer⟩ := catalog.indexes_integer index listed
  have sameName : owner.name = table.name := ownerName.trans (by simpa using named)
  rwa [List.inj_on_of_nodup_map catalog.names_nodup ownerMember member sameName] at integer

theorem passes_iff_keyAt {table : TableInfo} {values : List LiteralValue} {pred : Predicate} {column : ColumnDef}
    (row : RowOf table.columns values) (equality : pred.op = .kEq)
    (found : table.findColumn pred.column.columnName = some column) (integer : column.type = .kInteger)
    (typed : column.type = pred.value.type) :
    pred.passes table values = decide (table.keyAt pred.column.columnName values = some pred.value.key) := by
  obtain ⟨idx, value, -, -, valueAt_eq, valueType⟩ := row.valueAt found
  have literalInteger : pred.value.type = .kInteger := typed ▸ integer
  have valueInteger : value.type = .kInteger := valueType.trans integer
  rw [Predicate.passes, TableInfo.keyAt, valueAt_eq, equality, LiteralValue.eq_integer literalInteger,
    LiteralValue.eq_integer valueInteger]
  simp [LiteralValue.satisfies, Comparator.compares, LiteralValue.key]

theorem exists_perm_map {α β : Type} (f : α → β) {bs : List β} {as : List α} (perm : bs.Perm (as.map f)) :
    ∃ as' : List α, as'.map f = bs ∧ as'.Perm as := by
  have images : List.Forall₂ (fun b a => b = f a) (as.map f) as := by
    rw [List.forall₂_map_left_iff]
    exact List.forall₂_same.mpr fun _ _ => rfl
  obtain ⟨as', related, perm'⟩ := List.perm_comp_forall₂ perm images
  refine ⟨as', ?_, perm'⟩
  clear perm' images perm
  induction related with
  | nil => rfl
  | cons same _ ih => rw [List.map_cons, ih, same]

section Candidates

variable (guests : Nat → PageKey → Prop) {catalog : Catalog} {objects : Nat → Option ObjectStorage}
  {contents : Contents}

structure Delivers (contents : Contents) (table : TableInfo) (predicates residual : List Predicate)
    (candidates : List (RID × List LiteralValue)) : Prop where
  filtered : (candidates.filter fun row => residual.all (·.passes table row.2)).Perm
    ((contents table.name).filter fun row => predicates.all (·.passes table row.2))
  mem : ∀ row ∈ candidates, row ∈ contents table.name
  fits : ∀ pred ∈ residual, pred.Fits table

theorem indexRows_yields (stores : Stores catalog objects contents) (indexes : Indexes catalog objects contents)
    {table : TableInfo} (member : table ∈ catalog.tables) {index : IndexInfo}
    (onTable : index ∈ catalog.indexesOnTable table.name) (key : Int) (outOfSync : Exception) :
    ∃ (found : IndexInfo) (candidates : List (RID × List LiteralValue)), catalog.findIndex index.name = some found ∧
      Yields (Shows guests catalog objects)
        (indexSearch found.objectId key >>= fetchRows table.heapObjectId outOfSync) (candidates.map table.encode) ∧
      candidates.Perm
        ((contents table.name).filter fun row => table.keyAt index.columnName row.2 = some key) := by
  obtain ⟨found, tree, named, stored, search⟩ := indexes table member index onTable
  obtain ⟨rids, searched, sameRids⟩ := search key
  obtain ⟨candidates, rfl, perm⟩ := exists_perm_map Prod.fst sameRids
  obtain ⟨file, heap, rows_eq⟩ := stores.heap table member
  refine ⟨found, candidates, named, ?_, perm⟩
  apply Yields.bind (indexSearch_yields stored searched)
  have live : ∀ row ∈ candidates.map table.encode, row ∈ file.rows := by
    intro row isEncoded
    obtain ⟨candidate, isCandidate, rfl⟩ := List.mem_map.mp isEncoded
    rw [rows_eq]
    exact List.mem_map_of_mem (List.mem_of_mem_filter (perm.mem_iff.mp isCandidate))
  have rids_eq : (candidates.map table.encode).map Prod.fst = candidates.map Prod.fst := by
    simp [TableInfo.encode, Function.comp_def]
  rw [← rids_eq]
  exact fetchRows_yields heap outOfSync live

theorem fetchCandidateRows_yields (stores : Stores catalog objects contents)
    (indexes : Indexes catalog objects contents) {tableName : String} {predicates : List Predicate}
    {access : TableAccessPlan} (planned : planTableAccess catalog tableName predicates = .ok access) :
    ∃ (table : TableInfo) (candidates : List (RID × List LiteralValue)),
      catalog.findTable tableName = some table ∧ access.tableName = tableName ∧
      (∀ pred ∈ predicates, pred.Fits table) ∧
      Yields (Shows guests catalog objects) (fetchCandidateRows access) (candidates.map table.encode) ∧
      Delivers contents table predicates access.residualPredicates candidates := by
  rw [planTableAccess] at planned
  split at planned
  · cases planned
  · rename_i table found
    obtain ⟨_, valid, planned⟩ := bind_eq_ok.mp planned
    have fits : ∀ pred ∈ predicates, pred.Fits table := fun pred isPred =>
      validatePredicateAgainstTable_ok (forM_eq_ok.mp valid pred isPred)
    obtain ⟨member, named⟩ := Catalog.findTable_eq_some.mp found
    subst named
    split at planned
    · rename_i index key residual driven
      cases planned
      obtain ⟨before, pred, after, predicates_eq, rfl, equality, indexed, rfl⟩ :=
        drivingPredicate_eq_some driven
      obtain ⟨onTable, columnName_eq⟩ := findIndexOnColumn_eq_some indexed
      obtain ⟨named, candidates, byName, fetched, perm⟩ := indexRows_yields guests stores indexes member
        onTable pred.value.key (.logicError ("FetchCandidateRows: index '" ++ index.name ++
          "' names a RID with no live row -- index and heap file are out of sync"))
      refine ⟨table, candidates, found, rfl, fits, ?_, ?_, ?_, ?_⟩
      · apply Yields.bind (indexByName_yields byName)
        apply Yields.bind (heapFileForTable_yields found)
        exact fetched
      · refine (perm.filter _).trans (List.Perm.of_eq ?_)
        rw [List.filter_filter]
        apply List.filter_congr
        intro row isRow
        obtain ⟨column, columnFound, typed⟩ := (fits pred (by simp [predicates_eq])).column
        obtain ⟨column', columnFound', integer⟩ := Catalog.indexesOnTable_integer member onTable
        rw [columnName_eq, columnFound] at columnFound'
        cases columnFound'
        have driving := passes_iff_keyAt (stores.storable table member row isRow).row equality columnFound
          integer typed
        rw [columnName_eq, ← driving, predicates_eq]
        simp only [List.all_append, List.all_cons]
        ac_rfl
      · exact fun row isCandidate => List.mem_of_mem_filter (perm.mem_iff.mp isCandidate)
      · intro other isResidual
        apply fits
        rw [predicates_eq]
        rcases List.mem_append.mp isResidual with early | late
        · exact List.mem_append_left _ early
        · exact List.mem_append_right _ (List.mem_cons_of_mem _ late)
    · cases planned
      obtain ⟨file, heap, rows_eq⟩ := stores.heap table member
      refine ⟨table, contents table.name, found, rfl, fits, ?_, List.Perm.refl _, fun _ isRow => isRow, fits⟩
      apply Yields.bind (heapFileForTable_yields found)
      rw [← rows_eq]
      exact heapScan_yields heap

end Candidates

end FlintDB
