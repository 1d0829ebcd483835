import FlintDB.Lib.Simulation
import FlintDB.Sql.Resolution

set_option autoImplicit false

-- What a client may rely on: named tables with rows, statements that read and change them, and transactions that can
-- be taken back. There are no pages, plans, indexes to keep up or locks here.

namespace FlintDB

open Lib

/-- Where the rows of every table are from does not matter. -/
def SameRows (catalog : Catalog) (rows rows' : String → List (List LiteralValue)) : Prop :=
  ∀ table ∈ catalog.tables, (rows table.name).Perm (rows' table.name)

def Contents.values (contents : Contents) (tableName : String) : List (List LiteralValue) :=
  (contents tableName).map Prod.snd

structure Relations where
  catalog : Catalog
  rows : String → List (List LiteralValue)
  -- the rows from before BEGIN, while a transaction is open
  saved : Option (String → List (List LiteralValue))

namespace Relations

/-- The rows, at no place in particular. -/
def contents (r : Relations) : Contents := fun tableName => (r.rows tableName).map fun values => (⟨0, 0⟩, values)

@[simp] theorem contents_values (r : Relations) : r.contents.values = r.rows := by
  funext tableName
  simp [Contents.values, contents, Function.comp_def]

def nothing : Relations := ⟨emptyCatalog, fun _ => [], none⟩

end Relations

def SelectStatement.heading (stmt : SelectStatement) (catalog : Catalog) : List String :=
  if stmt.selectStar then
    (catalog.findTable stmt.fromTable).toList.flatMap columnNames ++
      stmt.join.toList.flatMap fun join => (catalog.findTable join.tableName).toList.flatMap columnNames
  else stmt.selectList.map ColumnRef.columnName

namespace Relations

def beginTransaction (r : Relations) : Option ExecuteResult × Relations :=
  match r.saved with
  | some _ => (none, r)
  | none => (some {}, { r with saved := some r.rows })

def commit (r : Relations) : Option ExecuteResult × Relations :=
  match r.saved with
  | some _ => (some {}, { r with saved := none })
  | none => (none, r)

def rollback (r : Relations) : Option ExecuteResult × Relations :=
  match r.saved with
  | some rows => (some {}, { r with rows := rows, saved := none })
  | none => (none, r)

/-- A new table has no rows; while a transaction is open there are no new tables. -/
def createTable (r : Relations) (stmt : CreateTableStatement) : Option ExecuteResult × Relations :=
  match r.saved, r.catalog.createTable stmt.tableName stmt.columns stmt.primaryKeyColumn with
  | none, .ok (_, catalog) => (some {}, { r with catalog := catalog, rows := Function.update r.rows stmt.tableName [] })
  | _, _ => (none, r)

def createIndex (r : Relations) (stmt : CreateIndexStatement) : Option ExecuteResult × Relations :=
  match r.saved, r.catalog.createIndex stmt.indexName stmt.tableName stmt.columnName with
  | none, .ok (_, catalog) => (some {}, { r with catalog := catalog })
  | _, _ => (none, r)

open Classical in
noncomputable def mutate (r : Relations) (m : Mutation) : Option ExecuteResult × Relations :=
  match r.catalog.findTable m.tableName with
  | none => (none, r)
  | some table =>
    if m.Rejected r.catalog r.contents then (none, r)
    else (some { rowsAffected := m.touched table (r.rows table.name) },
      { r with rows := Function.update r.rows table.name (m.result table (r.rows table.name)) })

open Classical in
noncomputable def query (r : Relations) (stmt : SelectStatement) : Option ExecuteResult × Relations :=
  if stmt.Meaningful r.catalog then
    (some { rows := naiveSelect r.catalog r.contents stmt, columnNames := stmt.heading r.catalog }, r)
  else (none, r)

noncomputable def execute (r : Relations) : Statement → Option ExecuteResult × Relations
  | .begin => r.beginTransaction
  | .commit => r.commit
  | .rollback => r.rollback
  | .createTable stmt => r.createTable stmt
  | .createIndex stmt => r.createIndex stmt
  | .insert stmt => r.mutate (.insert stmt)
  | .update stmt => r.mutate (.update stmt)
  | .delete stmt => r.mutate (.delete stmt)
  | .select stmt => r.query stmt

@[simp] theorem mutate_catalog (r : Relations) (m : Mutation) : (r.mutate m).2.catalog = r.catalog := by
  rw [mutate]
  split
  · rfl
  · split <;> rfl

@[simp] theorem mutate_saved (r : Relations) (m : Mutation) : (r.mutate m).2.saved = r.saved := by
  rw [mutate]
  split
  · rfl
  · split <;> rfl

/-- No value is found more often in an indexed column than a leaf has room for. -/
def WithinLimits (r : Relations) : Prop :=
  ∀ table ∈ r.catalog.tables, ∀ index ∈ r.catalog.indexesOnTable table.name, ∀ key,
    keyCount table index.columnName key (r.rows table.name) ≤ kLeafMaxKeys

end Relations

section SameRows

variable {catalog : Catalog} {rows rows' : String → List (List LiteralValue)}

theorem SameRows.update (same : SameRows catalog rows rows') (tableName : String) {news news' : List (List LiteralValue)}
    (changed : news.Perm news') :
    SameRows catalog (Function.update rows tableName news) (Function.update rows' tableName news') := by
  intro table isTable
  by_cases here : table.name = tableName
  · rw [here, Function.update_self, Function.update_self]
    exact changed
  · rw [Function.update_of_ne here, Function.update_of_ne here]
    exact same table isTable

namespace Mutation

variable {table : TableInfo} {old old' : List (List LiteralValue)}

theorem result_perm (m : Mutation) (same : old.Perm old') : (m.result table old).Perm (m.result table old') := by
  cases m with
  | insert stmt => exact same.append_right _
  | delete stmt => exact same.filter _
  | update stmt => exact same.map _

theorem written_perm (m : Mutation) (same : old.Perm old') : (m.written table old).Perm (m.written table old') := by
  cases m with
  | insert stmt => exact List.Perm.refl _
  | delete stmt => exact List.Perm.refl _
  | update stmt => exact (same.filter _).map _

theorem touched_perm (m : Mutation) (same : old.Perm old') : m.touched table old = m.touched table old' := by
  cases m with
  | insert stmt => rfl
  | delete stmt => exact same.countP_eq _
  | update stmt => exact same.countP_eq _

theorem rejected_perm (m : Mutation) {contents contents' : Contents}
    (same : SameRows catalog contents.values contents'.values) :
    m.Rejected catalog contents ↔ m.Rejected catalog contents' := by
  refine or_congr Iff.rfl (exists_congr fun table => and_congr_right fun found => ?_)
  have sameHere := same table (Catalog.findTable_eq_some.mp found).1
  have written : ∀ row, row ∈ m.written table (contents.values table.name) ↔
      row ∈ m.written table (contents'.values table.name) := fun row => (m.written_perm sameHere).mem_iff
  have unique : table.KeysUnique (m.result table (contents.values table.name)) ↔
      table.KeysUnique (m.result table (contents'.values table.name)) :=
    ⟨fun once => once.perm (m.result_perm sameHere), fun once => once.perm (m.result_perm sameHere).symm⟩
  exact or_congr Iff.rfl (or_congr (exists_congr fun row => and_congr (written row) Iff.rfl) (not_congr unique))

end Mutation

theorem naiveSelect_perm {contents contents' : Contents} (same : SameRows catalog contents.values contents'.values)
    (stmt : SelectStatement) : (naiveSelect catalog contents stmt).Perm (naiveSelect catalog contents' stmt) := by
  refine ((?_ : (stmt.scopes catalog contents).Perm (stmt.scopes catalog contents')).filter _).map _
  have sameTable : ∀ {tableName table}, catalog.findTable tableName = some table →
      (contents.values table.name).Perm (contents'.values table.name) := fun found =>
    same _ (Catalog.findTable_eq_some.mp found).1
  have viewed : ∀ {γ : Type} (contents : Contents) (tableName : String) (view : List LiteralValue → γ),
      ((contents tableName).map fun row => view row.2) = (contents.values tableName).map view := fun contents tableName
    view => by simp [Contents.values, Function.comp_def]
  rw [SelectStatement.scopes, SelectStatement.scopes]
  cases outerFound : catalog.findTable stmt.fromTable with
  | none => exact List.Perm.refl _
  | some outer =>
    cases joined : stmt.join with
    | none =>
      simp only
      rw [viewed contents outer.name fun values => [(outer, values)],
        viewed contents' outer.name fun values => [(outer, values)]]
      exact (sameTable outerFound).map _
    | some join =>
      cases innerFound : catalog.findTable join.tableName with
      | none =>
        simp only [innerFound]
        exact List.Perm.refl _
      | some inner =>
        simp only [innerFound]
        refine List.Perm.filter _ ?_
        let pairs (contents : Contents) (outerValues : List LiteralValue) : List Scope :=
          (contents.values inner.name).map fun innerValues => [(outer, outerValues), (inner, innerValues)]
        have paired : ∀ contents : Contents, ((contents outer.name).flatMap fun outerRow =>
            (contents inner.name).map fun innerRow => [(outer, outerRow.2), (inner, innerRow.2)]) =
            (contents.values outer.name).flatMap (pairs contents) := fun contents => by
          rw [Contents.values, List.flatMap_map]
          exact List.flatMap_congr fun outerRow _ =>
            viewed contents inner.name fun innerValues => [(outer, outerRow.2), (inner, innerValues)]
        rw [paired, paired]
        exact (sameTable outerFound).flatMap fun outerValues _ => (sameTable innerFound).map _

end SameRows

end FlintDB
