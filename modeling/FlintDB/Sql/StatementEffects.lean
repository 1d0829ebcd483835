import FlintDB.Sql.Lockstep

set_option autoImplicit false

-- Each statement that returns has changed the rows of its table as it says, and the indexes on the table with them.

namespace FlintDB

open Lib Fallible Database

/-- The entries that an index has if it is over these contents. -/
def Catalog.entries (catalog : Catalog) (contents : Contents) (index : IndexInfo) : List (Int × RID) :=
  match catalog.findTable index.tableName with
  | some table => table.entries index.columnName (contents table.name)
  | none => []

namespace Catalog

variable {catalog : Catalog} {table : TableInfo} {index : IndexInfo}

theorem mem_indexesOnTable {tableName : String} :
    index ∈ catalog.indexesOnTable tableName ↔ index ∈ catalog.indexes ∧ index.tableName = tableName := by
  simp [indexesOnTable]

theorem primaryKeyIndex_onTable {tableName : String} (isKey : catalog.primaryKeyIndex tableName = some index) :
    index ∈ catalog.indexesOnTable tableName := by
  have named := List.find?_some isKey
  rw [Bool.and_eq_true, decide_eq_true_eq] at named
  exact mem_indexesOnTable.mpr ⟨List.mem_of_find?_eq_some isKey, named.1⟩

theorem indexesOnTable_nodup (catalog : Catalog) (tableName : String) : (catalog.indexesOnTable tableName).Nodup :=
  ((List.nodup_append.mp catalog.ids_nodup).2.1.of_map).filter _

theorem entries_eq (isTable : table ∈ catalog.tables) (onTable : index ∈ catalog.indexesOnTable table.name)
    (contents : Contents) : catalog.entries contents index = table.entries index.columnName (contents table.name) := by
  have found : catalog.findTable index.tableName = some table :=
    findTable_eq_some.mpr ⟨isTable, (mem_indexesOnTable.mp onTable).2.symm⟩
  rw [entries, found]

theorem entries_update (elsewhere : index ∉ catalog.indexesOnTable table.name)
    (isIndex : index ∈ catalog.indexes) (contents : Contents) (rows : List (RID × List LiteralValue)) :
    catalog.entries (Function.update contents table.name rows) index = catalog.entries contents index := by
  rw [entries, entries]
  split
  · rename_i other found
    have otherName : other.name ≠ table.name := fun same =>
      elsewhere (mem_indexesOnTable.mpr ⟨isIndex, (findTable_eq_some.mp found).2.symm.trans same⟩)
    rw [Function.update_of_ne otherName]
  · rfl

end Catalog

namespace TableInfo

variable {table : TableInfo} {columnName : String}

theorem entries_append (rows more : List (RID × List LiteralValue)) :
    table.entries columnName (rows ++ more) = table.entries columnName rows ++ table.entries columnName more :=
  List.filterMap_append ..

theorem entries_perm {rows rows' : List (RID × List LiteralValue)} (perm : rows.Perm rows') :
    (table.entries columnName rows).Perm (table.entries columnName rows') := perm.filterMap _

theorem entries_singleton {rid : RID} {values : List LiteralValue} {key : Int}
    (keyed : table.keyAt columnName values = some key) : table.entries columnName [(rid, values)] = [(key, rid)] := by
  simp [entries, keyed]

theorem entries_erase {rows : List (RID × List LiteralValue)} {row : RID × List LiteralValue} (present : row ∈ rows)
    {key : Int} (keyed : table.keyAt columnName row.2 = some key) :
    ((table.entries columnName rows).erase (key, row.1)).Perm (table.entries columnName (rows.erase row)) := by
  have split : (table.entries columnName rows).Perm _ := entries_perm (List.perm_cons_erase present)
  have first : table.entries columnName (row :: rows.erase row) =
      (key, row.1) :: table.entries columnName (rows.erase row) := by
    simp [entries, keyed]
  rw [first] at split
  simpa using split.erase (key, row.1)

theorem keys_entries (table : TableInfo) (columnName : String) (rows : List (RID × List LiteralValue)) :
    (table.entries columnName rows).map Prod.fst = (rows.map Prod.snd).filterMap (table.keyAt columnName) := by
  simp only [TableInfo.entries, List.map_filterMap, List.filterMap_map, Function.comp_def, Option.map_map]
  simp

end TableInfo

theorem indexKeyOf_ok {catalog : Catalog} {table : TableInfo} (isTable : table ∈ catalog.tables) {index : IndexInfo}
    (onTable : index ∈ catalog.indexesOnTable table.name) {values : List LiteralValue}
    (row : RowOf table.columns values) :
    ∃ key, indexKeyOf table values index = .ok key ∧ table.keyAt index.columnName values = some key := by
  obtain ⟨column, found, integer⟩ := Catalog.indexesOnTable_integer isTable onTable
  obtain ⟨idx, value, indexed, at_idx, valueAt_eq, -⟩ := row.valueAt found
  refine ⟨value.key, ?_, by rw [TableInfo.keyAt, valueAt_eq, Option.map_some]⟩
  rw [indexKeyOf, indexed]
  simp only [bind, Except.bind, at_idx, orUndefined]
  rfl

theorem Delivers.matched_nodup {contents : Contents} {table : TableInfo} {predicates residual : List Predicate}
    {candidates : List (RID × List LiteralValue)} (delivers : Delivers contents table predicates residual candidates)
    (rids : ((contents table.name).map Prod.fst).Nodup) :
    ((candidates.filter fun row => residual.all (·.passes table row.2)).map Prod.fst).Nodup :=
  (delivers.filtered.map Prod.fst).nodup_iff.mpr (rids.sublist (List.filter_sublist.map _))

def Catalog.IndexNamesDistinct (catalog : Catalog) : Prop := (catalog.indexes.map IndexInfo.name).Nodup

theorem Catalog.findIndex_of_mem {catalog : Catalog} (distinct : catalog.IndexNamesDistinct) {index : IndexInfo}
    (isIndex : index ∈ catalog.indexes) : catalog.findIndex index.name = some index := by
  cases found : catalog.findIndex index.name with
  | none => simpa using List.find?_eq_none.mp found index isIndex
  | some first =>
    have sameName : first.name = index.name := by simpa using List.find?_some found
    rw [List.inj_on_of_nodup_map distinct (List.mem_of_find?_eq_some found) isIndex sameName]

theorem TableInfo.entries_filter (table : TableInfo) (columnName : String) (rows : List (RID × List LiteralValue))
    (key : Int) : ((table.entries columnName rows).filter fun entry => entry.1 = key).map Prod.snd =
      (rows.filter fun row => table.keyAt columnName row.2 = some key).map Prod.fst := by
  induction rows with
  | nil => rfl
  | cons row rows ih =>
    cases keyed : table.keyAt columnName row.2 with
    | none => simpa [TableInfo.entries, keyed] using ih
    | some other => by_cases same : other = key <;> simpa [TableInfo.entries, keyed, same] using ih

namespace Lockstep

variable {catalog : Catalog} {objects : Nat → Option ObjectStorage} {contents : Contents}

theorem stores (lockstep : Lockstep catalog objects contents) : Stores catalog objects contents := by
  refine ⟨fun table isTable => ?_, lockstep.storable⟩
  obtain ⟨file, present, -, rows_eq⟩ := lockstep.heap table isTable
  exact ⟨file, present, rows_eq⟩

theorem indexes (lockstep : Lockstep catalog objects contents) (distinct : catalog.IndexNamesDistinct) :
    Indexes catalog objects contents := by
  intro table isTable index onTable
  obtain ⟨tree, present, represents⟩ := lockstep.index table isTable index onTable
  refine ⟨index, tree, Catalog.findIndex_of_mem distinct (Catalog.mem_indexesOnTable.mp onTable).1, present, fun key => ?_⟩
  obtain ⟨rids, found, perm⟩ := represents.search key
  exact ⟨rids, found, by rwa [TableInfo.entries_filter] at perm⟩

theorem rids_nodup (lockstep : Lockstep catalog objects contents) {table : TableInfo}
    (isTable : table ∈ catalog.tables) : ((contents table.name).map Prod.fst).Nodup := by
  obtain ⟨file, -, sound, rows_eq⟩ := lockstep.heap table isTable
  have nodup := HeapFile.rows_nodup sound
  rwa [rows_eq, List.map_map] at nodup

end Lockstep

theorem perm_append_diff {α : Type} [BEq α] [LawfulBEq α] {taken all : List α} (nodup : taken.Nodup)
    (subset : ∀ a ∈ taken, a ∈ all) : all.Perm (taken ++ all.diff taken) := by
  induction taken generalizing all with
  | nil => exact List.Perm.refl _
  | cons a taken ih =>
    rw [List.nodup_cons] at nodup
    have rest : (all.erase a).Perm (taken ++ (all.erase a).diff taken) := ih nodup.2 fun b isTaken => by
      have different : b ≠ a := fun same => nodup.1 (same ▸ isTaken)
      exact (List.mem_erase_of_ne different).mpr (subset b (List.mem_cons_of_mem _ isTaken))
    rw [List.diff_cons]
    exact (List.perm_cons_erase (subset a List.mem_cons_self)).trans (rest.cons a)

/-- How many of the rows have the key in the column. -/
def keyCount (table : TableInfo) (columnName : String) (key : Int) (rows : List (List LiteralValue)) : Nat :=
  (rows.filterMap (table.keyAt columnName)).count key

section KeyCount

variable {table : TableInfo} {columnName : String} {key : Int}

theorem keyCount_append (rows more : List (List LiteralValue)) :
    keyCount table columnName key (rows ++ more) =
      keyCount table columnName key rows + keyCount table columnName key more := by
  simp [keyCount, List.filterMap_append, List.count_append]

theorem keyCount_le_length (rows : List (List LiteralValue)) : keyCount table columnName key rows ≤ rows.length :=
  List.count_le_length.trans (List.length_filterMap_le _ _)

theorem keyCount_perm {rows rows' : List (List LiteralValue)} (perm : rows.Perm rows') :
    keyCount table columnName key rows = keyCount table columnName key rows' := (perm.filterMap _).count_eq key

theorem keyCount_eq_length {rows : List (List LiteralValue)}
    (all : ∀ row ∈ rows, table.keyAt columnName row = some key) : keyCount table columnName key rows = rows.length := by
  induction rows with
  | nil => rfl
  | cons row rows ih =>
    rw [List.forall_mem_cons] at all
    have rest := ih all.2
    simp only [keyCount] at rest
    simp [keyCount, all.1, rest]

theorem keyCount_taken {rows taken : List (RID × List LiteralValue)} (nodup : taken.Nodup)
    (subset : ∀ row ∈ taken, row ∈ rows) : keyCount table columnName key (rows.map Prod.snd) =
      keyCount table columnName key (taken.map Prod.snd) +
        keyCount table columnName key ((rows.diff taken).map Prod.snd) := by
  rw [keyCount_perm ((perm_append_diff nodup subset).map Prod.snd), List.map_append, keyCount_append]

theorem keyCount_singleton {values : List LiteralValue} (keyed : table.keyAt columnName values = some key) :
    keyCount table columnName key [values] = 1 := by
  simp [keyCount, keyed]

end KeyCount

def FewKeys (catalog : Catalog) (table : TableInfo) (rows : List (List LiteralValue)) (index : IndexInfo) : Prop :=
  index ∈ catalog.indexesOnTable table.name → ∀ key, keyCount table index.columnName key rows ≤ kLeafMaxKeys

def KeyTaken (catalog : Catalog) (contents : Contents) (table : TableInfo) (values : List LiteralValue) : Prop :=
  ∃ index, catalog.primaryKeyIndex table.name = some index ∧ ∃ row ∈ contents table.name,
    table.keyAt index.columnName row.2 = table.keyAt index.columnName values

def RefusedBatch (catalog : Catalog) (contents : Contents) (table : TableInfo) (updates : List RowUpdate) : Prop :=
  (∃ update ∈ updates, HeapFile.kMaxRowSize < (update.newBytes table).length) ∨
  ∃ index, catalog.primaryKeyIndex table.name = some index ∧
    (¬ (updates.filterMap fun update => table.keyAt index.columnName update.newValues).Nodup ∨
      ∃ update ∈ updates, ∃ row ∈ contents table.name, row.1 ∉ updates.map RowUpdate.rid ∧
        table.keyAt index.columnName row.2 = table.keyAt index.columnName update.newValues)

def InsertStatement.Refused (stmt : InsertStatement) (catalog : Catalog) (contents : Contents) (table : TableInfo) :
    Prop :=
  ¬ RowOf table.columns stmt.values ∨ KeyTaken catalog contents table stmt.values ∨
    HeapFile.kMaxRowSize < (encodeRow table.columns stmt.values).length

namespace Database

variable {origin : Database} {followed : IndexInfo → Prop} {contents : Contents} {stored : IndexInfo → List (Int × RID)}

theorem Holds.perm {db : Database} (holds : origin.Holds followed contents stored db)
    {stored' : IndexInfo → List (Int × RID)}
    (perm : ∀ index ∈ origin.catalog.indexes, (stored index).Perm (stored' index)) :
    origin.Holds followed contents stored' db := by
  refine ⟨holds.extended, holds.heap, fun index isIndex => ?_⟩
  obtain ⟨tree, present, represents⟩ := holds.index index isIndex
  exact ⟨tree, present, fun isFollowed room => (represents isFollowed room).perm (perm index isIndex)⟩

def Agrees (origin : Database) (followed : IndexInfo → Prop) (contents : Contents) : Database → Prop :=
  origin.Holds followed contents (origin.catalog.entries contents)

section Indexes

variable {table : TableInfo} (isTable : table ∈ origin.catalog.tables)
include isTable

theorem forIndexes_holds {values : List LiteralValue} (row : RowOf table.columns values)
    (operation : IndexInfo → Int → DatabaseM Unit) (effect : Int → List (Int × RID) → List (Int × RID))
    (each : ∀ index ∈ origin.catalog.indexesOnTable table.name, ∀ key before,
      table.keyAt index.columnName values = some key → before index = stored index →
      Meets (origin.Holds followed contents before) (operation index key)
        (fun _ => origin.Holds followed contents (Function.update before index (effect key (stored index))))
        (origin.Cramped followed)) :
    Meets (origin.Holds followed contents stored)
      ((origin.catalog.indexesOnTable table.name).forM fun index => (do
        let key ← indexKeyOf table values index
        operation index key : DatabaseM Unit))
      (fun _ db => ∃ after, ((∀ index ∈ origin.catalog.indexesOnTable table.name, ∀ key,
          table.keyAt index.columnName values = some key → after index = effect key (stored index)) ∧
        ∀ index ∉ origin.catalog.indexesOnTable table.name, after index = stored index) ∧
        origin.Holds followed contents after db) (origin.Cramped followed) := by
  let reached (done : List IndexInfo) (db : Database) : Prop := ∃ after,
    ((∀ index ∈ done, ∀ key, table.keyAt index.columnName values = some key → after index = effect key (stored index)) ∧
      ∀ index ∉ done, after index = stored index) ∧ origin.Holds followed contents after db
  have enter : ∀ db, origin.Holds followed contents stored db → reached [] db := fun db holds =>
    ⟨stored, ⟨by simp, fun _ _ => rfl⟩, holds⟩
  refine Meets.of_pre enter (Meets.forM reached fun done index rest split => ?_)
  refine Meets.of_exists fun before => Meets.of_fact fun ⟨changed, unchanged⟩ => ?_
  have onTable : index ∈ origin.catalog.indexesOnTable table.name := by simp [split]
  have fresh : index ∉ done := by
    have nodup := origin.catalog.indexesOnTable_nodup table.name
    rw [split, List.nodup_append] at nodup
    exact fun isDone => nodup.2.2 index isDone index (by simp) rfl
  obtain ⟨key, computed, keyed⟩ := indexKeyOf_ok isTable onTable row
  rw [computed]
  refine Meets.ok_bind ((each index onTable key before keyed (unchanged index fresh)).of_post fun _ db holds => ?_)
  refine ⟨_, ⟨fun other isDone key' keyed' => ?_, fun other notDone => ?_⟩, holds⟩
  · rcases List.mem_append.mp isDone with earlier | now
    · have different : other ≠ index := fun same => fresh (same ▸ earlier)
      rw [Function.update_of_ne different]
      exact changed other earlier key' keyed'
    · cases List.mem_singleton.mp now
      cases keyed.symm.trans keyed'
      rw [Function.update_self]
  · simp only [List.mem_append, List.mem_singleton, not_or] at notDone
    rw [Function.update_of_ne notDone.2]
    exact unchanged other notDone.1

theorem insertIntoAllIndexes_holds (contents : Contents) {rows : List (RID × List LiteralValue)}
    {values : List LiteralValue} (row : RowOf table.columns values) (rid : RID)
    (few : ∀ index ∈ origin.catalog.indexesOnTable table.name, followed index → ∀ key,
      table.keyAt index.columnName values = some key →
      ((table.entries index.columnName rows).map Prod.fst).count key < kLeafMaxKeys) :
    Meets (origin.Holds followed (Function.update contents table.name (rows ++ [(rid, values)]))
        (origin.catalog.entries (Function.update contents table.name rows)))
      (insertIntoAllIndexes origin.catalog table values rid)
      (fun _ => origin.Holds followed (Function.update contents table.name (rows ++ [(rid, values)]))
        (origin.catalog.entries (Function.update contents table.name (rows ++ [(rid, values)]))))
      (origin.Cramped followed) := by
  have entries_eq : ∀ index ∈ origin.catalog.indexesOnTable table.name, ∀ rows',
      origin.catalog.entries (Function.update contents table.name rows') index =
        table.entries index.columnName rows' := fun index onTable rows' => by
    rw [Catalog.entries_eq isTable onTable, Function.update_self]
  refine (forIndexes_holds isTable row (fun index key => indexInsert index.objectId key rid)
    (fun key entries => (key, rid) :: entries) fun index onTable key before keyed same => ?_).of_post
      fun _ db ⟨after, ⟨changed, unchanged⟩, holds⟩ => holds.perm fun index isIndex => ?_
  · rw [← same]
    refine indexInsert_holds (Catalog.mem_indexesOnTable.mp onTable).1 key rid fun isFollowed => ?_
    rw [same, entries_eq index onTable]
    exact few index onTable isFollowed key keyed
  · by_cases onTable : index ∈ origin.catalog.indexesOnTable table.name
    · obtain ⟨key, -, keyed⟩ := indexKeyOf_ok isTable onTable row
      rw [changed index onTable key keyed, entries_eq index onTable, entries_eq index onTable,
        TableInfo.entries_append, TableInfo.entries_singleton keyed]
      exact (List.perm_append_singleton _ _).symm
    · rw [unchanged index onTable, Catalog.entries_update onTable isIndex, Catalog.entries_update onTable isIndex]

theorem deleteFromAllIndexes_holds {row : RID × List LiteralValue} (present : row ∈ contents table.name)
    (typed : RowOf table.columns row.2) :
    Meets (origin.Holds followed contents (origin.catalog.entries contents))
      (deleteFromAllIndexes origin.catalog table row.2 row.1)
      (fun _ => origin.Holds followed contents
        (origin.catalog.entries (Function.update contents table.name ((contents table.name).erase row))))
      (origin.Cramped followed) := by
  refine (forIndexes_holds isTable typed (fun index key => do let _ ← indexDelete index.objectId key row.1)
    (fun key entries => entries.erase (key, row.1)) fun index onTable key before keyed same => ?_).of_post
      fun _ db ⟨after, ⟨changed, unchanged⟩, holds⟩ => holds.perm fun index isIndex => ?_
  · rw [← same]
    exact Meets.bind (indexDelete_holds (Catalog.mem_indexesOnTable.mp onTable).1 key row.1) fun _ =>
      Meets.pure _ fun db holds => holds
  · by_cases onTable : index ∈ origin.catalog.indexesOnTable table.name
    · obtain ⟨key, -, keyed⟩ := indexKeyOf_ok isTable onTable typed
      rw [changed index onTable key keyed, Catalog.entries_eq isTable onTable, Catalog.entries_eq isTable onTable,
        Function.update_self]
      exact TableInfo.entries_erase present keyed
    · rw [unchanged index onTable, Catalog.entries_update onTable isIndex]

theorem insertRow_agrees (contents : Contents) {rows : List (RID × List LiteralValue)} {values : List LiteralValue}
    (storable : table.Storable values)
    (few : ∀ index ∈ origin.catalog.indexesOnTable table.name, followed index → ∀ key,
      table.keyAt index.columnName values = some key →
      ((table.entries index.columnName rows).map Prod.fst).count key < kLeafMaxKeys) :
    Meets (origin.Agrees followed (Function.update contents table.name rows))
      (do
        let rid ← heapInsert table.heapObjectId (encodeRow table.columns values)
        insertIntoAllIndexes origin.catalog table values rid)
      (fun _ db => ∃ rid, origin.Agrees followed (Function.update contents table.name (rows ++ [(rid, values)])) db)
      (origin.Cramped followed) := by
  refine Meets.bind (heapInsert_holds isTable storable) fun rid => ?_
  rw [Function.update_idem, Function.update_self]
  exact (insertIntoAllIndexes_holds isTable contents storable.row rid few).of_post fun _ db agrees => ⟨rid, agrees⟩

theorem deleteRow_agrees (contents : Contents) {rows : List (RID × List LiteralValue)} {row : RID × List LiteralValue}
    (present : row ∈ rows) (typed : RowOf table.columns row.2) :
    Meets (origin.Agrees followed (Function.update contents table.name rows))
      (deleteRow origin.catalog table table.heapObjectId row)
      (fun _ => origin.Agrees followed (Function.update contents table.name (rows.erase row))) (origin.Cramped followed) := by
  have here : row ∈ Function.update contents table.name rows table.name := by rwa [Function.update_self]
  refine Meets.bind (deleteFromAllIndexes_holds isTable here typed) fun _ => ?_
  rw [Function.update_idem, Function.update_self]
  refine Meets.bind (heapDelete_holds isTable here) fun _ => Meets.pure _ fun db agrees => ?_
  rwa [Function.update_idem, Function.update_self] at agrees

end Indexes

def FewRepeated (catalog : Catalog) (contents : Contents) (index : IndexInfo) : Prop :=
  ∀ key, ((catalog.entries contents index).map Prod.fst).count key ≤ kLeafMaxKeys

structure SettlesAs (origin : Database) (contents : Contents) (db : Database) : Prop where
  storable : ∀ table ∈ origin.catalog.tables, ∀ row ∈ contents table.name, table.Storable row.2
  agrees : origin.Agrees (FewRepeated origin.catalog contents) contents db

theorem Agrees.settlesAs {db : Database} (agrees : origin.Agrees followed contents db)
    (storable : ∀ table ∈ origin.catalog.tables, ∀ row ∈ contents table.name, table.Storable row.2)
    (follows : ∀ index ∈ origin.catalog.indexes, FewRepeated origin.catalog contents index → followed index) :
    origin.SettlesAs contents db := by
  refine ⟨storable, agrees.extended, agrees.heap, fun index isIndex => ?_⟩
  obtain ⟨tree, present, represents⟩ := agrees.index index isIndex
  exact ⟨tree, present, fun few room => represents (follows index isIndex few) room⟩

theorem storable_update {catalog : Catalog} {table : TableInfo} (isTable : table ∈ catalog.tables)
    (storable : ∀ table ∈ catalog.tables, ∀ row ∈ contents table.name, table.Storable row.2)
    {rows : List (RID × List LiteralValue)} (rowsStorable : ∀ row ∈ rows, table.Storable row.2) :
    ∀ other ∈ catalog.tables, ∀ row ∈ Function.update contents table.name rows other.name, other.Storable row.2 := by
  intro other isOther row isRow
  by_cases same : other.name = table.name
  · have isThis : other = table := List.inj_on_of_nodup_map catalog.names_nodup isOther isTable same
    rw [isThis, Function.update_self] at isRow
    rw [isThis]
    exact rowsStorable row isRow
  · rw [Function.update_of_ne same] at isRow
    exact storable other isOther row isRow

theorem Agrees.settlesAs_update {db : Database} {table : TableInfo} {rows : List (RID × List LiteralValue)}
    (agrees : origin.Agrees followed (Function.update contents table.name rows) db)
    (isTable : table ∈ origin.catalog.tables)
    (storable : ∀ table ∈ origin.catalog.tables, ∀ row ∈ contents table.name, table.Storable row.2)
    (rowsStorable : ∀ row ∈ rows, table.Storable row.2)
    (follows : ∀ index, FewKeys origin.catalog table (rows.map Prod.snd) index → followed index) :
    origin.SettlesAs (Function.update contents table.name rows) db := by
  refine agrees.settlesAs (storable_update isTable storable rowsStorable) fun index isIndex few => ?_
  refine follows index fun onTable key => ?_
  have atMost := few key
  rwa [Catalog.entries_eq isTable onTable, Function.update_self, TableInfo.keys_entries] at atMost

theorem still_of_alone {db : Database} (alone : db.Alone) : db.Still db := ⟨alone, ⟨rfl, rfl, rfl⟩, rfl⟩

theorem Still.shows {db : Database} (unchanged : origin.Still db) :
    Shows (fun _ _ => False) origin.catalog origin.objects db := by
  have alone := unchanged.alone
  refine ⟨⟨alone.still, alone.consistent, fun txnId current other key exclusive => ?_,
    fun txnId current other key held => ?_⟩, unchanged.frame.catalog_eq, unchanged.objects_eq⟩
  · exact Option.some.inj ((alone.own other key (.inl exclusive)).symm.trans current)
  · exact .inl (Option.some.inj ((alone.own other key held).symm.trans current))

theorem Still.agrees {db : Database} (unchanged : origin.Still db)
    (lockstep : Lockstep origin.catalog origin.objects contents) : origin.Agrees followed contents db := by
  refine ⟨unchanged.extended, fun table isTable => ?_, fun index isIndex => ?_⟩
  · obtain ⟨file, present, sound, rows_eq⟩ := lockstep.heap table isTable
    exact ⟨file, unchanged.objects_eq ▸ present, fun _ => ⟨sound, rows_eq⟩⟩
  · obtain ⟨table, isTable, named, -⟩ := origin.catalog.indexes_integer index isIndex
    have onTable : index ∈ origin.catalog.indexesOnTable table.name :=
      Catalog.mem_indexesOnTable.mpr ⟨isIndex, named.symm⟩
    obtain ⟨tree, present, represents⟩ := lockstep.index table isTable index onTable
    exact ⟨tree, unchanged.objects_eq ▸ present, fun _ _ => by rwa [Catalog.entries_eq isTable onTable]⟩

theorem lockPage_still (objectId pageId : Nat) (mode : LockMode) :
    Keeps origin.Still (lockPage objectId pageId mode) :=
  lockPage_meets objectId pageId mode (fun _ unchanged => unchanged.alone) fun _ _ unchanged alone =>
    ⟨alone, ⟨unchanged.frame.1, unchanged.frame.2, unchanged.frame.3⟩, unchanged.objects_eq⟩

theorem getIndex_still (objectId : Nat) : Keeps origin.Still (getIndex objectId) := by
  refine Meets.get_bind_any fun db _ => ?_
  split
  · exact Meets.pure _ fun _ unchanged => unchanged
  · exact Meets.throw _ fun _ unchanged => unchanged

theorem readHeapFile_still (objectId : Nat) : Keeps origin.Still (getHeapFile objectId) := by
  refine Meets.get_bind_any fun db _ => ?_
  split
  · exact Meets.pure _ fun _ unchanged => unchanged
  · exact Meets.throw _ fun _ unchanged => unchanged

theorem heapFileForTable_still (tableName : String) : Keeps origin.Still (heapFileForTable tableName) := by
  refine Meets.get_bind_any fun db _ => ?_
  split
  · exact Meets.pure _ fun _ unchanged => unchanged
  · exact Meets.throw _ fun _ unchanged => unchanged

theorem indexByName_still (indexName : String) : Keeps origin.Still (indexByName indexName) := by
  refine Meets.get_bind_any fun db _ => ?_
  split
  · exact Meets.pure _ fun _ unchanged => unchanged
  · exact Meets.throw _ fun _ unchanged => unchanged

theorem indexSearch_still (objectId : Nat) (key : Int) : Keeps origin.Still (indexSearch objectId key) := by
  refine Meets.bind (lockPage_still _ _ _) fun _ => Meets.bind (getIndex_still objectId) fun tree => ?_
  exact Meets.lift (fun _ _ _ unchanged => unchanged) fun _ unchanged => unchanged

theorem heapGetRow_still (objectId : Nat) (rid : RID) : Keeps origin.Still (heapGetRow objectId rid) := by
  refine Meets.bind (readHeapFile_still objectId) fun file => ?_
  split
  · refine Meets.bind (lockPage_still _ _ _) fun _ => Meets.bind (readHeapFile_still objectId) fun file => ?_
    exact Meets.pure _ fun _ unchanged => unchanged
  · exact Meets.pure _ fun _ unchanged => unchanged

theorem heapScan_still (objectId : Nat) : Keeps origin.Still (heapScan objectId) := by
  refine Meets.bind (readHeapFile_still objectId) fun file => Meets.collect (fun pageId => ?_) file.pageIds
  refine Meets.bind (lockPage_still _ _ _) fun _ => Meets.bind (readHeapFile_still objectId) fun file => ?_
  exact Meets.pure _ fun _ unchanged => unchanged

theorem fetchRows_still (heap : Nat) (outOfSync : Exception) (rids : List RID) :
    Keeps origin.Still (fetchRows heap outOfSync rids) := by
  refine Meets.collect (fun rid => Meets.bind (heapGetRow_still heap rid) fun found => ?_) rids
  cases found with
  | some rowBytes => exact Meets.pure _ fun _ unchanged => unchanged
  | none => exact Meets.throw _ fun _ unchanged => unchanged

theorem fetchCandidateRows_still (access : TableAccessPlan) : Keeps origin.Still (fetchCandidateRows access) := by
  unfold fetchCandidateRows
  split
  · exact Meets.bind (heapFileForTable_still _) fun heap => heapScan_still heap
  · refine Meets.bind (indexByName_still _) fun index => Meets.bind (heapFileForTable_still _) fun heap => ?_
    exact Meets.bind (indexSearch_still _ _) fun rids => fetchRows_still _ _ _

theorem reads {α : Type} {E : Database → Prop} {program : DatabaseM α} {a : α} (keeps : Keeps origin.Still program)
    (yields : Yields (Shows (fun _ _ => False) origin.catalog origin.objects) program a) :
    Meets origin.Still program (fun b db => b = a ∧ origin.Still db) E :=
  Meets.of_yields keeps yields fun _ unchanged => unchanged.shows

theorem fetchCandidateRows_reads (lockstep : Lockstep origin.catalog origin.objects contents)
    (distinct : origin.catalog.IndexNamesDistinct) {table : TableInfo} {tableName : String}
    (found : origin.catalog.findTable tableName = some table) {predicates : List Predicate} {access : TableAccessPlan}
    (planned : planTableAccess origin.catalog tableName predicates = .ok access) :
    ∃ candidates : List (RID × List LiteralValue),
      (∀ E, Meets origin.Still (fetchCandidateRows access) (fun rows db =>
        rows = candidates.map table.encode ∧ origin.Still db) E) ∧
      Delivers contents table predicates access.residualPredicates candidates := by
  obtain ⟨table', candidates, found', -, -, yields, delivers⟩ :=
    fetchCandidateRows_yields (fun _ _ => False) lockstep.stores (lockstep.indexes distinct) planned
  cases found.symm.trans found'
  exact ⟨candidates, fun E => reads (fetchCandidateRows_still access) yields, delivers⟩

theorem indexSearch_reads {E : Database → Prop} (lockstep : Lockstep origin.catalog origin.objects contents)
    {table : TableInfo} (isTable : table ∈ origin.catalog.tables) {index : IndexInfo}
    (onTable : index ∈ origin.catalog.indexesOnTable table.name) (key : Int) :
    Meets origin.Still (indexSearch index.objectId key) (fun rids db => rids.Perm
      (((contents table.name).filter fun row => table.keyAt index.columnName row.2 = some key).map Prod.fst) ∧
        origin.Still db) E := by
  obtain ⟨tree, present, represents⟩ := lockstep.index table isTable index onTable
  obtain ⟨rids, found, perm⟩ := represents.search key
  rw [TableInfo.entries_filter] at perm
  exact (reads (indexSearch_still _ _) (indexSearch_yields present found)).of_post fun _ db ⟨same, unchanged⟩ =>
    ⟨same ▸ perm, unchanged⟩

theorem checkPrimaryKeyUniqueness_reads (lockstep : Lockstep origin.catalog origin.objects contents)
    {table : TableInfo} (isTable : table ∈ origin.catalog.tables) {values : List LiteralValue}
    (row : RowOf table.columns values) :
    Meets origin.Still (checkPrimaryKeyUniqueness origin.catalog table values)
      (fun _ db => ¬ KeyTaken origin.catalog contents table values ∧ origin.Still db)
      (fun db => KeyTaken origin.catalog contents table values ∧ origin.Still db) := by
  unfold checkPrimaryKeyUniqueness
  cases isKey : origin.catalog.primaryKeyIndex table.name with
  | none =>
    refine Meets.pure _ fun db unchanged => ⟨fun ⟨index, isKey', _⟩ => ?_, unchanged⟩
    cases isKey.symm.trans isKey'
  | some index =>
    have onTable := Catalog.primaryKeyIndex_onTable isKey
    obtain ⟨key, computed, keyed⟩ := indexKeyOf_ok isTable onTable row
    simp only [computed]
    refine Meets.ok_bind (Meets.bind (indexSearch_reads lockstep isTable onTable key) fun rids =>
      Meets.of_fact fun perm => ?_)
    split
    · rename_i nothing
      refine Meets.pure _ fun db unchanged => ⟨fun ⟨index', isKey', other, isRow, same⟩ => ?_, unchanged⟩
      cases isKey.symm.trans isKey'
      rw [nothing, List.nil_perm, List.map_eq_nil_iff, List.filter_eq_nil_iff] at perm
      exact perm other isRow (decide_eq_true (same.trans keyed))
    · rename_i something
      refine Meets.throw _ fun db unchanged => ⟨⟨index, isKey, ?_⟩, unchanged⟩
      obtain ⟨rid, isFound⟩ := List.exists_mem_of_ne_nil _ something
      obtain ⟨other, isOther, -⟩ := List.mem_map.mp (perm.mem_iff.mp isFound)
      obtain ⟨isRow, same⟩ := List.mem_filter.mp isOther
      exact ⟨other, isRow, (of_decide_eq_true same).trans keyed.symm⟩

theorem validateValuesAgainstColumns_ok {table : TableInfo} {values : List LiteralValue} :
    validateValuesAgainstColumns table values = .ok () ↔ RowOf table.columns values := by
  rw [validateValuesAgainstColumns]
  split
  · rename_i different
    refine ⟨fun valid => ?_, fun row => absurd (List.Forall₂.length_eq row).symm different⟩
    cases valid
  · rename_i sameLength
    rw [ne_eq, Decidable.not_not] at sameLength
    rw [forM_eq_ok, RowOf, List.forall₂_iff_zip]
    refine ⟨fun valid => ⟨sameLength.symm, fun {column value} member => ?_⟩, fun row pair member => ?_⟩
    · exact requireLiteralMatchesColumn_ok.mp (valid (column, value) member)
    · exact requireLiteralMatchesColumn_ok.mpr (row.2 member)

theorem executeInsert_spec (stmt : InsertStatement) (lockstep : Lockstep origin.catalog origin.objects contents)
    (alone : origin.Alone) {table : TableInfo} (found : origin.catalog.findTable stmt.tableName = some table) :
    Meets (· = origin) (executeInsert stmt)
      (fun result db => (¬ stmt.Refused origin.catalog contents table ∧ result.rowsAffected = 1) ∧ ∃ rid,
        origin.SettlesAs (Function.update contents table.name (contents table.name ++ [(rid, stmt.values)])) db)
      (fun db => (stmt.Refused origin.catalog contents table ∧ origin.Still db) ∨
        ¬ stmt.Refused origin.catalog contents table ∧
          origin.Cramped (FewKeys origin.catalog table ((contents table.name).map Prod.snd ++ [stmt.values])) db) := by
  obtain ⟨isTable, named⟩ := Catalog.findTable_eq_some.mp found
  have enter : ∀ db, db = origin → origin.Still db := by
    rintro db rfl
    exact still_of_alone alone
  refine Meets.of_pre enter (Meets.get_bind_any fun db unchanged => ?_)
  simp only [unchanged.frame.catalog_eq, found]
  by_cases row : RowOf table.columns stmt.values
  · rw [validateValuesAgainstColumns_ok.mpr row]
    refine Meets.ok_bind (Meets.bind ((checkPrimaryKeyUniqueness_reads lockstep isTable row).of_error
      fun db ⟨taken, unchanged⟩ => .inl ⟨.inr (.inl taken), unchanged⟩) fun _ => Meets.of_fact fun free => ?_)
    refine Meets.bind (reads (heapFileForTable_still _) (heapFileForTable_yields found)) fun heap =>
      Meets.of_fact fun same => ?_
    subst same
    by_cases fits : (encodeRow table.columns stmt.values).length ≤ HeapFile.kMaxRowSize
    · have accepted : ¬ stmt.Refused origin.catalog contents table := by
        rintro (badRow | taken | tooLarge)
        · exact badRow row
        · exact free taken
        · exact Nat.not_lt.mpr fits tooLarge
      have agrees : ∀ db, origin.Still db → origin.Agrees (FewKeys origin.catalog table
          ((contents table.name).map Prod.snd ++ [stmt.values]))
            (Function.update contents table.name (contents table.name)) db := fun db unchanged => by
        rw [Function.update_eq_self]
        exact unchanged.agrees lockstep
      refine Meets.of_pre agrees (Meets.bind_bind ((insertRow_agrees isTable contents ⟨row, fits⟩
        fun index onTable isFollowed key keyed => ?_).of_error fun db cramped => .inr ⟨accepted, cramped⟩) fun _ =>
          Meets.pure _ fun db ⟨rid, agrees⟩ => ⟨⟨accepted, rfl⟩, rid, agrees.settlesAs_update isTable lockstep.storable
            (fun other isRow => ?_) fun index few => ?_⟩)
      · have atMost := isFollowed onTable key
        rw [keyCount_append, keyCount_singleton keyed] at atMost
        rw [TableInfo.keys_entries]
        exact atMost
      · rcases List.mem_append.mp isRow with older | newest
        · exact lockstep.storable table isTable other older
        · rw [List.mem_singleton.mp newest]
          exact ⟨row, fits⟩
      · simpa using few
    · rw [heapInsert, if_pos (Nat.lt_of_not_le fits)]
      exact Meets.throw _ fun db unchanged => .inl ⟨.inr (.inr (Nat.lt_of_not_le fits)), unchanged⟩
  · cases valid : validateValuesAgainstColumns table stmt.values with
    | ok _ => exact absurd (validateValuesAgainstColumns_ok.mp valid) row
    | error e => exact fun db unchanged => .inl ⟨.inl row, unchanged⟩

theorem executeDelete_spec (stmt : DeleteStatement) (lockstep : Lockstep origin.catalog origin.objects contents)
    (distinct : origin.catalog.IndexNamesDistinct) (alone : origin.Alone) {table : TableInfo}
    (found : origin.catalog.findTable stmt.tableName = some table) {access : TableAccessPlan}
    (planned : planTableAccess origin.catalog stmt.tableName stmt.wherePredicates = .ok access) :
    ∃ matched : List (RID × List LiteralValue), matched.Perm
        ((contents table.name).filter fun row => stmt.wherePredicates.all (·.passes table row.2)) ∧
      Meets (· = origin) (executeDelete stmt) (fun result db => result.rowsAffected = matched.length ∧
        origin.SettlesAs (Function.update contents table.name ((contents table.name).diff matched)) db)
        (origin.Cramped fun _ => True) := by
  obtain ⟨candidates, fetched, delivers⟩ := fetchCandidateRows_reads lockstep distinct found planned
  obtain ⟨isTable, named⟩ := Catalog.findTable_eq_some.mp found
  let passes (row : RID × List LiteralValue) : Bool := access.residualPredicates.all (·.passes table row.2)
  refine ⟨candidates.filter passes, delivers.filtered, ?_⟩
  have enter : ∀ db, db = origin → origin.Still db := by
    rintro db rfl
    exact still_of_alone alone
  refine Meets.of_pre enter (Meets.get_bind_any fun db unchanged => ?_)
  simp only [unchanged.frame.catalog_eq, planned]
  refine Meets.ok_bind ?_
  rw [found]
  refine Meets.ok_bind (Meets.bind (reads (heapFileForTable_still _) (heapFileForTable_yields found)) fun heap =>
    Meets.of_fact fun same => ?_)
  subst same
  refine Meets.bind (fetched _) fun rows => Meets.of_fact fun same => ?_
  subst same
  have nodup := delivers.matched_nodup (lockstep.rids_nodup isTable)
  have deleted : Meets origin.Still (Fallible.collect (executeDelete.deleteIfMatching origin.catalog table
      table.heapObjectId access.residualPredicates) (candidates.map table.encode))
      (fun result db => result = candidates.filter passes ∧ origin.Agrees (fun _ => True)
        (Function.update contents table.name ((contents table.name).diff (candidates.filter passes))) db)
      (origin.Cramped fun _ => True) := by
    have agrees : ∀ db, origin.Still db → origin.Agrees (fun _ => True)
        (Function.update contents table.name ((contents table.name).diff [])) db := fun db unchanged => by
      rw [List.diff_nil, Function.update_eq_self]
      exact unchanged.agrees lockstep
    refine Meets.of_pre agrees (Meets.collect_filter table.encode passes
      (fun done => origin.Agrees (fun _ => True)
        (Function.update contents table.name ((contents table.name).diff done))) fun done row rest split => ?_)
    have isCandidate : row ∈ candidates := by simp [split]
    have storable := lockstep.storable table isTable row (delivers.mem row isCandidate)
    unfold executeDelete.deleteIfMatching
    rw [matchRow_ok storable fun pred isPred => (delivers.fits pred isPred).column]
    refine Meets.ok_bind ?_
    cases pass : passes row with
    | false =>
      simp only [passes] at pass
      rw [pass]
      intro db agrees
      refine ⟨by simp [passes, pass], ?_⟩
      simpa [passes, pass] using agrees
    | true =>
      have remains : row ∈ (contents table.name).diff (done.filter passes) := by
        refine List.mem_diff_of_mem (delivers.mem row isCandidate) fun isDone => ?_
        rw [split, List.filter_append, List.filter_cons_of_pos pass] at nodup
        exact (List.nodup_append.mp nodup.of_map).2.2 row isDone row (by simp) rfl
      have deletes : Meets (origin.Agrees (fun _ => True)
          (Function.update contents table.name ((contents table.name).diff (done.filter passes))))
          ([row].forM (deleteRow origin.catalog table table.heapObjectId)) (fun _ => origin.Agrees (fun _ => True)
            (Function.update contents table.name (((contents table.name).diff (done.filter passes)).erase row)))
          (origin.Cramped fun _ => True) :=
        Meets.bind (deleteRow_agrees isTable contents remains storable.row) fun _ => Meets.pure _ fun _ agrees => agrees
      simp only [passes] at pass
      rw [pass]
      refine Meets.bind deletes fun _ => Meets.pure _ fun db agrees => ⟨by simp [passes, pass], ?_⟩
      simpa [passes, pass, List.diff_append] using agrees
  refine Meets.bind deleted fun result => Meets.of_fact fun same => Meets.pure _ fun db agrees => ?_
  refine ⟨by rw [same], agrees.settlesAs_update isTable lockstep.storable (fun row isRow => ?_) fun _ _ => trivial⟩
  exact lockstep.storable table isTable row (List.diff_subset _ _ isRow)

def oldRow (update : RowUpdate) : RID × List LiteralValue := (update.rid, update.oldValues)

theorem assign_getElem? (assignments : List (Nat × LiteralValue)) (place : Nat) :
    (∃ value, ∀ values : List LiteralValue, place < values.length →
      (assign assignments values)[place]? = some value) ∨
    ∀ values, (assign assignments values)[place]? = values[place]? := by
  induction assignments with
  | nil => exact .inr fun values => rfl
  | cons assignment assignments ih =>
    obtain ⟨idx, value⟩ := assignment
    rcases ih with ⟨later, assigned⟩ | kept
    · exact .inl ⟨later, fun values within => assigned (values.set idx value) (by simpa using within)⟩
    · by_cases here : idx = place
      · subst here
        exact .inl ⟨value, fun values within => (kept (values.set idx value)).trans (by simp [within])⟩
      · exact .inr fun values => (kept (values.set idx value)).trans (List.getElem?_set_ne here)

theorem rowOf_set {columns : List ColumnDef} {values : List LiteralValue} (row : RowOf columns values) {idx : Nat}
    {column : ColumnDef} (here : columns[idx]? = some column) {value : LiteralValue}
    (typed : column.type = value.type) : RowOf columns (values.set idx value) := by
  induction row generalizing idx with
  | nil => cases here
  | cons head tail ih =>
    cases idx with
    | zero =>
      cases here
      exact .cons typed tail
    | succ idx => exact .cons head (ih here)

theorem rowOf_assign {table : TableInfo} {assignments : List Assignment} {resolved : List (Nat × LiteralValue)}
    (resolves : resolveAssignments table assignments = .ok resolved) {values : List LiteralValue}
    (row : RowOf table.columns values) : RowOf table.columns (assign resolved values) := by
  have each := mapM_eq_ok.mp resolves
  clear resolves
  induction each generalizing values with
  | nil => exact row
  | cons first _ ih =>
    obtain ⟨column, required, _, typed, idx, indexed, rfl⟩ : ∃ column, requireColumn table _ = .ok column ∧
        ∃ u, requireLiteralMatchesColumn table column _ = .ok u ∧ ∃ idx, columnIndex table _ = .ok idx ∧
          (idx, _) = _ := by
      simpa only [resolveAssignment, bind_eq_ok, pure, Except.pure, Except.ok.injEq] using first
    obtain ⟨idx', indexed', here, -⟩ := columnIndex_of_findColumn (requireColumn_ok.mp required)
    cases indexed.symm.trans indexed'
    exact ih (rowOf_set row here (requireLiteralMatchesColumn_ok.mp typed))

theorem firstRepeated_eq_none {seen keys : List Int} :
    firstRepeated seen keys = none ↔ keys.Nodup ∧ ∀ key ∈ keys, key ∉ seen := by
  induction keys generalizing seen with
  | nil => simp [firstRepeated]
  | cons key keys ih =>
    rw [firstRepeated]
    by_cases isSeen : key ∈ seen
    · simp [isSeen]
    · rw [if_neg isSeen, ih, List.nodup_cons, List.forall_mem_cons]
      constructor
      · rintro ⟨nodup, fresh⟩
        refine ⟨⟨fun again => fresh key again List.mem_cons_self, nodup⟩, isSeen, fun other isOther isSeen' => ?_⟩
        exact fresh other isOther (List.mem_cons_of_mem _ isSeen')
      · rintro ⟨⟨unrepeated, nodup⟩, -, fresh⟩
        refine ⟨nodup, fun other isOther isSeen' => ?_⟩
        rcases List.mem_cons.mp isSeen' with rfl | earlier
        · exact unrepeated isOther
        · exact fresh other isOther earlier

theorem newKeys_ok {catalog : Catalog} {table : TableInfo} (isTable : table ∈ catalog.tables) {index : IndexInfo}
    (onTable : index ∈ catalog.indexesOnTable table.name) {updates : List RowUpdate}
    (typed : ∀ update ∈ updates, RowOf table.columns update.newValues) :
    validateUpdateBatch.newKeys table updates index =
      .ok (updates.filterMap fun update => table.keyAt index.columnName update.newValues) := by
  induction updates with
  | nil => rfl
  | cons update updates ih =>
    rw [List.forall_mem_cons] at typed
    obtain ⟨key, computed, keyed⟩ := indexKeyOf_ok isTable onTable typed.1
    rw [validateUpdateBatch.newKeys, List.mapM_cons, computed, List.filterMap_cons, keyed]
    change (validateUpdateBatch.newKeys table updates index >>= fun rest => pure (key :: rest)) = _
    rw [ih typed.2]
    rfl

theorem validateUpdateBatch_reads (lockstep : Lockstep origin.catalog origin.objects contents)
    {table : TableInfo} (isTable : table ∈ origin.catalog.tables) {updates : List RowUpdate}
    (typed : ∀ update ∈ updates, RowOf table.columns update.newValues) :
    Meets origin.Still (validateUpdateBatch origin.catalog table updates)
      (fun _ db => ¬ RefusedBatch origin.catalog contents table updates ∧ origin.Still db)
      (fun db => RefusedBatch origin.catalog contents table updates ∧ origin.Still db) := by
  unfold validateUpdateBatch
  split
  · rename_i tooLarge
    exact Meets.throw _ fun db unchanged => ⟨.inl tooLarge, unchanged⟩
  rename_i fits
  cases isKey : origin.catalog.primaryKeyIndex table.name with
  | none =>
    refine Meets.pure _ fun db unchanged => ⟨?_, unchanged⟩
    rintro (tooLarge | ⟨index, isKey', -⟩)
    · exact fits tooLarge
    · cases isKey.symm.trans isKey'
  | some index =>
    have onTable := Catalog.primaryKeyIndex_onTable isKey
    simp only [newKeys_ok isTable onTable typed]
    refine Meets.ok_bind ?_
    split
    · rename_i key repeated
      refine Meets.throw _ fun db unchanged => ⟨.inr ⟨index, isKey, .inl fun nodup => ?_⟩, unchanged⟩
      have once := firstRepeated_eq_none.mpr ⟨nodup, fun _ _ => List.not_mem_nil⟩
      cases repeated.symm.trans once
    · rename_i once
      obtain ⟨nodup, -⟩ := firstRepeated_eq_none.mp once
      -- the keys that have been looked up so far are free outside of the batch
      let reached (done : List Int) (db : Database) : Prop := (∀ key ∈ done, ∀ row ∈ contents table.name,
        table.keyAt index.columnName row.2 = some key → row.1 ∈ updates.map RowUpdate.rid) ∧ origin.Still db
      have enter : ∀ db, origin.Still db → reached [] db := fun db unchanged => ⟨by simp, unchanged⟩
      have looked : Meets (reached []) ((updates.filterMap fun update =>
          table.keyAt index.columnName update.newValues).forM (validateUpdateBatch.checkKey table updates index))
          (fun _ => reached (updates.filterMap fun update => table.keyAt index.columnName update.newValues))
          (fun db => RefusedBatch origin.catalog contents table updates ∧ origin.Still db) := by
        refine Meets.forM reached fun done key rest split => Meets.of_fact fun free => ?_
        have isNew : key ∈ updates.filterMap fun update => table.keyAt index.columnName update.newValues := by
          simp [split]
        obtain ⟨update, isUpdate, keyed⟩ := List.mem_filterMap.mp isNew
        refine Meets.bind (indexSearch_reads lockstep isTable onTable key) fun rids => Meets.of_fact fun perm => ?_
        split
        · rename_i outside
          obtain ⟨rid, isFound, isOutside⟩ := outside
          obtain ⟨row, isMatch, rfl⟩ := List.mem_map.mp (perm.mem_iff.mp isFound)
          obtain ⟨isRow, same⟩ := List.mem_filter.mp isMatch
          exact Meets.throw _ fun db unchanged => ⟨.inr ⟨index, isKey, .inr ⟨update, isUpdate, row, isRow, isOutside,
            (of_decide_eq_true same).trans keyed.symm⟩⟩, unchanged⟩
        · rename_i inside
          refine Meets.pure _ fun db unchanged => ⟨fun other isOther row isRow same => ?_, unchanged⟩
          rcases List.mem_append.mp isOther with earlier | now
          · exact free other earlier row isRow same
          · rw [List.mem_singleton.mp now] at same
            by_contra isOutside
            exact inside ⟨row.1, perm.mem_iff.mpr (List.mem_map_of_mem
              (List.mem_filter.mpr ⟨isRow, decide_eq_true same⟩)), isOutside⟩
      refine (Meets.of_pre enter looked).of_post fun _ db ⟨free, unchanged⟩ => ⟨?_, unchanged⟩
      rintro (tooLarge | ⟨index', isKey', repeated | ⟨update, isUpdate, row, isRow, isOutside, same⟩⟩)
      · exact fits tooLarge
      · cases isKey.symm.trans isKey'
        exact repeated nodup
      · cases isKey.symm.trans isKey'
        obtain ⟨key, -, keyed⟩ := indexKeyOf_ok isTable onTable (typed update isUpdate)
        exact isOutside (free key (List.mem_filterMap.mpr ⟨update, isUpdate, keyed⟩) row isRow (same.trans keyed))

section KeyCount

variable {table : TableInfo} {columnName : String} {key : Int}

theorem keyCount_congr {updates : List RowUpdate}
    (kept : ∀ row ∈ updates, table.keyAt columnName row.newValues = table.keyAt columnName row.oldValues) :
    keyCount table columnName key (updates.map RowUpdate.newValues) =
      keyCount table columnName key ((updates.map oldRow).map Prod.snd) := by
  rw [keyCount, keyCount, List.filterMap_map, List.map_map, List.filterMap_map]
  congr 1
  exact List.filterMap_congr kept

theorem keyCount_during_update {rows : List (RID × List LiteralValue)} {done rest : List RowUpdate} {update : RowUpdate}
    (nodup : ((done ++ update :: rest).map oldRow).Nodup)
    (subset : ∀ row ∈ (done ++ update :: rest).map oldRow, row ∈ rows)
    (uniform : (∃ key, ∀ row ∈ done ++ update :: rest, table.keyAt columnName row.newValues = some key) ∨
      ∀ row ∈ done ++ update :: rest, table.keyAt columnName row.newValues = table.keyAt columnName row.oldValues)
    (before : keyCount table columnName key (rows.map Prod.snd) ≤ kLeafMaxKeys)
    (after : keyCount table columnName key (((rows.diff ((done ++ update :: rest).map oldRow)).map Prod.snd) ++
      (done ++ update :: rest).map RowUpdate.newValues) ≤ kLeafMaxKeys)
    (keyed : table.keyAt columnName update.newValues = some key) :
    keyCount table columnName key (((rows.diff ((done ++ [update]).map oldRow)).map Prod.snd) ++
      done.map RowUpdate.newValues) < kLeafMaxKeys := by
  rw [List.append_cons] at nodup subset uniform after
  have sublist : (done ++ [update]).Sublist (done ++ [update] ++ rest) := List.sublist_append_left _ _
  have allTaken : keyCount table columnName key _ = _ := keyCount_taken nodup subset
  have someTaken : keyCount table columnName key _ = _ := keyCount_taken (nodup.sublist (sublist.map oldRow))
    fun row isRow => subset row ((sublist.map oldRow).subset isRow)
  have parts : ∀ first second : List RowUpdate,
      keyCount table columnName key (((first ++ second).map oldRow).map Prod.snd) =
        keyCount table columnName key ((first.map oldRow).map Prod.snd) +
          keyCount table columnName key ((second.map oldRow).map Prod.snd) := by
    intro first second
    rw [List.map_append, List.map_append, keyCount_append]
  rw [keyCount_append] at after ⊢
  rw [parts] at allTaken
  rcases uniform with ⟨same, assigned⟩ | kept
  · -- every row gets this very key
    cases (assigned update (by simp)).symm.trans keyed
    have everyNew : ∀ updates : List RowUpdate, (∀ row ∈ updates, row ∈ done ++ [update] ++ rest) →
        keyCount table columnName key (updates.map RowUpdate.newValues) = updates.length := by
      intro updates isUpdate
      rw [keyCount_eq_length, List.length_map]
      simpa using fun row isRow => assigned row (isUpdate row isRow)
    have restOld : keyCount table columnName key ((rest.map oldRow).map Prod.snd) ≤ _ := keyCount_le_length _
    rw [everyNew _ fun _ isRow => isRow] at after
    rw [everyNew done fun row isRow => by simp [isRow]]
    simp only [List.length_append, List.length_map, List.length_singleton] at after restOld
    omega
  · -- every row keeps its key
    have doneNew : keyCount table columnName key (done.map RowUpdate.newValues) = _ :=
      keyCount_congr fun row isDone => kept row (by simp [isDone])
    have here : keyCount table columnName key (([update].map oldRow).map Prod.snd) = 1 := by
      have old := (kept update (by simp)).symm.trans keyed
      simp [keyCount, oldRow, old]
    rw [parts, here] at someTaken
    rw [doneNew]
    omega

end KeyCount

theorem keyAt_assign {table : TableInfo} {columnName : String} {column : ColumnDef}
    (found : table.findColumn columnName = some column) (assignments : List (Nat × LiteralValue)) :
    (∃ key, ∀ values, RowOf table.columns values →
      table.keyAt columnName (assign assignments values) = some key) ∨
    ∀ values, table.keyAt columnName (assign assignments values) = table.keyAt columnName values := by
  obtain ⟨idx, -, here, valueAt_eq⟩ := columnIndex_of_findColumn found
  have keyAt_eq : ∀ values, table.keyAt columnName values = values[idx]?.map LiteralValue.key := by
    intro values
    rw [TableInfo.keyAt, valueAt_eq]
  rcases assign_getElem? assignments idx with ⟨value, assigned⟩ | kept
  · refine .inl ⟨value.key, fun values row => ?_⟩
    have within : idx < values.length := by
      rw [← row.length_eq]
      exact (List.getElem?_eq_some_iff.mp here).1
    rw [keyAt_eq, assigned values within, Option.map_some]
  · refine .inr fun values => ?_
    rw [keyAt_eq, keyAt_eq, kept]

section Update

variable {table : TableInfo} (isTable : table ∈ origin.catalog.tables)
include isTable

theorem updateRow_agrees (contents : Contents) {rows : List (RID × List LiteralValue)} {update : RowUpdate}
    (present : oldRow update ∈ rows) (oldTyped : RowOf table.columns update.oldValues)
    (newStorable : table.Storable update.newValues)
    (few : ∀ index ∈ origin.catalog.indexesOnTable table.name, followed index → ∀ key,
      table.keyAt index.columnName update.newValues = some key →
      keyCount table index.columnName key ((rows.erase (oldRow update)).map Prod.snd) < kLeafMaxKeys) :
    Meets (origin.Agrees followed (Function.update contents table.name rows))
      (updateRow origin.catalog table table.heapObjectId update)
      (fun _ db => ∃ rid, origin.Agrees followed
        (Function.update contents table.name (rows.erase (oldRow update) ++ [(rid, update.newValues)])) db)
      (origin.Cramped followed) := by
  refine Meets.bind (deleteRow_agrees isTable contents present oldTyped) fun _ => ?_
  refine insertRow_agrees isTable contents newStorable fun index onTable isFollowed key keyed => ?_
  have fewer := few index onTable isFollowed key keyed
  rwa [keyCount, ← TableInfo.keys_entries] at fewer

theorem updateRows_agrees {updates : List RowUpdate} (nodup : (updates.map oldRow).Nodup)
    (subset : ∀ row ∈ updates.map oldRow, row ∈ contents table.name)
    (oldTyped : ∀ update ∈ updates, RowOf table.columns update.oldValues)
    (newStorable : ∀ update ∈ updates, table.Storable update.newValues)
    (uniform : ∀ index ∈ origin.catalog.indexesOnTable table.name,
      (∃ key, ∀ row ∈ updates, table.keyAt index.columnName row.newValues = some key) ∨
        ∀ row ∈ updates, table.keyAt index.columnName row.newValues = table.keyAt index.columnName row.oldValues)
    (before : ∀ index ∈ origin.catalog.indexesOnTable table.name, ∀ key,
      keyCount table index.columnName key ((contents table.name).map Prod.snd) ≤ kLeafMaxKeys)
    (after : ∀ index ∈ origin.catalog.indexesOnTable table.name, followed index → ∀ key,
      keyCount table index.columnName key (((contents table.name).diff (updates.map oldRow)).map Prod.snd ++
        updates.map RowUpdate.newValues) ≤ kLeafMaxKeys) :
    Meets (origin.Agrees followed contents)
      (updates.forM (updateRow origin.catalog table table.heapObjectId))
      (fun _ db => ∃ news, news.map Prod.snd = updates.map RowUpdate.newValues ∧
        origin.Agrees followed
          (Function.update contents table.name ((contents table.name).diff (updates.map oldRow) ++ news)) db)
      (origin.Cramped followed) := by
  let reached (done : List RowUpdate) (db : Database) : Prop := ∃ news : List (RID × List LiteralValue),
    news.map Prod.snd = done.map RowUpdate.newValues ∧ origin.Agrees followed
      (Function.update contents table.name ((contents table.name).diff (done.map oldRow) ++ news)) db
  have enter : ∀ db, origin.Agrees followed contents db → reached [] db := fun db agrees =>
    ⟨[], rfl, by simpa using agrees⟩
  refine Meets.of_pre enter (Meets.forM reached fun done update rest split => ?_)
  refine Meets.of_exists fun news => Meets.of_fact fun values_eq => ?_
  have isUpdate : update ∈ updates := by simp [split]
  subst split
  have remains : oldRow update ∈ (contents table.name).diff (done.map oldRow) := by
    refine List.mem_diff_of_mem (subset _ (List.mem_map_of_mem isUpdate)) fun isDone => ?_
    rw [List.map_append, List.map_cons] at nodup
    exact (List.nodup_append.mp nodup).2.2 _ isDone _ List.mem_cons_self rfl
  have erased : ((contents table.name).diff (done.map oldRow) ++ news).erase (oldRow update) =
      (contents table.name).diff ((done ++ [update]).map oldRow) ++ news := by
    rw [List.erase_append_left _ remains, List.map_append, List.diff_append, List.map_singleton, List.diff_cons,
      List.diff_nil]
  refine (updateRow_agrees isTable contents (List.mem_append_left _ remains) (oldTyped update isUpdate)
    (newStorable update isUpdate) fun index onTable isFollowed key keyed => ?_).of_post fun _ db ⟨rid, agrees⟩ => ?_
  · rw [erased, List.map_append, values_eq]
    exact keyCount_during_update nodup subset (uniform index onTable) (before index onTable key)
      (after index onTable isFollowed key) keyed
  · refine ⟨news ++ [(rid, update.newValues)], by simp [values_eq], ?_⟩
    rwa [erased, List.append_assoc] at agrees

end Update

theorem matchRows_reads {E : Database → Prop} {table : TableInfo} {candidates : List (RID × List LiteralValue)}
    {residual : List Predicate} (storable : ∀ row ∈ candidates, table.Storable row.2)
    (fits : ∀ pred ∈ residual, pred.Fits table) :
    Meets origin.Still
      (Fallible.collect (fun row => (liftM (matchRow table residual row) : DatabaseM _)) (candidates.map table.encode))
      (fun matched db => matched = candidates.filter (fun row => residual.all (·.passes table row.2)) ∧
        origin.Still db) E := by
  refine Meets.collect_filter table.encode (fun row => residual.all (·.passes table row.2)) (fun _ => origin.Still)
    fun done row rest split => ?_
  rw [matchRow_ok (storable row (by simp [split])) fun pred isPred => (fits pred isPred).column]
  intro db unchanged
  refine ⟨?_, unchanged⟩
  simp only [List.filter_cons, List.filter_nil]

def updatesOf (assignments : List (Nat × LiteralValue)) (matched : List (RID × List LiteralValue)) : List RowUpdate :=
  matched.map fun row => RowUpdate.mk row.1 row.2 (assign assignments row.2)

theorem oldRows_updatesOf (assignments : List (Nat × LiteralValue)) (matched : List (RID × List LiteralValue)) :
    (updatesOf assignments matched).map oldRow = matched := by
  simp [updatesOf, oldRow, Function.comp_def]

theorem newValues_updatesOf (assignments : List (Nat × LiteralValue)) (matched : List (RID × List LiteralValue)) :
    (updatesOf assignments matched).map RowUpdate.newValues = matched.map fun row => assign assignments row.2 := by
  simp [updatesOf, Function.comp_def]

theorem executeUpdate_spec (stmt : UpdateStatement) (lockstep : Lockstep origin.catalog origin.objects contents)
    (distinct : origin.catalog.IndexNamesDistinct) (alone : origin.Alone) {table : TableInfo}
    (found : origin.catalog.findTable stmt.tableName = some table) {assignments : List (Nat × LiteralValue)}
    (resolves : resolveAssignments table stmt.assignments = .ok assignments) {access : TableAccessPlan}
    (planned : planTableAccess origin.catalog stmt.tableName stmt.wherePredicates = .ok access) :
    ∃ matched : List (RID × List LiteralValue), matched.Perm
        ((contents table.name).filter fun row => stmt.wherePredicates.all (·.passes table row.2)) ∧
      Meets (· = origin) (executeUpdate stmt)
        (fun result db => (¬ RefusedBatch origin.catalog contents table (updatesOf assignments matched) ∧
          result.rowsAffected = matched.length) ∧ ∃ news : List (RID × List LiteralValue),
          news.map Prod.snd = matched.map (fun row => assign assignments row.2) ∧
            origin.SettlesAs (Function.update contents table.name ((contents table.name).diff matched ++ news)) db)
        (fun db => (RefusedBatch origin.catalog contents table (updatesOf assignments matched) ∧ origin.Still db) ∨
          ¬ RefusedBatch origin.catalog contents table (updatesOf assignments matched) ∧
            origin.Cramped (FewKeys origin.catalog table (((contents table.name).diff matched).map Prod.snd ++
              matched.map fun row => assign assignments row.2)) db) := by
  obtain ⟨candidates, fetched, delivers⟩ := fetchCandidateRows_reads lockstep distinct found planned
  obtain ⟨isTable, named⟩ := Catalog.findTable_eq_some.mp found
  let matched := candidates.filter fun row => access.residualPredicates.all (·.passes table row.2)
  refine ⟨matched, delivers.filtered, ?_⟩
  have enter : ∀ db, db = origin → origin.Still db := by
    rintro db rfl
    exact still_of_alone alone
  have isRow : ∀ row ∈ matched, row ∈ contents table.name := fun row isMatched =>
    delivers.mem row (List.mem_of_mem_filter isMatched)
  have typed : ∀ row ∈ matched, RowOf table.columns row.2 := fun row isMatched =>
    (lockstep.storable table isTable row (isRow row isMatched)).row
  have newTyped : ∀ update ∈ updatesOf assignments matched, RowOf table.columns update.newValues :=
    List.forall_mem_map.mpr fun row isMatched => rowOf_assign resolves (typed row isMatched)
  have nodup : ((updatesOf assignments matched).map oldRow).Nodup := by
    rw [oldRows_updatesOf]
    exact (delivers.matched_nodup (lockstep.rids_nodup isTable)).of_map
  refine Meets.of_pre enter (Meets.get_bind_any fun db unchanged => ?_)
  simp only [unchanged.frame.catalog_eq, found, resolves, planned]
  refine Meets.ok_bind (Meets.ok_bind (Meets.bind (reads (heapFileForTable_still _) (heapFileForTable_yields found))
    fun heap => Meets.of_fact fun same => ?_))
  subst same
  refine Meets.bind (fetched _) fun rows => Meets.of_fact fun same => ?_
  subst same
  refine Meets.bind (matchRows_reads (fun row isCandidate =>
    lockstep.storable table isTable row (delivers.mem row isCandidate)) delivers.fits) fun result =>
      Meets.of_fact fun same => ?_
  subst same
  refine Meets.bind ((validateUpdateBatch_reads lockstep isTable newTyped).of_error fun db refused => .inl refused)
    fun _ => Meets.of_fact fun accepted => ?_
  have newStorable : ∀ update ∈ updatesOf assignments matched, table.Storable update.newValues :=
    fun update isUpdate => ⟨newTyped update isUpdate, Nat.le_of_not_lt fun tooLarge =>
      accepted (.inl ⟨update, isUpdate, tooLarge⟩)⟩
  refine Meets.bind ((Meets.of_pre (fun db unchanged => unchanged.agrees lockstep) (updateRows_agrees isTable nodup ?_
    (List.forall_mem_map.mpr typed) newStorable (fun index onTable => ?_) (fun index onTable key => ?_)
    fun index onTable isFollowed key => ?_)).of_error fun db cramped => .inr ⟨accepted, cramped⟩) fun _ =>
      Meets.pure _ fun db ⟨news, values_eq, agrees⟩ =>
        ⟨⟨accepted, ?_⟩, news, values_eq.trans (newValues_updatesOf assignments matched), ?_⟩
  · rwa [oldRows_updatesOf]
  · obtain ⟨column, isColumn, -⟩ := Catalog.indexesOnTable_integer isTable onTable
    rcases keyAt_assign isColumn assignments with ⟨key, assigned⟩ | kept
    · exact .inl ⟨key, List.forall_mem_map.mpr fun row isMatched => assigned row.2 (typed row isMatched)⟩
    · exact .inr (List.forall_mem_map.mpr fun row _ => kept row.2)
  · obtain ⟨tree, -, represents⟩ := lockstep.index table isTable index onTable
    have atMost := represents.few key
    rwa [TableInfo.keys_entries] at atMost
  · rw [oldRows_updatesOf, newValues_updatesOf]
    exact isFollowed onTable key
  · exact List.length_map _
  · rw [oldRows_updatesOf] at agrees
    refine agrees.settlesAs_update isTable lockstep.storable (fun row isNow => ?_) fun index few => ?_
    · rcases List.mem_append.mp isNow with older | newer
      · exact lockstep.storable table isTable row (List.diff_subset _ _ older)
      · have isNew : row.2 ∈ (updatesOf assignments matched).map RowUpdate.newValues :=
          values_eq ▸ List.mem_map_of_mem newer
        obtain ⟨update, isUpdate, same⟩ := List.mem_map.mp isNew
        exact same ▸ newStorable update isUpdate
    · rwa [List.map_append, values_eq, newValues_updatesOf] at few

theorem executeInsert_unknown {stmt : InsertStatement} (unknown : origin.catalog.findTable stmt.tableName = none) :
    (executeInsert stmt).exec origin = (.error (noSuchTable stmt.tableName), origin) := by
  rw [executeInsert, exec_bind_ok (exec_get origin)]
  simp only [unknown]
  rfl

theorem executeDelete_unplanned {stmt : DeleteStatement} {e : Exception}
    (unplanned : planTableAccess origin.catalog stmt.tableName stmt.wherePredicates = .error e) :
    (executeDelete stmt).exec origin = (.error e, origin) := by
  rw [executeDelete, exec_bind_ok (exec_get origin)]
  simp only [unplanned]
  rfl

theorem executeUpdate_unknown {stmt : UpdateStatement} (unknown : origin.catalog.findTable stmt.tableName = none) :
    (executeUpdate stmt).exec origin = (.error (noSuchTable stmt.tableName), origin) := by
  rw [executeUpdate, exec_bind_ok (exec_get origin)]
  simp only [unknown]
  rfl

theorem executeUpdate_unresolved {stmt : UpdateStatement} {table : TableInfo}
    (found : origin.catalog.findTable stmt.tableName = some table) {e : Exception}
    (unresolved : resolveAssignments table stmt.assignments = .error e) :
    (executeUpdate stmt).exec origin = (.error e, origin) := by
  rw [executeUpdate, exec_bind_ok (exec_get origin)]
  simp only [found, unresolved]
  rfl

theorem executeUpdate_unplanned {stmt : UpdateStatement} {table : TableInfo}
    (found : origin.catalog.findTable stmt.tableName = some table) {assignments : List (Nat × LiteralValue)}
    (resolves : resolveAssignments table stmt.assignments = .ok assignments) {e : Exception}
    (unplanned : planTableAccess origin.catalog stmt.tableName stmt.wherePredicates = .error e) :
    (executeUpdate stmt).exec origin = (.error e, origin) := by
  rw [executeUpdate, exec_bind_ok (exec_get origin)]
  simp only [found, resolves, unplanned]
  rfl

end Database

end FlintDB
