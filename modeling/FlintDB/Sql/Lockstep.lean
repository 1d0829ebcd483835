import FlintDB.Index.Multimap
import FlintDB.Index.TreeBounds
import FlintDB.Sql.Matching
import FlintDB.Sql.Session
import FlintDB.Storage.HeapRows

set_option autoImplicit false

-- What a writing statement does to the rows of its table and to the entries of the indexes on it, step by step. A
-- tree is only followed as long as no key is repeated more often than a leaf has room for.

namespace FlintDB

open Lib Fallible Database

/-- The entries of an index over these rows. -/
def TableInfo.entries (table : TableInfo) (columnName : String) (rows : List (RID × List LiteralValue)) :
    List (Int × RID) :=
  rows.filterMap fun row => (table.keyAt columnName row.2).map fun key => (key, row.1)

/-- The heap of every table holds its rows, and every index on it their entries. -/
structure Lockstep (catalog : Catalog) (objects : Nat → Option ObjectStorage) (contents : Contents) : Prop where
  heap : ∀ table ∈ catalog.tables, ∃ file, objects table.heapObjectId = some (.heap file) ∧ file.Sound ∧
    file.rows = (contents table.name).map table.encode
  storable : ∀ table ∈ catalog.tables, ∀ row ∈ contents table.name, table.Storable row.2
  index : ∀ table ∈ catalog.tables, ∀ index ∈ catalog.indexesOnTable table.name, ∃ tree,
    objects index.objectId = some (.index tree) ∧
      tree.Represents (table.entries index.columnName (contents table.name))

def ObjectStorage.Extends : Option ObjectStorage → Option ObjectStorage → Prop
  | some (.heap start), some (.heap file) => start.Extends file
  | some (.index start), some (.index tree) => start.allocated ≤ tree.allocated
  | none, none => True
  | _, _ => False

theorem ObjectStorage.Extends.refl (storage : Option ObjectStorage) : ObjectStorage.Extends storage storage := by
  match storage with
  | none => trivial
  | some (.heap file) => exact HeapFile.Extends.refl file
  | some (.index tree) => exact Nat.le_refl _

theorem ObjectStorage.Extends.heap {storage : Option ObjectStorage} {file file' : HeapFile}
    (extended : ObjectStorage.Extends storage (some (.heap file)))
    (grows : ∀ start : HeapFile, start.Extends file → start.Extends file') :
    ObjectStorage.Extends storage (some (.heap file')) := by
  revert extended
  match storage with
  | some (.heap start) => exact grows start
  | some (.index _) => exact False.elim
  | none => exact False.elim

theorem ObjectStorage.Extends.index {storage : Option ObjectStorage} {tree tree' : BPlusTree}
    (extended : ObjectStorage.Extends storage (some (.index tree))) (grown : tree.allocated ≤ tree'.allocated) :
    ObjectStorage.Extends storage (some (.index tree')) := by
  revert extended
  match storage with
  | some (.index start) => exact fun before => Nat.le_trans before grown
  | some (.heap _) => exact False.elim
  | none => exact False.elim

theorem erase_eq_filter_fst {α β : Type} [DecidableEq α] [BEq (α × β)] [LawfulBEq (α × β)] {rows : List (α × β)}
    (nodup : (rows.map Prod.fst).Nodup) {row : α × β} (present : row ∈ rows) :
    rows.erase row = rows.filter fun other => other.1 ≠ row.1 := by
  rw [nodup.of_map.erase_eq_filter]
  refine List.filter_congr fun other isOther => ?_
  by_cases same : other = row
  · simp [same]
  · have differs : other.1 ≠ row.1 := fun sameFst => same (List.inj_on_of_nodup_map nodup isOther present sameFst)
    simp [same, differs]

namespace Catalog

variable {catalog : Catalog}

-- The objects of a catalog are apart

theorem index_eq_of_objectId {first second : IndexInfo} (isFirst : first ∈ catalog.indexes)
    (isSecond : second ∈ catalog.indexes) (same : first.objectId = second.objectId) : first = second :=
  List.inj_on_of_nodup_map (List.nodup_append.mp catalog.ids_nodup).2.1 isFirst isSecond same

theorem table_eq_of_heapObjectId {first second : TableInfo} (isFirst : first ∈ catalog.tables)
    (isSecond : second ∈ catalog.tables) (same : first.heapObjectId = second.heapObjectId) : first = second :=
  List.inj_on_of_nodup_map (List.nodup_append.mp catalog.ids_nodup).1 isFirst isSecond same

theorem heapObjectId_ne {table : TableInfo} (isTable : table ∈ catalog.tables) {index : IndexInfo}
    (isIndex : index ∈ catalog.indexes) : table.heapObjectId ≠ index.objectId :=
  (List.nodup_append.mp catalog.ids_nodup).2.2 _ (List.mem_map_of_mem isTable) _ (List.mem_map_of_mem isIndex)

end Catalog

namespace Database

/-- Nobody else is there: only the running transaction has locks. -/
structure Alone (db : Database) : Prop where
  still : db.others = []
  consistent : db.locks.Consistent
  own : ∀ other key, db.locks.Holds other key → db.currentTransaction = some other

structure SameFrame (origin db : Database) : Prop where
  catalog_eq : db.catalog = origin.catalog
  currentTransaction_eq : db.currentTransaction = origin.currentTransaction
  activeTxns_eq : db.activeTxns = origin.activeTxns

-- Whatever a statement has come to, every object has only grown.
structure Extended (origin db : Database) : Prop where
  alone : db.Alone
  frame : SameFrame origin db
  objects : ∀ objectId, ObjectStorage.Extends (origin.objects objectId) (db.objects objectId)

structure Still (origin db : Database) : Prop where
  alone : db.Alone
  frame : SameFrame origin db
  objects_eq : db.objects = origin.objects

theorem Still.extended {origin db : Database} (unchanged : origin.Still db) : origin.Extended db :=
  ⟨unchanged.alone, unchanged.frame, fun _ => unchanged.objects_eq ▸ ObjectStorage.Extends.refl _⟩

/-- No file has come to the end of its page ids. -/
structure HasRoom (db : Database) : Prop where
  heap : ∀ objectId file, db.objects objectId = some (.heap file) → file.allocated < 2 ^ 32
  index : ∀ objectId tree, db.objects objectId = some (.index tree) → tree.allocated < invalidPageId

-- next_object_id_ is 32 bits wide, next_txn_id_ is 64 bits wide.
structure WithinIds (db : Database) : Prop extends HasRoom db where
  objectIds : db.catalog.nextObjectId < 2 ^ 32
  txnIds : db.nextTxnId < 2 ^ 64

structure Cramped (origin : Database) (followed : IndexInfo → Prop) (db : Database) : Prop where
  extended : origin.Extended db
  cramped : (∀ index ∈ origin.catalog.indexes, followed index) → ¬ db.HasRoom

/-- In the middle of a statement: the rows of every table, and the entries of those indexes that are `followed`. -/
structure Holds (origin : Database) (followed : IndexInfo → Prop) (contents : Contents)
    (stored : IndexInfo → List (Int × RID)) (db : Database) : Prop where
  extended : origin.Extended db
  heap : ∀ table ∈ origin.catalog.tables, ∃ file, db.objects table.heapObjectId = some (.heap file) ∧
    (file.allocated < 2 ^ 32 → file.Sound ∧ file.rows = (contents table.name).map table.encode)
  index : ∀ index ∈ origin.catalog.indexes, ∃ tree, db.objects index.objectId = some (.index tree) ∧
    (followed index → tree.allocated < invalidPageId → tree.Represents (stored index))

section Steps

variable {origin : Database} {followed : IndexInfo → Prop} {contents : Contents} {stored : IndexInfo → List (Int × RID)}

theorem Alone.grant {db : Database} (alone : db.Alone) {txnId : Nat} (running : db.currentTransaction = some txnId)
    {key : PageKey} {mode : LockMode} {next : LockManager}
    (granted : db.locks.acquireLock txnId key mode = .granted next) : ({ db with locks := next } : Database).Alone := by
  have spec := LockManager.acquireLock_spec alone.consistent granted
  refine ⟨alone.still, spec.consistent, fun other key' held => ?_⟩
  rcases (spec.holds_iff other key').mp held with before | ⟨rfl, -⟩
  · exact alone.own other key' before
  · exact running

theorem lockPage_meets {P E : Database → Prop} (objectId pageId : Nat) (mode : LockMode)
    (alone : ∀ db, P db → db.Alone)
    (unlocked : ∀ db locks, P db → ({ db with locks := locks } : Database).Alone → P { db with locks := locks }) :
    Meets P (lockPage objectId pageId mode) (fun _ => P) E := by
  intro db holds
  have isAlone := alone db holds
  cases running : db.currentTransaction with
  | none =>
    rw [lockPage_none running]
    exact holds
  | some txnId =>
    have own : ∀ other, db.locks.Holds other ⟨objectId, pageId⟩ → other = txnId := fun other held =>
      Option.some.inj ((isAlone.own other _ held).symm.trans running)
    obtain ⟨next, granted⟩ := LockManager.acquireLock_of_free (LockManager.no_conflict_alone own mode)
    rw [lockPage_granted running isAlone.still granted]
    exact unlocked db next holds (isAlone.grant running granted)

theorem Holds.unlocked {db : Database} {locks : LockManager} (holds : origin.Holds followed contents stored db)
    (alone : ({ db with locks := locks } : Database).Alone) :
    origin.Holds followed contents stored { db with locks := locks } :=
  ⟨⟨alone, ⟨holds.extended.frame.1, holds.extended.frame.2, holds.extended.frame.3⟩, holds.extended.objects⟩,
    holds.heap, holds.index⟩

theorem lockPage_holds {E : Database → Prop} (objectId pageId : Nat) (mode : LockMode) :
    Meets (origin.Holds followed contents stored) (lockPage objectId pageId mode)
      (fun _ => origin.Holds followed contents stored) E :=
  lockPage_meets objectId pageId mode (fun _ holds => holds.extended.alone) fun _ _ holds => holds.unlocked

theorem Extended.attach {db : Database} (extended : origin.Extended db) {objectId : Nat} {storage : ObjectStorage}
    (grown : ObjectStorage.Extends (origin.objects objectId) (some storage)) :
    origin.Extended (db.attach objectId storage) := by
  refine ⟨⟨extended.alone.1, extended.alone.2, extended.alone.3⟩, ⟨extended.frame.1, extended.frame.2, extended.frame.3⟩,
    fun other => ?_⟩
  rw [attach_objects]
  by_cases same : other = objectId
  · subst same
    rwa [Function.update_self]
  · rw [Function.update_of_ne same]
    exact extended.objects other

theorem Holds.attach_index {db : Database} (holds : origin.Holds followed contents stored db)
    {index : IndexInfo} (isIndex : index ∈ origin.catalog.indexes) {tree : BPlusTree} {entries : List (Int × RID)}
    (grown : ObjectStorage.Extends (origin.objects index.objectId) (some (.index tree)))
    (represents : followed index → tree.allocated < invalidPageId → tree.Represents entries) :
    origin.Holds followed contents (Function.update stored index entries) (db.attach index.objectId (.index tree)) := by
  refine ⟨holds.extended.attach grown, fun table isTable => ?_, fun other isOther => ?_⟩
  · rw [attach_objects, Function.update_of_ne (Catalog.heapObjectId_ne isTable isIndex)]
    exact holds.heap table isTable
  · rw [attach_objects]
    by_cases same : other = index
    · subst same
      rw [Function.update_self, Function.update_self]
      exact ⟨tree, rfl, represents⟩
    · rw [Function.update_of_ne same,
        Function.update_of_ne fun sameId => same (Catalog.index_eq_of_objectId isOther isIndex sameId)]
      exact holds.index other isOther

theorem Holds.attach_heap {db : Database} (holds : origin.Holds followed contents stored db) {table : TableInfo}
    (isTable : table ∈ origin.catalog.tables) {file : HeapFile} {rows : List (RID × List LiteralValue)}
    (grown : ObjectStorage.Extends (origin.objects table.heapObjectId) (some (.heap file)))
    (holdsRows : file.allocated < 2 ^ 32 → file.Sound ∧ file.rows = rows.map table.encode) :
    origin.Holds followed (Function.update contents table.name rows) stored
      (db.attach table.heapObjectId (.heap file)) := by
  refine ⟨holds.extended.attach grown, fun other isOther => ?_, fun index isIndex => ?_⟩
  · rw [attach_objects]
    by_cases same : other = table
    · subst same
      rw [Function.update_self, Function.update_self]
      exact ⟨file, rfl, holdsRows⟩
    · have otherName : other.name ≠ table.name := fun sameName =>
        same (List.inj_on_of_nodup_map origin.catalog.names_nodup isOther isTable sameName)
      rw [Function.update_of_ne otherName,
        Function.update_of_ne fun sameId => same (Catalog.table_eq_of_heapObjectId isOther isTable sameId)]
      exact holds.heap other isOther
  · rw [attach_objects, Function.update_of_ne (Catalog.heapObjectId_ne isTable isIndex).symm]
    exact holds.index index isIndex

theorem modifyIndex_holds {α : Type} {operation : BTreeM α} (neverShrinks : ∀ n, Keeps (BPlusTree.AtLeast n) operation)
    {index : IndexInfo} (isIndex : index ∈ origin.catalog.indexes) (entries : List (Int × RID))
    (does : followed index → ∀ tree, tree.Represents (stored index) → ∃ a tree',
      operation.exec tree = (.ok a, tree') ∧ (tree'.allocated < invalidPageId → tree'.Represents entries)) :
    Meets (origin.Holds followed contents stored) (modifyIndex index.objectId operation)
      (fun _ => origin.Holds followed contents (Function.update stored index entries))
      (origin.Cramped followed) := by
  refine Meets.bind (lockPage_holds _ _ _) fun _ db holds => ?_
  obtain ⟨tree, present, represents⟩ := holds.index index isIndex
  have found : (getIndex index.objectId).exec db = (.ok tree, db) := by
    rw [getIndex, exec_bind_ok (exec_get db), present]
    rfl
  rw [exec_bind_ok found]
  cases done : operation.exec tree with
  | mk outcome tree' =>
    have grown : tree.allocated ≤ tree'.allocated := by
      have kept := neverShrinks tree.allocated tree (Nat.le_refl _)
      rw [done] at kept
      cases outcome <;> exact kept
    have before := holds.extended.objects index.objectId
    rw [present] at before
    have extends' := before.index grown
    simp only
    rw [exec_bind_ok (exec_modify _ db)]
    cases outcome with
    | error e =>
      have stopped : origin.Cramped followed (db.attach index.objectId (.index tree')) := by
        refine ⟨holds.extended.attach extends', fun allFollowed room => ?_⟩
        have below := room.index index.objectId tree' (by simp)
        obtain ⟨a, after, returns, -⟩ := does (allFollowed index isIndex) tree
          (represents (allFollowed index isIndex) (Nat.lt_of_le_of_lt grown below))
        cases done.symm.trans returns
      cases e <;> exact stopped
    | ok a =>
      refine holds.attach_index isIndex extends' fun isFollowed room => ?_
      obtain ⟨b, after, returns, stores⟩ := does isFollowed tree
        (represents isFollowed (Nat.lt_of_le_of_lt grown room))
      cases done.symm.trans returns
      exact stores room

theorem indexInsert_holds {index : IndexInfo} (isIndex : index ∈ origin.catalog.indexes) (key : Int) (rid : RID)
    (few : followed index → ((stored index).map Prod.fst).count key < kLeafMaxKeys) :
    Meets (origin.Holds followed contents stored) (indexInsert index.objectId key rid)
      (fun _ => origin.Holds followed contents (Function.update stored index ((key, rid) :: stored index)))
      (origin.Cramped followed) := by
  refine modifyIndex_holds (fun n => BPlusTree.insert_keeps key rid) isIndex _ ?_
  intro isFollowed tree represents
  obtain ⟨after, inserted, -, stores⟩ := BPlusTree.insert_exec represents rid (few isFollowed)
  exact ⟨(), after, inserted, stores⟩

theorem indexDelete_holds {index : IndexInfo} (isIndex : index ∈ origin.catalog.indexes) (key : Int) (rid : RID) :
    Meets (origin.Holds followed contents stored) (indexDelete index.objectId key rid)
      (fun _ => origin.Holds followed contents
        (Function.update stored index ((stored index).erase (key, rid)))) (origin.Cramped followed) := by
  refine modifyIndex_holds (fun n => BPlusTree.delete_keeps key rid) isIndex _ ?_
  intro isFollowed tree represents
  obtain ⟨after, deleted, -, -, stores⟩ := BPlusTree.delete_exec represents key rid
  exact ⟨_, after, deleted, fun _ => stores⟩

structure HoldsFile (origin : Database) (followed : IndexInfo → Prop) (contents : Contents)
    (stored : IndexInfo → List (Int × RID)) (table : TableInfo) (file : HeapFile) (db : Database) : Prop where
  holds : origin.Holds followed contents stored db
  file_eq : db.objects table.heapObjectId = some (.heap file)

variable {E : Database → Prop} {table : TableInfo} (isTable : table ∈ origin.catalog.tables)
include isTable

theorem getHeapFile_holds :
    Meets (origin.Holds followed contents stored) (getHeapFile table.heapObjectId)
      (HoldsFile origin followed contents stored table) E := by
  refine Meets.get_bind fun db holds => ?_
  obtain ⟨file, present, -⟩ := holds.heap table isTable
  rw [present]
  exact Meets.pure _ fun s same => same ▸ ⟨holds, present⟩

omit isTable in
theorem lockPage_holdsFile {file : HeapFile} (objectId pageId : Nat) (mode : LockMode) :
    Meets (HoldsFile origin followed contents stored table file) (lockPage objectId pageId mode)
      (fun _ => HoldsFile origin followed contents stored table file) E :=
  lockPage_meets objectId pageId mode (fun _ both => both.holds.extended.alone)
    fun _ _ both alone => ⟨both.holds.unlocked alone, both.file_eq⟩

theorem storeHeapFile_holds {file file' : HeapFile} (rows : List (RID × List LiteralValue))
    (grown : ObjectStorage.Extends (origin.objects table.heapObjectId) (some (.heap file')))
    (becomes : file'.allocated < 2 ^ 32 → file'.Sound ∧ file'.rows = rows.map table.encode) :
    Meets (HoldsFile origin followed contents stored table file) (storeHeapFile table.heapObjectId file')
      (fun _ => HoldsFile origin followed (Function.update contents table.name rows) stored table file')
      E :=
  fun _ both => ⟨both.holds.attach_heap isTable grown becomes, by simp⟩

structure FileFacts (origin : Database) (contents : Contents) (table : TableInfo) (file : HeapFile) : Prop where
  grown : ObjectStorage.Extends (origin.objects table.heapObjectId) (some (.heap file))
  sound : file.allocated < 2 ^ 32 → file.Sound
  rows : file.allocated < 2 ^ 32 → file.rows = (contents table.name).map table.encode

theorem meets_of_facts {α : Type} {file : HeapFile} {program : DatabaseM α} {Q : α → Database → Prop}
    (met : FileFacts origin contents table file →
      Meets (HoldsFile origin followed contents stored table file) program Q E) :
    Meets (HoldsFile origin followed contents stored table file) program Q E := by
  intro db both
  obtain ⟨held, present, known⟩ := both.holds.heap table isTable
  cases present.symm.trans both.file_eq
  refine met ⟨?_, fun room => (known room).1, fun room => (known room).2⟩ db both
  rw [← both.file_eq]
  exact both.holds.extended.objects table.heapObjectId

omit isTable in
theorem getHeapFile_again {file : HeapFile} :
    Meets (HoldsFile origin followed contents stored table file) (getHeapFile table.heapObjectId)
      (fun found db => found = file ∧ HoldsFile origin followed contents stored table file db)
      E := by
  refine Meets.get_bind fun db both => ?_
  rw [both.file_eq]
  exact Meets.pure _ fun s same => ⟨rfl, same ▸ both⟩

theorem insertRecord_holds {file : HeapFile} {last : Nat} (isLast : file.pageIds.getLast? = some last)
    (values : List LiteralValue) :
    Meets (HoldsFile origin followed contents stored table file)
      (insertRecord table.heapObjectId last (encodeRow table.columns values))
      (fun inserted db => inserted.isSome = ((file.pages last).insertRecord (encodeRow table.columns values)).isSome ∧
        match inserted with
        | some rid => origin.Holds followed
            (Function.update contents table.name (contents table.name ++ [(rid, values)])) stored db
        | none => origin.Holds followed contents stored db) E := by
  refine Meets.bind getHeapFile_again fun found => Meets.of_fact fun same => ?_
  subst same
  cases inserted : (found.pages last).insertRecord (encodeRow table.columns values) with
  | none => exact Meets.pure _ fun db both => ⟨rfl, both.holds⟩
  | some slot =>
    obtain ⟨slotId, page⟩ := slot
    have listed : last ∈ found.pageIds := List.mem_of_getLast? isLast
    refine meets_of_facts isTable fun facts => ?_
    refine Meets.bind (storeHeapFile_holds isTable (contents table.name ++ [(⟨last, slotId⟩, values)])
      (facts.grown.heap fun _ extended => extended.writePage last page) fun room => ?_) fun _ =>
        Meets.pure _ fun db both => ⟨rfl, both.holds⟩
    refine ⟨(facts.sound room).writePage listed page, ?_⟩
    rw [HeapFile.rows_insertRecord (facts.sound room) isLast inserted, facts.rows room, List.map_append]
    rfl

theorem insertIntoLastPage_holds (values : List LiteralValue) :
    Meets (origin.Holds followed contents stored)
      (insertIntoLastPage table.heapObjectId (encodeRow table.columns values))
      (fun inserted db => match inserted with
        | some rid => origin.Holds followed
            (Function.update contents table.name (contents table.name ++ [(rid, values)])) stored db
        | none => origin.Holds followed contents stored db) E := by
  refine Meets.bind (getHeapFile_holds isTable) fun file => ?_
  cases isLast : file.pageIds.getLast? with
  | none => exact Meets.pure _ fun db both => both.holds
  | some last =>
    refine Meets.bind (lockPage_holdsFile _ _ _) fun _ => ?_
    exact (insertRecord_holds isTable isLast values).of_post fun _ _ inserted => inserted.2

theorem insertIntoNewPage_holds {values : List LiteralValue} (storable : table.Storable values) :
    Meets (origin.Holds followed contents stored)
      (insertIntoNewPage table.heapObjectId (encodeRow table.columns values))
      (fun rid => origin.Holds followed
        (Function.update contents table.name (contents table.name ++ [(rid, values)])) stored)
      E := by
  refine Meets.bind (getHeapFile_holds isTable) fun file => ?_
  refine meets_of_facts isTable fun facts => ?_
  have roomBefore : file.newHeapPage.2.allocated < 2 ^ 32 → file.allocated < 2 ^ 32 :=
    fun room => Nat.lt_of_succ_lt room
  have allocates : file.newHeapPage.2.allocated < 2 ^ 32 →
      file.newHeapPage.2.Sound ∧ file.newHeapPage.2.rows = (contents table.name).map table.encode := by
    intro room
    have sound := facts.sound (roomBefore room)
    refine ⟨HeapFile.sound_newHeapPage sound (roomBefore room), ?_⟩
    rw [HeapFile.rows_newHeapPage sound (roomBefore room), facts.rows (roomBefore room)]
  refine Meets.bind (storeHeapFile_holds isTable (contents table.name)
    (facts.grown.heap fun _ extended => extended.newHeapPage) allocates) fun _ => ?_
  rw [Function.update_eq_self]
  refine Meets.bind (lockPage_holdsFile _ _ _) fun _ => Meets.bind getHeapFile_again fun found =>
    Meets.of_fact fun same => ?_
  subst same
  refine Meets.bind (storeHeapFile_holds isTable (contents table.name)
    (facts.grown.heap fun _ extended => extended.listNewPage) fun room => ?_) fun _ => ?_
  · have bare : (file.newHeapPage.2.pages file.newHeapPage.1).slots = [] := by
      simp [HeapFile.newHeapPage, HeapFile.writePage, Page.initHeapPage]
    have newPid : BPlusTree.wrapPageId file.allocated = file.allocated := HeapFile.newHeapPage_fst (roomBefore room)
    refine ⟨HeapFile.sound_listPage (allocates room).1 (fun listed => ?_) ?_,
      (HeapFile.rows_listPage _ bare).trans (allocates room).2⟩
    · have below := (facts.sound (roomBefore room)).listed _ listed
      rw [newPid] at below
      exact Nat.lt_irrefl _ below
    · rw [newPid]
      exact Nat.lt_succ_self _
  rw [Function.update_eq_self]
  -- a row that is not too large has room on an empty page
  have fitsNew : ((file.newHeapPage.2.pages file.newHeapPage.1).insertRecord
      (encodeRow table.columns values)).isSome = true := by
    have written : file.newHeapPage.2.pages file.newHeapPage.1 = .initHeapPage := by
      simp [HeapFile.newHeapPage, HeapFile.writePage]
    rw [written]
    exact Page.insertRecord_initHeapPage storable.fits
  refine Meets.bind (insertRecord_holds isTable (by simp) values) fun inserted => Meets.of_fact fun isInserted => ?_
  cases inserted with
  | none => exact absurd (isInserted.trans fitsNew) (by simp)
  | some rid => exact Meets.pure _ fun db holds => holds

theorem heapInsert_holds {values : List LiteralValue} (storable : table.Storable values) :
    Meets (origin.Holds followed contents stored)
      (heapInsert table.heapObjectId (encodeRow table.columns values))
      (fun rid => origin.Holds followed
        (Function.update contents table.name (contents table.name ++ [(rid, values)])) stored) E := by
  rw [heapInsert, if_neg (Nat.not_lt.mpr storable.fits)]
  refine Meets.bind (insertIntoLastPage_holds isTable values) fun inserted => ?_
  cases inserted with
  | some rid => exact Meets.pure _ fun db holds => holds
  | none => exact insertIntoNewPage_holds isTable storable

theorem heapDelete_holds {row : RID × List LiteralValue} (present : row ∈ contents table.name) :
    Meets (origin.Holds followed contents stored) (heapDelete table.heapObjectId row.1)
      (fun _ => origin.Holds followed (Function.update contents table.name ((contents table.name).erase row)) stored)
      E := by
  refine Meets.bind (getHeapFile_holds isTable) fun file => meets_of_facts isTable fun facts => ?_
  have rids : file.allocated < 2 ^ 32 → ((contents table.name).map Prod.fst).Nodup := by
    intro room
    have nodup := HeapFile.rows_nodup (facts.sound room)
    rwa [facts.rows room, List.map_map] at nodup
  have live : file.allocated < 2 ^ 32 → file.getRow row.1 = some (encodeRow table.columns row.2) := by
    intro room
    refine HeapFile.mem_rows.mp ?_
    rw [facts.rows room]
    exact List.mem_map_of_mem present
  -- without the row, only a file whose page ids have wrapped around
  have gone : file.getRow row.1 = none → Meets (HoldsFile origin followed contents stored table file)
      (pure false : DatabaseM Bool) (fun _ => origin.Holds followed
        (Function.update contents table.name ((contents table.name).erase row)) stored) E := by
    intro absent
    refine Meets.pure _ fun db both => ?_
    have attached := both.holds.attach_heap isTable facts.grown
      fun room => (absurd (live room) (by simp [absent]) : file.Sound ∧ file.rows =
        ((contents table.name).erase row).map table.encode)
    rwa [attach, ← both.file_eq, Function.update_eq_self] at attached
  split
  · rename_i listed
    refine Meets.bind (lockPage_holdsFile _ _ _) fun _ => Meets.bind getHeapFile_again fun found =>
      Meets.of_fact fun same => ?_
    subst same
    simp only
    split
    · refine Meets.bind (storeHeapFile_holds isTable ((contents table.name).erase row)
        (facts.grown.heap fun _ extended => extended.writePage _ _) fun room => ?_) fun _ =>
          Meets.pure _ fun db both => both.holds
      refine ⟨(facts.sound room).writePage listed _, ?_⟩
      rw [HeapFile.rows_deleteRecord, facts.rows room, List.filter_map, erase_eq_filter_fst (rids room) present]
      rfl
    · rename_i dead
      exact gone (by rw [HeapFile.getRow, if_pos listed, dead])
  · rename_i unlisted
    exact gone (by rw [HeapFile.getRow, if_neg unlisted])

end Steps

end Database

end FlintDB
