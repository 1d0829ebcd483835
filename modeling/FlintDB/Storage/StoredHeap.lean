import Mathlib.Data.Finset.Sort
import FlintDB.Lib.Fallible
import FlintDB.Storage.BufferPool
import FlintDB.Storage.SlottedPage

set_option autoImplicit false

-- HeapFile as it works on the buffer pool, one file and no transaction. The pages it reads and writes are bytes; a
-- file of pages by their records is what it stores.

namespace FlintDB

open Lib

structure StoredHeap where
  pool : BufferPool
  pageIds : List Nat

abbrev StoredHeapM := Fallible StoredHeap Exception

namespace StoredHeap

-- std::out_of_range is a std::logic_error
def beyondFile (call : String) : Exception :=
  .logicError ("DiskManager::" ++ call ++ ": page_id beyond end of file")

def fetchPage (pageId : Nat) : StoredHeapM PageImage := do
  let heap ← get
  match heap.pool.fetchPage pageId with
  | none => throw (beyondFile "ReadPage")
  | some (image, pool) =>
    set { heap with pool := pool }
    return image

-- What is stored through the Page*, and MarkDirty.
def writePage (pageId : Nat) (image : PageImage) : StoredHeapM Unit :=
  modify fun heap => { heap with pool := heap.pool.writeDirty pageId image }

-- BufferPool::NewHeapPage, and the push_back on page_ids_.
def newHeapPage : StoredHeapM Nat := do
  let heap ← get
  let (pageId, pool) := heap.pool.newPage
  set { pool := pool.writeDirty pageId (.initHeapPage pageId), pageIds := heap.pageIds ++ [pageId] : StoredHeap }
  return pageId

def insertIntoPage (pageId : Nat) (row : Bytes) : StoredHeapM (Option RID) := do
  let image ← fetchPage pageId
  match image.insertRecord row with
  | none => return none
  | some (slotId, image') =>
    writePage pageId image'
    return some ⟨pageId, slotId⟩

def insertIntoLast (row : Bytes) : StoredHeapM (Option RID) := do
  match (← get).pageIds.getLast? with
  | none => return none
  | some last => insertIntoPage last row

def insert (row : Bytes) : StoredHeapM RID := do
  if HeapFile.kMaxRowSize < row.length then
    throw (.invalidArgument "HeapFile::Insert: row is larger than a page can ever hold")
  else match ← insertIntoLast row with
    | some rid => return rid
    | none =>
      let pageId ← newHeapPage
      match ← insertIntoPage pageId row with
      | some rid => return rid
      | none => throw (.logicError "HeapFile::Insert: row did not fit in a brand-new empty page")

def getRow (rid : RID) : StoredHeapM (Option Bytes) := do
  if rid.pageId ∈ (← get).pageIds then
    let image ← fetchPage rid.pageId
    if image.slotCount ≤ rid.slotId ∨ image.isDeleted rid.slotId then return none
    else return some (image.getRecord rid.slotId)
  else return none

def scanPage (pageId : Nat) (image : PageImage) : List (RID × Bytes) :=
  (List.range image.slotCount).filterMap fun slotId =>
    if image.isDeleted slotId then none else some (⟨pageId, slotId⟩, image.getRecord slotId)

def scan : StoredHeapM (List (RID × Bytes)) := do
  Fallible.collect (fun pageId => do return scanPage pageId (← fetchPage pageId)) (← get).pageIds

def findOnPage (pred : Bytes → Bool) (image : PageImage) : Option Nat :=
  (List.range image.slotCount).find? fun slotId => !image.isDeleted slotId && pred (image.getRecord slotId)

def findFrom (pred : Bytes → Bool) : List Nat → StoredHeapM (Option RID)
  | [] => return none
  | pageId :: rest => do
    match findOnPage pred (← fetchPage pageId) with
    | some slotId => return some ⟨pageId, slotId⟩
    | none => findFrom pred rest

def find (pred : Bytes → Bool) : StoredHeapM (Option RID) := do findFrom pred (← get).pageIds

def delete (rid : RID) : StoredHeapM Bool := do
  if rid.pageId ∈ (← get).pageIds then
    let image ← fetchPage rid.pageId
    if image.slotCount ≤ rid.slotId ∨ image.isDeleted rid.slotId then return false
    else
      writePage rid.pageId (image.deleteRecord rid.slotId)
      return true
  else return false

def flushPage (pageId : Nat) : StoredHeapM Unit := do
  let heap ← get
  match heap.pool.flushPage pageId with
  | none => throw (beyondFile "WritePage")
  | some pool => set { heap with pool := pool }

/-- BufferPool::FlushAll, and a HeapFile over the file in a pool of its own. -/
def reopen : StoredHeapM Unit := do
  ((← get).pool.dirty.sort (· ≤ ·)).forM flushPage
  modify fun heap => { pool := { disk := heap.pool.disk }, pageIds := List.range heap.pool.disk.numPages }

/-- An Insert that allocates, taken back by an abort: the page stays in the file and in page_ids_, all zero. -/
def abortedAllocation : StoredHeapM Unit := do
  let pageId ← newHeapPage
  let heap ← get
  match heap.pool.discardPage pageId with
  | none => throw (beyondFile "ReadPage")
  | some pool => set { heap with pool := pool }

end StoredHeap

namespace Depicts

variable {image : PageImage} {page : Page} (depicts : Depicts image page)
include depicts

theorem scanPage (pageId : Nat) : StoredHeap.scanPage pageId image = page.liveRecords pageId := by
  have slots_eq : page.slots.zipIdx =
      (List.range page.slots.length).map fun slotId => (page.slots.getD slotId { record := [] }, slotId) := by
    refine List.ext_getElem (by simp) fun slotId within _ => ?_
    rw [List.length_zipIdx] at within
    simp [List.getElem?_eq_getElem within]
  rw [StoredHeap.scanPage, Page.liveRecords, slots_eq, List.filterMap_map, depicts.count]
  refine List.filterMap_congr fun slotId member => ?_
  have present := List.getElem?_eq_getElem (List.mem_range.mp member)
  simp only [Function.comp_apply, List.getD_eq_getElem?_getD, present, Option.getD_some]
  rw [depicts.isDeleted present, depicts.getRecord present]

theorem findOnPage (pred : Bytes → Bool) (pageId : Nat) :
    (StoredHeap.findOnPage pred image).map (fun slotId => (⟨pageId, slotId⟩ : RID)) =
      ((page.liveRecords pageId).find? fun row => pred row.2).map Prod.fst := by
  rw [← depicts.scanPage, StoredHeap.scanPage, StoredHeap.findOnPage, List.find?_filterMap]
  have same : (fun slotId => Option.any (fun row : RID × Bytes => pred row.2)
      (if image.isDeleted slotId = true then none else some (⟨pageId, slotId⟩, image.getRecord slotId))) =
      fun slotId => !image.isDeleted slotId && pred (image.getRecord slotId) := by
    funext slotId
    cases image.isDeleted slotId <;> rfl
  rw [same]
  cases found : (List.range image.slotCount).find? fun slotId =>
      !image.isDeleted slotId && pred (image.getRecord slotId) with
  | none => rfl
  | some slotId =>
    have matched := List.find?_some found
    rw [Bool.and_eq_true, Bool.not_eq_true'] at matched
    simp [matched.1]

theorem liveRecord (slotId : Nat) : page.liveRecord slotId =
    if image.slotCount ≤ slotId ∨ image.isDeleted slotId then none else some (image.getRecord slotId) := by
  rw [Page.liveRecord, depicts.count]
  by_cases present : slotId < page.slots.length
  · have found := List.getElem?_eq_getElem present
    simp only [found, Nat.not_le.mpr present, false_or]
    rw [depicts.isDeleted found, depicts.getRecord found]
  · have beyond := Nat.le_of_not_lt present
    simp [beyond]

end Depicts

namespace HeapFile

def addPage (file : HeapFile) (page : Page) : HeapFile where
  pageIds := file.pageIds ++ [file.allocated]
  pages := Function.update file.pages file.allocated page
  allocated := file.allocated + 1

@[simp] theorem addPage_pages (file : HeapFile) (page : Page) :
    (file.addPage page).pages = Function.update file.pages file.allocated page := rfl

@[simp] theorem addPage_allocated (file : HeapFile) (page : Page) :
    (file.addPage page).allocated = file.allocated + 1 := rfl

@[simp] theorem writePage_pages (file : HeapFile) (pageId : Nat) (page : Page) :
    (file.writePage pageId page).pages = Function.update file.pages pageId page := rfl

end HeapFile

namespace StoredHeap

/-- The pages of the file are, by their records, those of `file`, and page_ids_ is every page there is. A page that is not
dirty is in the data file as it is in memory. -/
structure Stores (heap : StoredHeap) (file : HeapFile) : Prop where
  pageIds : heap.pageIds = file.pageIds
  every : file.pageIds = List.range file.allocated
  allocated : heap.pool.disk.numPages = file.allocated
  depicts : ∀ pageId, Depicts (heap.pool.content pageId) (file.pages pageId)
  wellFormed : heap.pool.WellFormed
  clean : ∀ pageId, pageId ∉ heap.pool.dirty → heap.pool.content pageId = heap.pool.disk.image pageId
  zero : ∀ pageId, file.allocated ≤ pageId → file.pages pageId = {}

theorem Stores.sound {heap : StoredHeap} {file : HeapFile} (stores : heap.Stores file) : file.Sound where
  nodup := by
    rw [stores.every]
    exact List.nodup_range
  listed := fun pageId listed => by
    rw [stores.every] at listed
    exact List.mem_range.mp listed
  zero := stores.zero

theorem stores_empty : Stores { pool := { disk := {} }, pageIds := [] } {} where
  pageIds := rfl
  every := rfl
  allocated := rfl
  depicts := fun _ => depicts_zero
  wellFormed := fun _ cached => absurd rfl cached
  clean := fun _ _ => rfl
  zero := fun _ _ => rfl

section Reading

variable {heap : StoredHeap} {file : HeapFile}

theorem Stores.load (stores : heap.Stores file) {pageId : Nat} (within : pageId < heap.pool.disk.numPages) :
    Stores { heap with pool := heap.pool.load pageId } file where
  pageIds := stores.pageIds
  every := stores.every
  allocated := stores.allocated
  depicts := fun other => by
    rw [BufferPool.content_load]
    exact stores.depicts other
  wellFormed := by
    intro other cached
    by_cases same : other = pageId
    · rw [same]
      exact within
    · refine stores.wellFormed other ?_
      simpa [BufferPool.load, same] using cached
  clean := fun other undirtied => by
    rw [BufferPool.content_load]
    exact stores.clean other undirtied
  zero := stores.zero

theorem Stores.within (stores : heap.Stores file) {pageId : Nat} (listed : pageId ∈ file.pageIds) :
    pageId < heap.pool.disk.numPages := by
  rw [stores.allocated]
  exact stores.sound.listed pageId listed

theorem exec_fetchPage {pageId : Nat} (within : pageId < heap.pool.disk.numPages) :
    Fallible.exec (fetchPage pageId) heap =
      (.ok (heap.pool.content pageId), { heap with pool := heap.pool.load pageId }) := by
  rw [fetchPage, Fallible.exec_bind_ok (Fallible.exec_get heap), BufferPool.fetchPage_within within]
  rfl

theorem yields_fetch {β : Type} {pageId : Nat} (listed : pageId ∈ file.pageIds) {next : PageImage → StoredHeapM β} {b : β}
    (each : ∀ image, Depicts image (file.pages pageId) → Fallible.Yields (Stores · file) (next image) b) :
    Fallible.Yields (Stores · file) (fetchPage pageId >>= next) b := by
  intro heap stores
  rw [Fallible.exec_bind_ok (exec_fetchPage (stores.within listed))]
  exact each _ (stores.depicts pageId) _ (stores.load (stores.within listed))

theorem getRow_yields (file : HeapFile) (rid : RID) :
    Fallible.Yields (Stores · file) (getRow rid) (file.getRow rid) := by
  refine Fallible.Yields.get_bind fun heap stores => ?_
  rw [stores.pageIds, HeapFile.getRow]
  by_cases listed : rid.pageId ∈ file.pageIds
  · rw [if_pos listed, if_pos listed]
    refine yields_fetch listed fun image depicts => ?_
    rw [depicts.liveRecord]
    split
    · exact Fallible.Yields.pure _
    · exact Fallible.Yields.pure _
  · rw [if_neg listed, if_neg listed]
    exact Fallible.Yields.pure _

theorem scan_yields (file : HeapFile) : Fallible.Yields (Stores · file) scan file.rows := by
  refine Fallible.Yields.get_bind fun heap stores => ?_
  rw [stores.pageIds, HeapFile.rows]
  refine Fallible.Yields.collect fun pageId listed => yields_fetch listed fun image depicts => ?_
  rw [depicts.scanPage]
  exact Fallible.Yields.pure _

theorem findFrom_yields (file : HeapFile) (pred : Bytes → Bool) {pageIds : List Nat}
    (listed : ∀ pageId ∈ pageIds, pageId ∈ file.pageIds) :
    Fallible.Yields (Stores · file) (findFrom pred pageIds)
      (((pageIds.flatMap file.rowsOn).find? fun row => pred row.2).map Prod.fst) := by
  induction pageIds with
  | nil => exact Fallible.Yields.pure _
  | cons pageId rest ih =>
    rw [List.forall_mem_cons] at listed
    refine yields_fetch listed.1 fun image depicts => ?_
    have here := depicts.findOnPage pred pageId
    rw [List.flatMap_cons, List.find?_append, HeapFile.rowsOn]
    cases found : findOnPage pred image with
    | some slotId =>
      rw [found, Option.map_some] at here
      rw [Option.map_or, ← here]
      exact Fallible.Yields.pure _
    | none =>
      rw [found, Option.map_none] at here
      rw [Option.map_or, ← here]
      exact ih listed.2

theorem find_yields (file : HeapFile) (pred : Bytes → Bool) :
    Fallible.Yields (Stores · file) (find pred) ((file.rows.find? fun row => pred row.2).map Prod.fst) := by
  refine Fallible.Yields.get_bind fun heap stores => ?_
  rw [stores.pageIds]
  exact findFrom_yields file pred fun _ listed => listed

end Reading

section Writing

variable {heap : StoredHeap} {file : HeapFile}

theorem Stores.writePage (stores : heap.Stores file) {pageId : Nat} (listed : pageId ∈ file.pageIds) {image : PageImage}
    {page : Page} (depicts : Depicts image page) :
    Stores { heap with pool := heap.pool.writeDirty pageId image } (file.writePage pageId page) where
  pageIds := stores.pageIds
  every := stores.every
  allocated := stores.allocated
  depicts := fun other => by
    rw [BufferPool.content_writeDirty, HeapFile.writePage_pages]
    by_cases same : other = pageId
    · rw [if_pos same, same, Function.update_self]
      exact depicts
    · rw [if_neg same, Function.update_of_ne same]
      exact stores.depicts other
  wellFormed := by
    intro other cached
    by_cases same : other = pageId
    · rw [same]
      exact stores.within listed
    · refine stores.wellFormed other ?_
      simpa [BufferPool.writeDirty, same] using cached
  clean := fun other undirtied => by
    simp only [BufferPool.writeDirty, Finset.mem_insert, not_or] at undirtied
    rw [BufferPool.content_writeDirty, if_neg undirtied.1]
    exact stores.clean other undirtied.2
  zero := (stores.sound.writePage listed page).zero

theorem insertIntoPage_spec (stores : heap.Stores file) {pageId : Nat} (listed : pageId ∈ file.pageIds) (row : Bytes) :
    ((file.pages pageId).insertRecord row = none ∧ (heap.pool.content pageId).insertRecord row = none ∧
      Fallible.exec (insertIntoPage pageId row) heap =
        (.ok none, { heap with pool := heap.pool.load pageId })) ∨
    (∃ slotId page heap', (file.pages pageId).insertRecord row = some (slotId, page) ∧
      Fallible.exec (insertIntoPage pageId row) heap = (.ok (some ⟨pageId, slotId⟩), heap') ∧
      heap'.Stores (file.writePage pageId page)) := by
  have within := stores.within listed
  rw [insertIntoPage, Fallible.exec_bind_ok (exec_fetchPage within)]
  cases inserted : (heap.pool.content pageId).insertRecord row with
  | none => exact .inl ⟨(stores.depicts pageId).insertRecord_none inserted, rfl, rfl⟩
  | some placed =>
    obtain ⟨slotId, image⟩ := placed
    obtain ⟨page, inserted', depicts⟩ := (stores.depicts pageId).insertRecord inserted
    exact .inr ⟨slotId, page, _, inserted', rfl, (stores.load within).writePage listed depicts⟩

theorem Stores.addPage (stores : heap.Stores file) {image : PageImage} {page : Page} (depicts : Depicts image page)
    (dirty : Finset Nat) (kept : ∀ other ∉ dirty, other ≠ file.allocated → other ∉ heap.pool.dirty)
    (zero : file.allocated ∈ dirty ∨ image = .zero) :
    Stores
      { pool :=
          { disk := { pages := heap.pool.disk.pages ++ [PageImage.zero] }
            pages := Function.update heap.pool.pages file.allocated (some image)
            dirty := dirty }
        pageIds := heap.pageIds ++ [file.allocated] } (file.addPage page) := by
  have numPages : heap.pool.disk.pages.length = file.allocated := stores.allocated
  have content_eq : ∀ other, other ≠ file.allocated → BufferPool.content
      { disk := { pages := heap.pool.disk.pages ++ [PageImage.zero] }
        pages := Function.update heap.pool.pages file.allocated (some image)
        dirty := dirty } other = heap.pool.content other := by
    intro other different
    rw [BufferPool.content, BufferPool.content, DiskManager.image_append_zero]
    simp only [Function.update_of_ne different]
  have content_self : BufferPool.content
      { disk := { pages := heap.pool.disk.pages ++ [PageImage.zero] }
        pages := Function.update heap.pool.pages file.allocated (some image)
        dirty := dirty } file.allocated = image := by
    rw [BufferPool.content]
    simp only [Function.update_self, Option.getD_some]
  refine ⟨?_, ?_, ?_, fun other => ?_, fun other cached => ?_, fun other undirtied => ?_, fun other beyond => ?_⟩
  · rw [HeapFile.addPage, stores.pageIds]
  · rw [HeapFile.addPage, stores.every, List.range_succ]
  · simp only [DiskManager.numPages, List.length_append, List.length_cons, List.length_nil, numPages, HeapFile.addPage]
  · by_cases same : other = file.allocated
    · rw [same, content_self, HeapFile.addPage_pages, Function.update_self]
      exact depicts
    · rw [content_eq other same, HeapFile.addPage_pages, Function.update_of_ne same]
      exact stores.depicts other
  · simp only [DiskManager.numPages, List.length_append, List.length_cons, List.length_nil, numPages]
    by_cases same : other = file.allocated
    · omega
    · have older := stores.wellFormed other (by simpa [same] using cached)
      rw [stores.allocated] at older
      omega
  · by_cases same : other = file.allocated
    · subst same
      rcases zero with isDirty | rfl
      · exact absurd isDirty undirtied
      · rw [content_self, DiskManager.image_append_zero, DiskManager.image, DiskManager.readPage,
          List.getElem?_eq_none (Nat.le_of_eq numPages)]
        rfl
    · rw [content_eq other same, DiskManager.image_append_zero]
      exact stores.clean other (kept other undirtied same)
  · have beyond : file.allocated + 1 ≤ other := beyond
    rw [HeapFile.addPage_pages, Function.update_of_ne (by omega)]
    exact stores.zero other (by omega)

def grown (heap : StoredHeap) : StoredHeap where
  pool :=
    { disk := { pages := heap.pool.disk.pages ++ [PageImage.zero] }
      pages := Function.update heap.pool.pages heap.pool.disk.numPages (some (.initHeapPage heap.pool.disk.numPages))
      dirty := Insert.insert heap.pool.disk.numPages heap.pool.dirty }
  pageIds := heap.pageIds ++ [heap.pool.disk.numPages]

theorem exec_newHeapPage (room : heap.pool.disk.numPages + 1 < 2 ^ 32) :
    Fallible.exec newHeapPage heap = (.ok heap.pool.disk.numPages, heap.grown) := by
  rw [newHeapPage, Fallible.exec_bind_ok (Fallible.exec_get heap), BufferPool.newPage_eq room]
  simp only [BufferPool.writeDirty, Function.update_idem, Finset.insert_idem]
  rfl

theorem Stores.grown (stores : heap.Stores file) : heap.grown.Stores (file.addPage .initHeapPage) := by
  rw [StoredHeap.grown, stores.allocated]
  exact stores.addPage (depicts_initHeapPage _) _
    (fun other undirtied _ => fun isDirty => undirtied (Finset.mem_insert_of_mem isDirty))
    (.inl (Finset.mem_insert_self _ _))

theorem abortedAllocation_spec (stores : heap.Stores file) (room : heap.pool.disk.numPages + 1 < 2 ^ 32) :
    ∃ heap', Fallible.exec abortedAllocation heap = (.ok (), heap') ∧ heap'.Stores (file.addPage {}) := by
  have length_eq : heap.pool.disk.pages.length = file.allocated := stores.allocated
  have read : DiskManager.readPage { pages := heap.pool.disk.pages ++ [PageImage.zero] } file.allocated =
      some .zero := by
    rw [DiskManager.readPage, ← length_eq, List.getElem?_concat_length]
  have discarded : heap.grown.pool.discardPage file.allocated = some
      { disk := { pages := heap.pool.disk.pages ++ [PageImage.zero] }
        pages := Function.update heap.pool.pages file.allocated (some .zero)
        dirty := (Insert.insert file.allocated heap.pool.dirty).erase file.allocated } := by
    simp only [StoredHeap.grown, stores.allocated, BufferPool.discardPage, Function.update_self, read,
      Function.update_idem]
  rw [abortedAllocation, Fallible.exec_bind_ok (exec_newHeapPage room), Fallible.exec_bind_ok (Fallible.exec_get _),
    stores.allocated, discarded]
  refine ⟨_, rfl, ?_⟩
  have added := stores.addPage depicts_zero ((Insert.insert file.allocated heap.pool.dirty).erase file.allocated)
    (fun other undirtied different isDirty =>
      undirtied (Finset.mem_erase.mpr ⟨different, Finset.mem_insert_of_mem isDirty⟩)) (.inr rfl)
  simpa only [StoredHeap.grown, stores.allocated] using added

-- What an Insert does to the records: a slot of its own behind the others of its page.
structure Inserted (file : HeapFile) (rid : RID) (row : Bytes) (file' : HeapFile) : Prop where
  rows : file'.rows = file.rows ++ [(rid, row)]
  unused : rid.slotId = (file.pages rid.pageId).slots.length
  slots : ∀ pageId, (file'.pages pageId).slots.length =
    (file.pages pageId).slots.length + if pageId = rid.pageId then 1 else 0

theorem inserted_writePage (sound : file.Sound) {last slotId : Nat} {row : Bytes} {page : Page}
    (isLast : file.pageIds.getLast? = some last)
    (inserted : (file.pages last).insertRecord row = some (slotId, page)) :
    Inserted file ⟨last, slotId⟩ row (file.writePage last page) := by
  obtain ⟨slotId_eq, slots_eq⟩ := Page.insertRecord_eq_some inserted
  refine ⟨HeapFile.rows_insertRecord sound isLast inserted, slotId_eq, fun pageId => ?_⟩
  rw [HeapFile.writePage_pages]
  by_cases same : pageId = last
  · rw [same, Function.update_self, slots_eq, if_pos rfl, List.length_append]
    rfl
  · rw [Function.update_of_ne same, if_neg same, Nat.add_zero]

theorem Stores.slots_addPage (stores : heap.Stores file) {page : Page} (bare : page.slots = []) (pageId : Nat) :
    ((file.addPage page).pages pageId).slots = (file.pages pageId).slots := by
  rw [HeapFile.addPage_pages]
  by_cases same : pageId = file.allocated
  · rw [same, Function.update_self, bare, stores.zero _ (Nat.le_refl _)]
  · rw [Function.update_of_ne same]

theorem Stores.rows_addPage (stores : heap.Stores file) {page : Page} (bare : page.slots = []) :
    (file.addPage page).rows = file.rows := by
  have newBare : ((file.writePage file.allocated page).pages file.allocated).slots = [] := by
    rw [HeapFile.writePage_pages, Function.update_self, bare]
  refine (HeapFile.rows_listPage (file.writePage file.allocated page) newBare).trans ?_
  refine List.flatMap_congr fun pageId listed => ?_
  have different : pageId ≠ file.allocated := Nat.ne_of_lt (stores.sound.listed pageId listed)
  rw [HeapFile.rowsOn_writePage, if_neg different]

theorem Inserted.of_addPage (stores : heap.Stores file) {rid : RID} {row : Bytes} {file' : HeapFile} {page : Page}
    (bare : page.slots = []) (inserted : Inserted (file.addPage page) rid row file') : Inserted file rid row file' := by
  refine ⟨?_, ?_, fun pageId => ?_⟩
  · rw [inserted.rows, stores.rows_addPage bare]
  · rw [inserted.unused, stores.slots_addPage bare]
  · rw [inserted.slots, stores.slots_addPage bare]

-- The last page does not take the row, so that one is allocated.
def Allocates (heap : StoredHeap) (row : Bytes) : Prop :=
  ∀ last, heap.pageIds.getLast? = some last → (heap.pool.content last).insertRecord row = none

theorem insertIntoNew_spec (stores : heap.Stores file) (room : heap.pool.disk.numPages + 1 < 2 ^ 32) {row : Bytes}
    (fits : row.length ≤ HeapFile.kMaxRowSize) :
    ∃ rid heap' file', Fallible.exec (newHeapPage >>= fun pageId => insertIntoPage pageId row) heap =
      (.ok (some rid), heap') ∧ heap'.Stores file' ∧ Inserted file rid row file' := by
  rw [Fallible.exec_bind_ok (exec_newHeapPage room), stores.allocated]
  have isLast : (file.addPage .initHeapPage).pageIds.getLast? = some file.allocated := List.getLast?_concat
  have page_eq : (file.addPage .initHeapPage).pages file.allocated = .initHeapPage := by
    rw [HeapFile.addPage_pages, Function.update_self]
  rcases insertIntoPage_spec stores.grown (List.mem_of_getLast? isLast) row with
    ⟨refused, _⟩ | ⟨slotId, page, heap', inserted, done, stores'⟩
  · have taken := Page.insertRecord_initHeapPage fits
    rw [page_eq] at refused
    rw [refused] at taken
    cases taken
  · exact ⟨_, heap', _, done, stores', .of_addPage stores rfl (inserted_writePage stores.grown.sound isLast inserted)⟩

theorem insert_spec (stores : heap.Stores file) {row : Bytes} (fits : row.length ≤ HeapFile.kMaxRowSize)
    (room : heap.Allocates row → heap.pool.disk.numPages + 1 < 2 ^ 32) :
    ∃ rid heap' file', Fallible.exec (insert row) heap = (.ok rid, heap') ∧ heap'.Stores file' ∧
      Inserted file rid row file' := by
  rw [insert, if_neg (Nat.not_lt.mpr fits)]
  -- what follows a last page without room
  have onward : ∀ heap' : StoredHeap, heap'.Stores file → heap'.pool.disk.numPages + 1 < 2 ^ 32 →
      Fallible.exec (insertIntoLast row) heap = (.ok none, heap') →
      ∃ rid heap' file', Fallible.exec (insertIntoLast row >>= fun
        | some rid => return rid
        | none => do
          let pageId ← newHeapPage
          match ← insertIntoPage pageId row with
          | some rid => return rid
          | none => throw (.logicError "HeapFile::Insert: row did not fit in a brand-new empty page")) heap =
        (.ok rid, heap') ∧ heap'.Stores file' ∧ Inserted file rid row file' := by
    intro heap' stores' room' refused
    obtain ⟨rid, heap'', file', done, stores'', inserted⟩ := insertIntoNew_spec stores' room' fits
    refine ⟨rid, heap'', file', ?_, stores'', inserted⟩
    rw [Fallible.exec_bind_ok refused]
    simp only
    rw [← bind_assoc, Fallible.exec_bind_ok done]
    rfl
  cases isLast : file.pageIds.getLast? with
  | none =>
    have refused : Fallible.exec (insertIntoLast row) heap = (.ok none, heap) := by
      rw [insertIntoLast, Fallible.exec_bind_ok (Fallible.exec_get heap), stores.pageIds, isLast]
      rfl
    refine onward heap stores (room fun last found => ?_) refused
    rw [stores.pageIds, isLast] at found
    cases found
  | some last =>
    have tried : Fallible.exec (insertIntoLast row) heap = Fallible.exec (insertIntoPage last row) heap := by
      rw [insertIntoLast, Fallible.exec_bind_ok (Fallible.exec_get heap), stores.pageIds, isLast]
    have listed := List.mem_of_getLast? isLast
    rcases insertIntoPage_spec stores listed row with
      ⟨_, full, refused⟩ | ⟨slotId, page, heap', inserted, done, stores'⟩
    · refine onward _ (stores.load (stores.within listed)) (room fun other found => ?_) (tried.trans refused)
      rw [stores.pageIds, isLast, Option.some.injEq] at found
      rw [← found]
      exact full
    · refine ⟨⟨last, slotId⟩, heap', _, ?_, stores', inserted_writePage stores.sound isLast inserted⟩
      rw [Fallible.exec_bind_ok (tried.trans done)]
      rfl

theorem insert_oversized {row : Bytes} (long : HeapFile.kMaxRowSize < row.length) (heap : StoredHeap) :
    Fallible.exec (insert row) heap =
      (.error (.invalidArgument "HeapFile::Insert: row is larger than a page can ever hold"), heap) := by
  rw [insert, if_pos long]
  rfl

theorem delete_spec (stores : heap.Stores file) (rid : RID) :
    ∃ heap' file', Fallible.exec (delete rid) heap = (.ok (file.getRow rid).isSome, heap') ∧ heap'.Stores file' ∧
      file'.rows = file.rows.filter (fun row => row.1 ≠ rid) ∧
      ∀ pageId, (file'.pages pageId).slots.length = (file.pages pageId).slots.length := by
  -- nothing is deleted where there is no row
  have missing : file.getRow rid = none → file.rows = file.rows.filter fun row => row.1 ≠ rid := by
    intro none
    refine (List.filter_eq_self.mpr fun row member => ?_).symm
    have different : row.1 ≠ rid := by
      intro same
      have found := HeapFile.mem_rows.mp (show (row.1, row.2) ∈ file.rows from member)
      rw [same, none] at found
      cases found
    exact decide_eq_true different
  rw [delete, Fallible.exec_bind_ok (Fallible.exec_get heap), stores.pageIds]
  by_cases listed : rid.pageId ∈ file.pageIds
  · have within := stores.within listed
    have depicts := stores.depicts rid.pageId
    rw [if_pos listed, Fallible.exec_bind_ok (exec_fetchPage within)]
    have live := depicts.liveRecord rid.slotId
    have row_eq : file.getRow rid = (file.pages rid.pageId).liveRecord rid.slotId := if_pos listed
    by_cases gone : (heap.pool.content rid.pageId).slotCount ≤ rid.slotId ∨
        (heap.pool.content rid.pageId).isDeleted rid.slotId = true
    · rw [if_pos gone] at live ⊢
      rw [row_eq, live]
      exact ⟨_, file, rfl, stores.load within, missing (row_eq.trans live), fun _ => rfl⟩
    · rw [if_neg gone] at live ⊢
      rw [row_eq, live]
      have present : rid.slotId < (file.pages rid.pageId).slots.length := by
        rw [← depicts.count]
        exact Nat.lt_of_not_le fun beyond => gone (.inl beyond)
      refine ⟨_, _, rfl, (stores.load within).writePage listed (depicts.deleteRecord present),
        HeapFile.rows_deleteRecord rid file, fun pageId => ?_⟩
      rw [HeapFile.writePage_pages]
      by_cases same : pageId = rid.pageId
      · rw [same, Function.update_self, Page.deleteRecord, List.length_modify]
      · rw [Function.update_of_ne same]
  · have none : file.getRow rid = none := if_neg listed
    rw [if_neg listed, none]
    exact ⟨heap, file, rfl, stores, missing none, fun _ => rfl⟩

structure Flushed (heap : StoredHeap) (file : HeapFile) (flushed : List Nat) (heap' : StoredHeap) : Prop where
  stores : heap'.Stores file
  dirty : heap'.pool.dirty ⊆ heap.pool.dirty
  written : ∀ pageId ∈ flushed, heap'.pool.content pageId = heap'.pool.disk.image pageId

theorem Stores.flushPage (stores : heap.Stores file) {pageId : Nat} {pool : BufferPool}
    (flushed : heap.pool.flushPage pageId = some pool) :
    Stores { heap with pool := pool } file ∧ pool.dirty ⊆ heap.pool.dirty ∧
      ∀ other, (other = pageId ∨ heap.pool.content other = heap.pool.disk.image other) →
        pool.content other = pool.disk.image other := by
  rcases BufferPool.flushPage_some flushed with ⟨unwritten, rfl⟩ | ⟨cached, within, rfl⟩
  · refine ⟨stores, Finset.Subset.refl _, fun other clean => ?_⟩
    rcases clean with rfl | clean
    · rcases unwritten with uncached | undirtied
      · exact BufferPool.content_of_uncached uncached
      · exact stores.clean _ undirtied
    · exact clean
  · have content_eq : ∀ other, BufferPool.content { heap.pool with
        disk := { pages := heap.pool.disk.pages.set pageId (heap.pool.content pageId) }
        dirty := heap.pool.dirty.erase pageId } other = heap.pool.content other := by
      intro other
      rw [BufferPool.content, DiskManager.image_set _ _ _ _ within]
      by_cases same : other = pageId
      · subst same
        obtain ⟨image, cached⟩ := Option.ne_none_iff_exists'.mp cached
        rw [cached, BufferPool.content_of_cached cached]
        rfl
      · rw [if_neg same]
        rfl
    have written : ∀ other, (other = pageId ∨ heap.pool.content other = heap.pool.disk.image other) →
        heap.pool.content other = DiskManager.image
          { pages := heap.pool.disk.pages.set pageId (heap.pool.content pageId) } other := by
      intro other clean
      rw [DiskManager.image_set _ _ _ _ within]
      by_cases same : other = pageId
      · rw [if_pos same, same]
      · rw [if_neg same]
        exact clean.resolve_left same
    refine ⟨⟨stores.pageIds, stores.every, ?_, fun other => ?_, fun other isCached => ?_, fun other undirtied => ?_,
      stores.zero⟩, Finset.erase_subset _ _, fun other clean => (content_eq other).trans (written other clean)⟩
    · simpa [DiskManager.numPages] using stores.allocated
    · rw [content_eq]
      exact stores.depicts other
    · simpa [DiskManager.numPages] using stores.wellFormed other isCached
    · rw [content_eq]
      refine written other ?_
      by_cases same : other = pageId
      · exact .inl same
      · exact .inr (stores.clean other fun isDirty => undirtied (Finset.mem_erase.mpr ⟨same, isDirty⟩))

theorem flushPage_returns (stores : heap.Stores file) (pageId : Nat) :
    ∃ pool, heap.pool.flushPage pageId = some pool := by
  rw [BufferPool.flushPage]
  cases cached : heap.pool.pages pageId with
  | none => exact ⟨_, rfl⟩
  | some image =>
    have within := stores.wellFormed pageId (by rw [cached]; exact Option.some_ne_none image)
    by_cases isDirty : pageId ∈ heap.pool.dirty
    · simp only [if_pos isDirty, DiskManager.writePage, if_pos within]
      exact ⟨_, rfl⟩
    · simp only [if_neg isDirty]
      exact ⟨_, rfl⟩

theorem flushAll_meets (heap : StoredHeap) (file : HeapFile) (pageIds : List Nat) :
    Fallible.Meets (Flushed heap file []) (pageIds.forM flushPage) (fun _ => Flushed heap file pageIds)
      (fun _ => False) := by
  refine Fallible.Meets.forM (Flushed heap file) fun before pageId after _ heap' flushed => ?_
  obtain ⟨pool, done⟩ := flushPage_returns flushed.stores pageId
  have returned : Fallible.exec (flushPage pageId) heap' = (.ok (), { heap' with pool := pool }) := by
    rw [flushPage, Fallible.exec_bind_ok (Fallible.exec_get heap'), done]
    rfl
  obtain ⟨stores, dirty, clean⟩ := flushed.stores.flushPage done
  rw [returned]
  refine ⟨stores, dirty.trans flushed.dirty, fun other member => clean other ?_⟩
  rcases List.mem_append.mp member with earlier | here
  · exact .inr (flushed.written other earlier)
  · exact .inl (List.mem_singleton.mp here)

theorem reopen_spec (stores : heap.Stores file) :
    ∃ disk : DiskManager, Fallible.exec reopen heap =
        (.ok (), { pool := { disk := disk }, pageIds := List.range disk.numPages }) ∧
      Stores { pool := { disk := disk }, pageIds := List.range disk.numPages } file := by
  have flushed := flushAll_meets heap file (heap.pool.dirty.sort (· ≤ ·)) heap
    ⟨stores, Finset.Subset.refl _, fun _ member => by cases member⟩
  rw [reopen, Fallible.exec_bind_ok (Fallible.exec_get heap), Fallible.exec_bind]
  split at flushed
  · rename_i heap' done
    rw [done]
    have content_eq : ∀ pageId, heap'.pool.content pageId = heap'.pool.disk.image pageId := by
      intro pageId
      by_cases isDirty : pageId ∈ heap.pool.dirty
      · exact flushed.written pageId ((Finset.mem_sort _).mpr isDirty)
      · exact flushed.stores.clean pageId fun stillDirty => isDirty (flushed.dirty stillDirty)
    refine ⟨heap'.pool.disk, rfl, ?_⟩
    refine ⟨?_, flushed.stores.every, flushed.stores.allocated, fun pageId => ?_, fun _ cached => absurd rfl cached,
      fun _ _ => rfl, flushed.stores.zero⟩
    · rw [flushed.stores.every, flushed.stores.allocated]
    · change Depicts (heap'.pool.disk.image pageId) _
      rw [← content_eq]
      exact flushed.stores.depicts pageId
  · cases flushed

end Writing

end StoredHeap

end FlintDB
