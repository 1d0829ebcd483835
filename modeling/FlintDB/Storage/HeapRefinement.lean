import FlintDB.Storage.StoredHeap

set_option autoImplicit false

-- Whatever was inserted, deleted, taken back and reopened, a heap file is a map from RIDs to rows: every read agrees
-- with it, and no RID is handed out twice. Page ids have 32 bits, and AllocatePage counts past the last of them.

namespace FlintDB

open Lib

-- The order of pages, and of slots on a page.
def RID.Before (first second : RID) : Prop :=
  first.pageId < second.pageId ∨ (first.pageId = second.pageId ∧ first.slotId < second.slotId)

theorem Page.liveRecords_ordered (page : Page) (pageId : Nat) :
    (page.liveRecords pageId).Pairwise fun first second => first.1.Before second.1 := by
  have slots : (page.slots.zipIdx.map Prod.snd).Pairwise (· < ·) := by
    rw [List.zipIdx_map_snd]
    exact List.pairwise_lt_range'
  refine List.pairwise_filterMap.mpr ((List.pairwise_map.mp slots).imp ?_)
  rintro ⟨slot, slotId⟩ ⟨slot', slotId'⟩ earlier row isFirst other isSecond
  simp only at isFirst isSecond
  split at isFirst
  · cases isFirst
  · split at isSecond
    · cases isSecond
    · cases isFirst
      cases isSecond
      exact .inr ⟨rfl, earlier⟩

theorem HeapFile.rows_ordered {file : HeapFile} (ordered : file.pageIds.Pairwise (· < ·)) :
    file.rows.Pairwise fun first second => first.1.Before second.1 := by
  rw [rows, List.pairwise_flatMap]
  refine ⟨fun pageId _ => Page.liveRecords_ordered _ pageId, ordered.imp fun {first second} earlier => ?_⟩
  intro row onFirst other onSecond
  refine .inl ?_
  rw [(Page.mem_liveRecords.mp onFirst).1, (Page.mem_liveRecords.mp onSecond).1]
  exact earlier

-- A heap file, the map it stands for, and the RIDs it has handed out.
structure HeapHistory where
  heap : StoredHeap := { pool := { disk := {} }, pageIds := [] }
  live : RID → Option Bytes := fun _ => none
  issued : List RID := []

inductive HeapEvent
  | insert (row : Bytes)
  | delete (rid : RID)
  | reopen
  | abortedAllocation
  | getRow (rid : RID)
  | scan
  | find (pred : Bytes → Bool)

namespace HeapHistory

open StoredHeap (Stores Inserted)

def step (history : HeapHistory) : HeapEvent → HeapHistory
  | .insert row =>
    match Fallible.exec (StoredHeap.insert row) history.heap with
    | (.ok rid, heap) =>
      { heap := heap, live := Function.update history.live rid (some row), issued := rid :: history.issued }
    | (.error _, heap) => { history with heap := heap }
  | .delete rid =>
    match Fallible.exec (StoredHeap.delete rid) history.heap with
    | (.ok _, heap) => { history with heap := heap, live := Function.update history.live rid none }
    | (.error _, heap) => { history with heap := heap }
  | .reopen => { history with heap := (Fallible.exec StoredHeap.reopen history.heap).2 }
  | .abortedAllocation => { history with heap := (Fallible.exec StoredHeap.abortedAllocation history.heap).2 }
  | .getRow rid => { history with heap := (Fallible.exec (StoredHeap.getRow rid) history.heap).2 }
  | .scan => { history with heap := (Fallible.exec StoredHeap.scan history.heap).2 }
  | .find pred => { history with heap := (Fallible.exec (StoredHeap.find pred) history.heap).2 }

def run (events : List HeapEvent) : HeapHistory := events.foldl step {}

-- A page is allocated.
def Allocates (heap : StoredHeap) : HeapEvent → Prop
  | .insert row => row.length ≤ HeapFile.kMaxRowSize ∧ heap.Allocates row
  | .abortedAllocation => True
  | _ => False

/-- There is an id for the page that is allocated, and one for the next. -/
def HasRoom (heap : StoredHeap) (event : HeapEvent) : Prop := Allocates heap event → heap.pool.disk.numPages + 1 < 2 ^ 32

def Roomy (history : HeapHistory) : List HeapEvent → Prop
  | [] => True
  | event :: rest => HasRoom history.heap event ∧ Roomy (history.step event) rest

/-- The heap file does what the map says. -/
structure RefinesMap (history : HeapHistory) : Prop where
  insert : ∀ row, row.length ≤ HeapFile.kMaxRowSize → HasRoom history.heap (.insert row) →
    ∃ rid heap, Fallible.exec (StoredHeap.insert row) history.heap = (.ok rid, heap) ∧ rid ∉ history.issued
  oversized : ∀ row, HeapFile.kMaxRowSize < row.length → Fallible.exec (StoredHeap.insert row) history.heap =
    (.error (.invalidArgument "HeapFile::Insert: row is larger than a page can ever hold"), history.heap)
  delete : ∀ rid, ∃ heap, Fallible.exec (StoredHeap.delete rid) history.heap = (.ok (history.live rid).isSome, heap)
  getRow : ∀ rid, ∃ heap, Fallible.exec (StoredHeap.getRow rid) history.heap = (.ok (history.live rid), heap)
  scan : ∃ rows heap, Fallible.exec StoredHeap.scan history.heap = (.ok rows, heap) ∧
    (rows.Pairwise fun first second => first.1.Before second.1) ∧
    (∀ rid row, (rid, row) ∈ rows ↔ history.live rid = some row) ∧
    ∀ pred, ∃ heap, Fallible.exec (StoredHeap.find pred) history.heap =
      (.ok ((rows.find? fun row => pred row.2).map Prod.fst), heap)

structure Backed (history : HeapHistory) (file : HeapFile) : Prop where
  stores : history.heap.Stores file
  live : ∀ rid, history.live rid = file.getRow rid
  issued : ∀ rid ∈ history.issued, rid.slotId < (file.pages rid.pageId).slots.length

theorem Backed.refinesMap {history : HeapHistory} {file : HeapFile} (backed : history.Backed file) :
    history.RefinesMap where
  insert := by
    intro row fits room
    obtain ⟨rid, heap, file', done, _, inserted⟩ :=
      StoredHeap.insert_spec backed.stores fits fun allocates => room ⟨fits, allocates⟩
    refine ⟨rid, heap, done, fun known => ?_⟩
    have used := backed.issued rid known
    rw [inserted.unused] at used
    exact Nat.lt_irrefl _ used
  oversized := fun row long => StoredHeap.insert_oversized long history.heap
  delete := by
    intro rid
    obtain ⟨heap, _, done, _⟩ := StoredHeap.delete_spec backed.stores rid
    exact ⟨heap, by rw [done, backed.live]⟩
  getRow := by
    intro rid
    obtain ⟨heap, done, _⟩ := StoredHeap.getRow_yields file rid history.heap backed.stores
    exact ⟨heap, by rw [done, backed.live]⟩
  scan := by
    obtain ⟨heap, done, _⟩ := StoredHeap.scan_yields file history.heap backed.stores
    refine ⟨file.rows, heap, done, HeapFile.rows_ordered ?_, fun rid row => ?_, fun pred => ?_⟩
    · rw [backed.stores.every]
      exact List.pairwise_lt_range
    · rw [backed.live]
      exact HeapFile.mem_rows
    · obtain ⟨heap, done, _⟩ := StoredHeap.find_yields file pred history.heap backed.stores
      exact ⟨heap, done⟩

theorem backed_start : ({} : HeapHistory).Backed {} where
  stores := StoredHeap.stores_empty
  live := fun _ => rfl
  issued := fun _ member => by cases member

section Step

variable {history : HeapHistory} {file : HeapFile}

theorem Backed.of_yields {α : Type} (backed : history.Backed file) {program : StoredHeapM α} {a : α}
    (yields : Fallible.Yields (Stores · file) program a) :
    Backed { history with heap := (Fallible.exec program history.heap).2 } file := by
  obtain ⟨heap, done, stores⟩ := yields history.heap backed.stores
  rw [done]
  exact ⟨stores, backed.live, backed.issued⟩

theorem Backed.insert (backed : history.Backed file) {row : Bytes} (room : HasRoom history.heap (.insert row)) :
    ∃ file', (history.step (.insert row)).Backed file' := by
  rw [step]
  by_cases fits : row.length ≤ HeapFile.kMaxRowSize
  · obtain ⟨rid, heap, file', done, stores, inserted⟩ :=
      StoredHeap.insert_spec backed.stores fits fun allocates => room ⟨fits, allocates⟩
    have unknown : file.getRow rid = none := by
      rw [HeapFile.getRow, Page.liveRecord, inserted.unused, List.getElem?_eq_none (Nat.le_refl _), ite_self]
    rw [done]
    refine ⟨file', stores, fun other => ?_, fun other known => ?_⟩
    · refine Option.ext fun data => ?_
      rw [← HeapFile.mem_rows, inserted.rows, List.mem_append, HeapFile.mem_rows, List.mem_singleton]
      by_cases same : other = rid
      · subst same
        simp only [Function.update_self, unknown, Option.some.injEq, Prod.mk.injEq, true_and, reduceCtorEq, false_or]
        exact eq_comm
      · simp only [Function.update_of_ne same, backed.live, Prod.mk.injEq, same, false_and, or_false]
    · rw [inserted.slots]
      rcases List.mem_cons.mp known with rfl | earlier
      · rw [if_pos rfl, inserted.unused]
        exact Nat.lt_succ_self _
      · exact Nat.lt_add_right _ (backed.issued other earlier)
  · rw [StoredHeap.insert_oversized (Nat.lt_of_not_le fits)]
    exact ⟨file, backed⟩

theorem Backed.delete (backed : history.Backed file) (rid : RID) :
    ∃ file', (history.step (.delete rid)).Backed file' := by
  obtain ⟨heap, file', done, stores, rows_eq, slots_eq⟩ := StoredHeap.delete_spec backed.stores rid
  rw [step, done]
  refine ⟨file', stores, fun other => ?_, fun other known => ?_⟩
  · refine Option.ext fun data => ?_
    rw [← HeapFile.mem_rows, rows_eq, List.mem_filter, HeapFile.mem_rows]
    by_cases same : other = rid
    · simp [same]
    · simp [same, backed.live]
  · rw [slots_eq]
    exact backed.issued other known

theorem Backed.step (backed : history.Backed file) {event : HeapEvent} (room : HasRoom history.heap event) :
    ∃ file', (history.step event).Backed file' := by
  cases event with
  | insert row => exact backed.insert room
  | delete rid => exact backed.delete rid
  | reopen =>
    obtain ⟨disk, done, stores⟩ := StoredHeap.reopen_spec backed.stores
    rw [HeapHistory.step, done]
    exact ⟨file, stores, backed.live, backed.issued⟩
  | abortedAllocation =>
    obtain ⟨heap, done, stores⟩ := StoredHeap.abortedAllocation_spec backed.stores (room trivial)
    rw [HeapHistory.step, done]
    refine ⟨file.addPage {}, stores, fun rid => ?_, fun rid known => ?_⟩
    · rw [backed.live]
      refine Option.ext fun data => ?_
      rw [← HeapFile.mem_rows, ← HeapFile.mem_rows, backed.stores.rows_addPage rfl]
    · rw [backed.stores.slots_addPage rfl]
      exact backed.issued rid known
  | getRow rid => exact ⟨file, backed.of_yields (StoredHeap.getRow_yields file rid)⟩
  | scan => exact ⟨file, backed.of_yields (StoredHeap.scan_yields file)⟩
  | find pred => exact ⟨file, backed.of_yields (StoredHeap.find_yields file pred)⟩

end Step

theorem Backed.run {history : HeapHistory} {file : HeapFile} (backed : history.Backed file) {events : List HeapEvent}
    (roomy : history.Roomy events) : ∃ file', (events.foldl HeapHistory.step history).Backed file' := by
  induction events generalizing history file with
  | nil => exact ⟨file, backed⟩
  | cons event rest ih =>
    obtain ⟨file', after⟩ := backed.step roomy.1
    exact ih after roomy.2

/-- A heap file refines a map from RIDs to rows in every run in which page ids are left whenever a page is allocated. -/
theorem heapFile_refines_map (events : List HeapEvent) (roomy : Roomy {} events) : (run events).RefinesMap := by
  obtain ⟨file, backed⟩ := backed_start.run roomy
  exact backed.refinesMap

theorem heapFile_refines_map_reopened :
    Roomy {} [.abortedAllocation, .insert [7], .reopen, .delete ⟨1, 0⟩] ∧
      (run [.abortedAllocation, .insert [7], .reopen, .delete ⟨1, 0⟩]).RefinesMap := by
  have roomy : Roomy {} [.abortedAllocation, .insert [7], .reopen, .delete ⟨1, 0⟩] :=
    ⟨fun _ => by decide, fun _ => by decide, fun allocates => allocates.elim, fun allocates => allocates.elim, trivial⟩
  exact ⟨roomy, heapFile_refines_map _ roomy⟩

def zeroPages (n : Nat) : HeapFile := { pageIds := List.range n, allocated := n }

theorem addPage_zeroPages (n : Nat) : (zeroPages n).addPage {} = zeroPages (n + 1) := by
  simp only [HeapFile.addPage, zeroPages, Function.update_eq_self, List.range_succ]

theorem stores_zeroPages {n : Nat} (small : n < 2 ^ 32) :
    (run (List.replicate n .abortedAllocation)).heap.Stores (zeroPages n) := by
  induction n with
  | zero => exact StoredHeap.stores_empty
  | succ n ih =>
    have before := ih (Nat.lt_of_succ_lt small)
    have room : (run (List.replicate n .abortedAllocation)).heap.pool.disk.numPages + 1 < 2 ^ 32 := by
      rw [before.allocated]
      exact small
    obtain ⟨heap, done, stores⟩ := StoredHeap.abortedAllocation_spec before room
    rw [addPage_zeroPages] at stores
    rw [run, List.replicate_succ', List.foldl_append]
    change (Fallible.exec StoredHeap.abortedAllocation (run (List.replicate n .abortedAllocation)).heap).2.Stores _
    rw [done]
    exact stores

structure Lost (heap : StoredHeap) : Prop where
  listed : ∃ rest, heap.pageIds = 0 :: rest
  uncached : heap.pool.pages 0 = none
  emptied : heap.pool.disk.pages = []

theorem scan_throws {heap : StoredHeap} (lost : Lost heap) :
    (Fallible.exec StoredHeap.scan heap).1 = .error (StoredHeap.beyondFile "ReadPage") := by
  obtain ⟨rest, listed⟩ := lost.listed
  have fetched : heap.pool.fetchPage 0 = none := by
    rw [BufferPool.fetchPage, lost.uncached, DiskManager.readPage, lost.emptied]
    rfl
  have thrown : Fallible.exec (StoredHeap.fetchPage 0) heap = (.error (StoredHeap.beyondFile "ReadPage"), heap) := by
    rw [StoredHeap.fetchPage, Fallible.exec_bind_ok (Fallible.exec_get heap), fetched]
    rfl
  rw [StoredHeap.scan, Fallible.exec_bind_ok (Fallible.exec_get heap), listed, Fallible.collect,
    Fallible.exec_bind_error (Fallible.exec_bind_error thrown)]

section Wrapped

-- the number of pages stays a variable, so that nothing unfolds it
variable {heap : StoredHeap} {n : Nat} (last : n + 1 = 2 ^ 32)
include last

theorem exec_newHeapPage_wrapped (full : heap.pool.disk.numPages = n) :
    ∃ heap', Fallible.exec StoredHeap.newHeapPage heap = (.ok n, heap') ∧ heap'.pool.disk.pages = [] ∧
      heap'.pageIds = heap.pageIds ++ [n] ∧
      heap'.pool.pages = Function.update heap.pool.pages n (some (.initHeapPage n)) := by
  have allocated : heap.pool.disk.allocatePage = (n, { pages := [] }) := by
    rw [DiskManager.allocatePage, full, last, Nat.mod_self, List.take_zero]
  rw [StoredHeap.newHeapPage, Fallible.exec_bind_ok (Fallible.exec_get heap), BufferPool.newPage, allocated]
  exact ⟨_, rfl, rfl, rfl, Function.update_idem _ _ _⟩

theorem insertIntoPage_wrapped (lost : Lost heap) (cached : heap.pool.pages n = some (.initHeapPage n)) :
    ∃ rid heap', Fallible.exec (StoredHeap.insertIntoPage n []) heap = (.ok (some rid), heap') ∧ Lost heap' := by
  have fetched : heap.pool.fetchPage n = some (.initHeapPage n, heap.pool) := by
    rw [BufferPool.fetchPage, cached]
  have returned : Fallible.exec (StoredHeap.fetchPage n) heap = (.ok (.initHeapPage n), heap) := by
    rw [StoredHeap.fetchPage, Fallible.exec_bind_ok (Fallible.exec_get heap), fetched]
    rfl
  rw [StoredHeap.insertIntoPage, Fallible.exec_bind_ok returned]
  cases inserted : (PageImage.initHeapPage n).insertRecord [] with
  | none =>
    have refused := (depicts_initHeapPage n).insertRecord_none inserted
    have taken : (Page.initHeapPage.insertRecord []).isSome = true := Page.insertRecord_initHeapPage (by decide)
    rw [refused] at taken
    cases taken
  | some placed =>
    refine ⟨_, _, rfl, lost.listed, ?_, lost.emptied⟩
    change Function.update heap.pool.pages n _ 0 = none
    rw [Function.update_of_ne (by omega)]
    exact lost.uncached

theorem insert_wrapped (stores : heap.Stores (zeroPages n)) (uncached : heap.pool.pages 0 = none) :
    ∃ rid heap', Fallible.exec (StoredHeap.insert []) heap = (.ok rid, heap') ∧ Lost heap' := by
  have isLast : heap.pageIds.getLast? = some (n - 1) := by
    rw [stores.pageIds, zeroPages, List.getLast?_range, if_neg (by omega)]
  have listed : n - 1 ∈ (zeroPages n).pageIds := by
    rw [← stores.pageIds]
    exact List.mem_of_getLast? isLast
  have refused : Fallible.exec (StoredHeap.insertIntoLast []) heap =
      (.ok none, { heap with pool := heap.pool.load (n - 1) }) := by
    rw [StoredHeap.insertIntoLast, Fallible.exec_bind_ok (Fallible.exec_get heap), isLast]
    rcases StoredHeap.insertIntoPage_spec stores listed [] with ⟨_, _, refused⟩ | ⟨_, _, _, inserted, _⟩
    · exact refused
    · cases inserted
  obtain ⟨heap', allocated, emptied, pageIds_eq, pages_eq⟩ :=
    exec_newHeapPage_wrapped last (stores.load (stores.within listed)).allocated
  have lost : Lost heap' := by
    refine ⟨?_, ?_, emptied⟩
    · refine ⟨List.range' 1 (n - 1) ++ [n], ?_⟩
      have range_eq : List.range n = 0 :: List.range' 1 (n - 1) := by
        rw [List.range_eq_range', ← Nat.sub_add_cancel (show 1 ≤ n by omega), List.range'_succ, Nat.add_sub_cancel]
      rw [pageIds_eq, stores.pageIds, zeroPages, range_eq, List.cons_append]
    · rw [pages_eq, Function.update_of_ne (by omega)]
      change Function.update heap.pool.pages (n - 1) _ 0 = none
      rw [Function.update_of_ne (by omega)]
      exact uncached
  obtain ⟨rid, heap'', inserted, lost'⟩ := insertIntoPage_wrapped last lost (by rw [pages_eq, Function.update_self])
  refine ⟨rid, heap'', ?_, lost'⟩
  rw [StoredHeap.insert, if_neg (by decide), Fallible.exec_bind_ok refused]
  simp only
  rw [Fallible.exec_bind_ok allocated, Fallible.exec_bind_ok inserted]
  rfl

theorem not_refinesMap_wrapped :
    ¬ (run (List.replicate n .abortedAllocation ++ [.reopen, .insert []])).RefinesMap := by
  intro refines
  obtain ⟨disk, reopened, stores⟩ := StoredHeap.reopen_spec (stores_zeroPages (n := n) (by omega))
  obtain ⟨rid, heap, inserted, lost⟩ := insert_wrapped last stores rfl
  have heap_eq : (run (List.replicate n .abortedAllocation ++ [.reopen, .insert []])).heap = heap := by
    rw [run, List.foldl_append]
    change (step (step (run (List.replicate n .abortedAllocation)) .reopen) (.insert [])).heap = heap
    rw [step, step, reopened]
    simp only [inserted]
  obtain ⟨rows, heap', scanned, _⟩ := refines.scan
  have thrown := scan_throws lost
  rw [heap_eq] at scanned
  rw [scanned] at thrown
  cases thrown

end Wrapped

theorem heapFile_emptied_at_last_pageId :
    ¬ (run (List.replicate (2 ^ 32 - 1) .abortedAllocation ++ [.reopen, .insert []])).RefinesMap :=
  not_refinesMap_wrapped (by decide)

end HeapHistory

end FlintDB
