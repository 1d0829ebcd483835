import Mathlib.Logic.Function.Basic
import Mathlib.Data.List.Nodup
import FlintDB.Index.BTree

set_option autoImplicit false

-- A slotted page by its records: where in the page their bytes lie is left to the page's layout, how much room they
-- take is not. An all-zero page, as an aborted allocation leaves one, has no room at all.

namespace FlintDB

open Lib

structure Slot where
  record : Bytes
  deleted : Bool := false
  deriving DecidableEq

structure Page where
  slots : List Slot := []
  pdLower : Nat := 0
  pdUpper : Nat := 0
  deriving DecidableEq

namespace Page

def kHeaderSize : Nat := 16
def kSlotSize : Nat := 4
def kDeletedFlag : Nat := 0x8000

def initHeapPage : Page where
  pdLower := kHeaderSize
  pdUpper := pageSize

def insertRecord (page : Page) (data : Bytes) : Option (Nat × Page) :=
  if kDeletedFlag ≤ data.length then none
  else if page.pdUpper < page.pdLower then none
  else if page.pdUpper - page.pdLower < data.length + kSlotSize then none
  else some (page.slots.length,
    { slots := page.slots ++ [{ record := data }]
      pdLower := page.pdLower + kSlotSize
      pdUpper := page.pdUpper - data.length })

def deleteRecord (page : Page) (slotId : Nat) : Page :=
  { page with slots := page.slots.modify slotId ({ · with deleted := true }) }

-- The record of a slot that is there and not deleted.
def liveRecord (page : Page) (slotId : Nat) : Option Bytes :=
  match page.slots[slotId]? with
  | some slot => if slot.deleted then none else some slot.record
  | none => none

def liveRecords (page : Page) (pageId : Nat) : List (RID × Bytes) :=
  page.slots.zipIdx.filterMap fun (slot, slotId) =>
    if slot.deleted then none else some (⟨pageId, slotId⟩, slot.record)

theorem insertRecord_eq_some {page page' : Page} {data : Bytes} {slotId : Nat}
    (inserted : page.insertRecord data = some (slotId, page')) :
    slotId = page.slots.length ∧ page'.slots = page.slots ++ [{ record := data }] := by
  rw [insertRecord] at inserted
  split at inserted
  · cases inserted
  · split at inserted
    · cases inserted
    · split at inserted
      · cases inserted
      · cases inserted
        exact ⟨rfl, rfl⟩

theorem liveRecords_insertRecord {page page' : Page} {data : Bytes} {slotId : Nat}
    (inserted : page.insertRecord data = some (slotId, page')) (pageId : Nat) :
    page'.liveRecords pageId = page.liveRecords pageId ++ [(⟨pageId, slotId⟩, data)] := by
  obtain ⟨rfl, slots_eq⟩ := insertRecord_eq_some inserted
  simp [liveRecords, slots_eq, List.zipIdx_append]

theorem mem_liveRecords {page : Page} {pageId : Nat} {rid : RID} {data : Bytes} :
    (rid, data) ∈ page.liveRecords pageId ↔ rid.pageId = pageId ∧ page.liveRecord rid.slotId = some data := by
  obtain ⟨onPage, slotId⟩ := rid
  simp only [liveRecords, List.mem_filterMap, Prod.exists, liveRecord, List.mem_zipIdx_iff_getElem?]
  constructor
  · rintro ⟨slot, idx, present, taken⟩
    split at taken
    · cases taken
    · rename_i live
      cases taken
      simp only [present, live, Bool.false_eq_true, if_false, and_self]
  · rintro ⟨rfl, live⟩
    split at live
    · rename_i slot present
      refine ⟨slot, slotId, present, ?_⟩
      split at live
      · cases live
      · rename_i undeleted
        cases live
        simp [undeleted]
    · cases live

theorem liveRecord_length (page : Page) : page.liveRecord page.slots.length = none := by
  simp [liveRecord]

theorem liveRecord_insertRecord {page page' : Page} {data : Bytes} {slotId : Nat}
    (inserted : page.insertRecord data = some (slotId, page')) (other : Nat) :
    page'.liveRecord other = if other = slotId then some data else page.liveRecord other := by
  obtain ⟨rfl, slots_eq⟩ := insertRecord_eq_some inserted
  rw [liveRecord, liveRecord, slots_eq, List.getElem?_append]
  by_cases within : other < page.slots.length
  · simp [within, Nat.ne_of_lt within]
  · by_cases isNew : other = page.slots.length
    · simp [isNew]
    · have beyond : [({ record := data } : Slot)].length ≤ other - page.slots.length := by
        simp only [List.length_cons, List.length_nil]
        omega
      simp [within, isNew, List.getElem?_eq_none beyond]

theorem liveRecord_deleteRecord (page : Page) (slotId other : Nat) :
    (page.deleteRecord slotId).liveRecord other = if other = slotId then none else page.liveRecord other := by
  rw [liveRecord, liveRecord, deleteRecord, List.getElem?_modify]
  by_cases same : slotId = other
  · subst same
    cases page.slots[slotId]? <;> simp
  · simp [same, Ne.symm same]

end Page

structure HeapFile where
  pageIds : List Nat := []
  pages : Nat → Page := fun _ => {}
  -- pages the file has, whether or not they are in pageIds
  allocated : Nat := 0

namespace HeapFile

def kMaxRowSize : Nat := pageSize - Page.kHeaderSize - Page.kSlotSize

def writePage (file : HeapFile) (pageId : Nat) (page : Page) : HeapFile :=
  { file with pages := Function.update file.pages pageId page }

-- The rows Scan finds on one page.
-- The live rows of the file, in the order of Scan.
def rowsOn (file : HeapFile) (pageId : Nat) : List (RID × Bytes) := (file.pages pageId).liveRecords pageId

/-- The live rows of the file, in the order of Scan. -/
def rows (file : HeapFile) : List (RID × Bytes) := file.pageIds.flatMap file.rowsOn

-- BufferPool::NewHeapPage, short of page 2^32 - 1: to allocate that one truncates the file to nothing.
def newHeapPage (file : HeapFile) : Nat × HeapFile :=
  let pageId := BPlusTree.wrapPageId file.allocated
  (pageId, { file.writePage pageId .initHeapPage with allocated := file.allocated + 1 })

def getRow (file : HeapFile) (rid : RID) : Option Bytes :=
  if rid.pageId ∈ file.pageIds then (file.pages rid.pageId).liveRecord rid.slotId else none

-- Every page is again what the data file has, all zero if it was allocated since; page_ids_ stays.
def revert (start file : HeapFile) : HeapFile := { start with pageIds := file.pageIds, allocated := file.allocated }

@[simp] theorem writePage_pageIds (file : HeapFile) (pageId : Nat) (page : Page) :
    (file.writePage pageId page).pageIds = file.pageIds := rfl

@[simp] theorem writePage_allocated (file : HeapFile) (pageId : Nat) (page : Page) :
    (file.writePage pageId page).allocated = file.allocated := rfl

theorem mem_rows {file : HeapFile} {rid : RID} {data : Bytes} :
    (rid, data) ∈ file.rows ↔ file.getRow rid = some data := by
  simp only [rows, rowsOn, List.mem_flatMap, Page.mem_liveRecords, getRow]
  constructor
  · rintro ⟨pageId, listed, rfl, live⟩
    rw [if_pos listed, live]
  · intro found
    split at found
    · rename_i listed
      exact ⟨rid.pageId, listed, rfl, found⟩
    · cases found

end HeapFile

end FlintDB
