import FlintDB.Common.Exception
import FlintDB.Lib.Peek
import FlintDB.Storage.HeapFile

set_option autoImplicit false

-- Counts, offsets and lengths are read from the page and used as they are, so a page of any bytes can send a read
-- past its end. Here a page is its bytes, what lies behind its buffer in memory is anything, and the ranges read are
-- kept.

namespace FlintDB

open Lib

-- Memory from the first byte of a page on.
abbrev Buffer := Nat → UInt8

/-- A file of any bytes. -/
structure RawFile where
  pages : List PageImage
  -- what each page in the buffer pool has behind it
  behind : Nat → Nat → UInt8 := fun _ _ => 0

namespace RawFile

def buffer (file : RawFile) (pageId : Nat) (page : PageImage) : Buffer := fun offset =>
  if offset < pageSize then page.bytes.getD offset 0 else file.behind pageId offset

-- FetchPage of a page that is in memory or in the file; DiskManager::ReadPage refuses any other.
def fetchPage (file : RawFile) (pageId : Nat) : Peek Exception Buffer :=
  match file.pages[pageId]? with
  | some page => return file.buffer pageId page
  | none => .throw (.logicError "DiskManager::ReadPage: page_id beyond end of file")

end RawFile

def bytesAt (buffer : Buffer) (offset length : Nat) : Bytes := (List.range length).map fun i => buffer (offset + i)

def uintAt (buffer : Buffer) (offset width : Nat) : Nat := leDecode (bytesAt buffer offset width)

-- ReadAt of an unsigned integer.
def peekAt (buffer : Buffer) (offset width : Nat) : Peek Exception Nat := .read offset width (uintAt buffer offset width)

theorem peekAt_result (buffer : Buffer) (offset width : Nat) :
    (peekAt buffer offset width).result = .ok (uintAt buffer offset width) := rfl

theorem within_peekAt {buffer : Buffer} {offset width : Nat} (some : 0 < width) {size : Nat} :
    (peekAt buffer offset width).Within size ↔ offset + width ≤ size := by
  rw [peekAt, Peek.within_read_iff]
  omega

theorem uintAt_lt (buffer : Buffer) (offset width : Nat) : uintAt buffer offset width < 256 ^ width := by
  have small := leDecode_lt (bytesAt buffer offset width)
  rwa [bytesAt, List.length_map, List.length_range] at small

namespace RawPage

def kOffSlotCount : Nat := 6

def slotCount (buffer : Buffer) : Nat := uintAt buffer kOffSlotCount 2

def slotOffset (buffer : Buffer) (slotId : Nat) : Nat := uintAt buffer (Page.kHeaderSize + slotId * Page.kSlotSize) 2

def slotLength (buffer : Buffer) (slotId : Nat) : Nat :=
  uintAt buffer (Page.kHeaderSize + slotId * Page.kSlotSize + 2) 2

def getSlotCount (buffer : Buffer) : Peek Exception Nat := peekAt buffer kOffSlotCount 2

def getSlotEntry (buffer : Buffer) (slotId : Nat) : Peek Exception (Nat × Nat) := do
  let offset ← peekAt buffer (Page.kHeaderSize + slotId * Page.kSlotSize) 2
  let length ← peekAt buffer (Page.kHeaderSize + slotId * Page.kSlotSize + 2) 2
  return (offset, length)

-- the top bit of the length
def isDeleted (buffer : Buffer) (slotId : Nat) : Peek Exception Bool := do
  let entry ← getSlotEntry buffer slotId
  return Page.kDeletedFlag ≤ entry.2

def getRecord (buffer : Buffer) (slotId : Nat) : Peek Exception Bytes := do
  let entry ← getSlotEntry buffer slotId
  .read entry.1 (entry.2 % Page.kDeletedFlag) (bytesAt buffer entry.1 (entry.2 % Page.kDeletedFlag))

-- The record of a slot, unless it is deleted.
def liveRecord (buffer : Buffer) (slotId : Nat) : Peek Exception (Option Bytes) := do
  if ← isDeleted buffer slotId then return none
  else return some (← getRecord buffer slotId)

end RawPage

namespace RawFile

-- page_ids_ of a heap file that is opened.
def pageIds (file : RawFile) : List Nat := List.range file.pages.length

def heapGetRow (file : RawFile) (rid : RID) : Peek Exception (Option Bytes) :=
  if rid.pageId ∈ file.pageIds then do
    let buffer ← file.fetchPage rid.pageId
    let count ← RawPage.getSlotCount buffer
    if count ≤ rid.slotId then return none else RawPage.liveRecord buffer rid.slotId
  else return none

def scanSlot (pageId : Nat) (buffer : Buffer) (slotId : Nat) : Peek Exception (List (RID × Bytes)) := do
  let record ← RawPage.liveRecord buffer slotId
  return record.toList.map fun bytes => (⟨pageId, slotId⟩, bytes)

def scanPage (file : RawFile) (pageId : Nat) : Peek Exception (List (RID × Bytes)) := do
  let buffer ← file.fetchPage pageId
  let count ← RawPage.getSlotCount buffer
  Peek.collect (scanSlot pageId buffer) (List.range count)

def heapScan (file : RawFile) : Peek Exception (List (RID × Bytes)) := Peek.collect file.scanPage file.pageIds

def findInSlot (pred : Bytes → Bool) (pageId : Nat) (buffer : Buffer) (slotId : Nat) : Peek Exception (Option RID) := do
  let record ← RawPage.liveRecord buffer slotId
  return if record.any pred then some ⟨pageId, slotId⟩ else none

def findOnPage (file : RawFile) (pred : Bytes → Bool) (pageId : Nat) : Peek Exception (Option RID) := do
  let buffer ← file.fetchPage pageId
  let count ← RawPage.getSlotCount buffer
  Peek.first (findInSlot pred pageId buffer) (List.range count)

def heapFind (file : RawFile) (pred : Bytes → Bool) : Peek Exception (Option RID) :=
  Peek.first (file.findOnPage pred) file.pageIds

end RawFile

namespace RawPage

-- The record of a slot, as GetRecord reads it.
def recordBytes (buffer : Buffer) (slotId : Nat) : Bytes :=
  bytesAt buffer (slotOffset buffer slotId) (slotLength buffer slotId % Page.kDeletedFlag)

-- The slot entry is in the page, and so is the record if it is live.
def SlotFits (buffer : Buffer) (slotId : Nat) : Prop :=
  Page.kHeaderSize + slotId * Page.kSlotSize + Page.kSlotSize ≤ pageSize ∧
    (slotLength buffer slotId < Page.kDeletedFlag →
      slotLength buffer slotId = 0 ∨ slotOffset buffer slotId + slotLength buffer slotId ≤ pageSize)

section Slot

variable (buffer : Buffer) (slotId : Nat)

theorem getSlotEntry_result :
    (getSlotEntry buffer slotId).result = .ok (slotOffset buffer slotId, slotLength buffer slotId) := rfl

theorem within_getSlotEntry : (getSlotEntry buffer slotId).Within pageSize ↔
    Page.kHeaderSize + slotId * Page.kSlotSize + Page.kSlotSize ≤ pageSize := by
  simp only [getSlotEntry, Peek.bind_eq]
  rw [Peek.within_bind_of_ok (peekAt_result ..), Peek.within_bind_of_ok (peekAt_result ..),
    within_peekAt (by decide), within_peekAt (by decide)]
  simp only [Peek.within_pure, and_true, Page.kSlotSize]
  omega

theorem isDeleted_result :
    (isDeleted buffer slotId).result = .ok (decide (Page.kDeletedFlag ≤ slotLength buffer slotId)) := rfl

theorem within_isDeleted : (isDeleted buffer slotId).Within pageSize ↔ (getSlotEntry buffer slotId).Within pageSize := by
  rw [isDeleted, Peek.bind_eq, Peek.within_bind_of_ok (getSlotEntry_result ..)]
  exact and_iff_left (Peek.within_pure _ _)

theorem within_getRecord : (getRecord buffer slotId).Within pageSize ↔ (getSlotEntry buffer slotId).Within pageSize ∧
    (slotLength buffer slotId % Page.kDeletedFlag = 0 ∨
      slotOffset buffer slotId + slotLength buffer slotId % Page.kDeletedFlag ≤ pageSize) := by
  rw [getRecord, Peek.bind_eq, Peek.within_bind_of_ok (getSlotEntry_result ..), Peek.within_read_iff]

theorem liveRecord_result : (liveRecord buffer slotId).result =
    .ok (if Page.kDeletedFlag ≤ slotLength buffer slotId then none else some (recordBytes buffer slotId)) := by
  rw [liveRecord, Peek.bind_eq, Peek.result_bind_of_ok (isDeleted_result ..)]
  by_cases deleted : Page.kDeletedFlag ≤ slotLength buffer slotId
  · simp only [deleted, decide_true, if_true]
    rfl
  · simp only [deleted, decide_false, Bool.false_eq_true, if_false]
    rfl

theorem within_liveRecord : (liveRecord buffer slotId).Within pageSize ↔ SlotFits buffer slotId := by
  rw [liveRecord, Peek.bind_eq, Peek.within_bind_of_ok (isDeleted_result ..), within_isDeleted, SlotFits,
    ← within_getSlotEntry buffer slotId]
  by_cases deleted : Page.kDeletedFlag ≤ slotLength buffer slotId
  · simp only [deleted, decide_true, if_true, Peek.within_pure, and_true, Nat.not_lt.mpr deleted, false_implies]
  · have live := Nat.lt_of_not_le deleted
    simp only [deleted, decide_false, Bool.false_eq_true, if_false, live, true_implies, Peek.bind_eq, Peek.within_bind,
      within_getRecord, Nat.mod_eq_of_lt live, Peek.within_pure, implies_true, and_true]
    exact and_congr_right fun entry => and_iff_right entry

theorem reads_liveRecord_le : (liveRecord buffer slotId).reads.length ≤ 5 := by
  rw [liveRecord, Peek.bind_eq]
  refine Peek.reads_bind_le (m := 2) (n := 3) (Nat.le_refl 2) fun deleted _ => ?_
  cases deleted with
  | true => exact Nat.zero_le _
  | false => exact Nat.le_refl 3

end Slot

end RawPage

namespace RawFile

variable {file : RawFile}

theorem fetchPage_result {pageId : Nat} {page : PageImage} (stored : file.pages[pageId]? = some page) :
    (file.fetchPage pageId).result = .ok (file.buffer pageId page) := by
  rw [fetchPage, stored]
  rfl

theorem fetchPage_silent (pageId : Nat) : (file.fetchPage pageId).reads = [] := by
  rw [fetchPage]
  cases file.pages[pageId]? <;> rfl

theorem within_fetch {β : Type} {pageId size : Nat} {page : PageImage} (stored : file.pages[pageId]? = some page)
    {next : Buffer → Peek Exception β} :
    ((file.fetchPage pageId).bind next).Within size ↔ (next (file.buffer pageId page)).Within size := by
  rw [Peek.within_bind_of_ok (fetchPage_result stored)]
  exact and_iff_right (Peek.within_of_silent (fetchPage_silent pageId) size)

theorem within_fetch_none {β : Type} {pageId size : Nat} (missing : file.pages[pageId]? = none)
    {next : Buffer → Peek Exception β} : ((file.fetchPage pageId).bind next).Within size := by
  rw [Peek.within_bind]
  refine ⟨Peek.within_of_silent (fetchPage_silent pageId) size, fun buffer fetched => ?_⟩
  rw [fetchPage, missing] at fetched
  cases fetched

theorem mem_pageIds {pageId : Nat} : pageId ∈ file.pageIds ↔ ∃ page, file.pages[pageId]? = some page := by
  rw [pageIds, List.mem_range]
  exact ⟨fun within => ⟨_, List.getElem?_eq_getElem within⟩, fun ⟨page, stored⟩ =>
    (List.getElem?_eq_some_iff.mp stored).1⟩

theorem within_count {β : Type} {buffer : Buffer} {next : Nat → Peek Exception β} :
    ((RawPage.getSlotCount buffer).bind next).Within pageSize ↔ (next (RawPage.slotCount buffer)).Within pageSize := by
  rw [RawPage.getSlotCount, Peek.within_bind_of_ok (peekAt_result ..), within_peekAt (by decide)]
  exact and_iff_right (by decide)

theorem within_heapGetRow (rid : RID) : (file.heapGetRow rid).Within pageSize ↔
    ∀ page, file.pages[rid.pageId]? = some page →
      rid.slotId < RawPage.slotCount (file.buffer rid.pageId page) →
        RawPage.SlotFits (file.buffer rid.pageId page) rid.slotId := by
  rw [heapGetRow]
  by_cases owned : rid.pageId ∈ file.pageIds
  · obtain ⟨page, stored⟩ := mem_pageIds.mp owned
    simp only [if_pos owned, Peek.bind_eq, within_fetch stored, within_count, stored, Option.some.injEq, forall_eq']
    split
    · rename_i beyond
      simp only [Peek.within_pure, Nat.not_lt.mpr beyond, false_implies]
    · rename_i inside
      simp only [RawPage.within_liveRecord, Nat.lt_of_not_le inside, true_implies]
  · rw [if_neg owned]
    simp only [Peek.within_pure, true_iff]
    exact fun page stored => absurd (mem_pageIds.mpr ⟨page, stored⟩) owned

theorem scanSlot_returns (pageId : Nat) (buffer : Buffer) (slotId : Nat) :
    ∃ here, (scanSlot pageId buffer slotId).result = .ok here := by
  rw [scanSlot, Peek.bind_eq, Peek.result_bind_of_ok (RawPage.liveRecord_result buffer slotId)]
  exact ⟨_, rfl⟩

theorem within_scanSlot (pageId : Nat) (buffer : Buffer) (slotId : Nat) :
    (scanSlot pageId buffer slotId).Within pageSize ↔ RawPage.SlotFits buffer slotId := by
  rw [scanSlot, Peek.bind_eq, Peek.within_bind, RawPage.within_liveRecord]
  exact and_iff_left fun _ _ => Peek.within_pure _ _

theorem scanPage_returns {pageId : Nat} {page : PageImage} (stored : file.pages[pageId]? = some page) :
    ∃ here, (file.scanPage pageId).result = .ok here := by
  rw [scanPage, Peek.bind_eq, Peek.result_bind_of_ok (fetchPage_result stored)]
  exact Peek.collect_returns fun slotId _ => scanSlot_returns pageId _ slotId

theorem within_scanPage {pageId : Nat} {page : PageImage} (stored : file.pages[pageId]? = some page) :
    (file.scanPage pageId).Within pageSize ↔ ∀ slotId < RawPage.slotCount (file.buffer pageId page),
      RawPage.SlotFits (file.buffer pageId page) slotId := by
  simp only [scanPage, Peek.bind_eq, within_fetch stored, within_count]
  rw [Peek.within_collect fun slotId _ => scanSlot_returns pageId _ slotId]
  simp only [List.mem_range, within_scanSlot]

theorem within_heapScan : file.heapScan.Within pageSize ↔ ∀ (pageId : Nat) page, file.pages[pageId]? = some page →
    ∀ slotId < RawPage.slotCount (file.buffer pageId page), RawPage.SlotFits (file.buffer pageId page) slotId := by
  have returns : ∀ pageId ∈ file.pageIds, ∃ here, (file.scanPage pageId).result = .ok here := by
    intro pageId owned
    obtain ⟨page, stored⟩ := mem_pageIds.mp owned
    exact scanPage_returns stored
  rw [heapScan, Peek.within_collect returns]
  constructor
  · intro all pageId page stored
    exact (within_scanPage stored).mp (all pageId (mem_pageIds.mpr ⟨page, stored⟩))
  · intro all pageId owned
    obtain ⟨page, stored⟩ := mem_pageIds.mp owned
    exact (within_scanPage stored).mpr (all pageId page stored)

-- Find stops at this slot.
def SlotMatches (pred : Bytes → Bool) (buffer : Buffer) (slotId : Nat) : Prop :=
  RawPage.slotLength buffer slotId < Page.kDeletedFlag ∧ pred (RawPage.recordBytes buffer slotId) = true

theorem findInSlot_none {pred : Bytes → Bool} {pageId slotId : Nat} {buffer : Buffer} :
    (findInSlot pred pageId buffer slotId).result = .ok none ↔ ¬ SlotMatches pred buffer slotId := by
  rw [findInSlot, Peek.bind_eq, Peek.result_bind_of_ok (RawPage.liveRecord_result buffer slotId), SlotMatches]
  by_cases deleted : Page.kDeletedFlag ≤ RawPage.slotLength buffer slotId
  · simp only [if_pos deleted, Nat.not_lt.mpr deleted, false_and, not_false_eq_true, iff_true]
    rfl
  · rw [if_neg deleted, and_iff_right (Nat.lt_of_not_le deleted)]
    cases matched : pred (RawPage.recordBytes buffer slotId) with
    | true => simp [matched, pure]
    | false => simp [matched, pure]

theorem within_findInSlot (pred : Bytes → Bool) (pageId : Nat) (buffer : Buffer) (slotId : Nat) :
    (findInSlot pred pageId buffer slotId).Within pageSize ↔ RawPage.SlotFits buffer slotId := by
  rw [findInSlot, Peek.bind_eq, Peek.within_bind, RawPage.within_liveRecord]
  exact and_iff_left fun _ _ => Peek.within_pure _ _

-- Find stops on this page.
def PageMatches (file : RawFile) (pred : Bytes → Bool) (pageId : Nat) : Prop :=
  ∃ page slotId, file.pages[pageId]? = some page ∧ slotId < RawPage.slotCount (file.buffer pageId page) ∧
    SlotMatches pred (file.buffer pageId page) slotId

theorem findOnPage_none {pred : Bytes → Bool} {pageId : Nat} {page : PageImage}
    (stored : file.pages[pageId]? = some page) :
    (file.findOnPage pred pageId).result = .ok none ↔ ¬ file.PageMatches pred pageId := by
  rw [findOnPage, Peek.bind_eq, Peek.result_bind_of_ok (fetchPage_result stored), Peek.bind_eq, RawPage.getSlotCount,
    Peek.result_bind_of_ok (peekAt_result ..), Peek.first_result_none]
  simp only [PageMatches, stored, Option.some.injEq, exists_and_left, exists_eq_left', not_exists, not_and,
    List.mem_range, findInSlot_none]
  rfl

theorem within_findOnPage {pred : Bytes → Bool} {pageId : Nat} {page : PageImage}
    (stored : file.pages[pageId]? = some page) :
    (file.findOnPage pred pageId).Within pageSize ↔ ∀ slotId < RawPage.slotCount (file.buffer pageId page),
      (∀ earlier < slotId, ¬ SlotMatches pred (file.buffer pageId page) earlier) →
        RawPage.SlotFits (file.buffer pageId page) slotId := by
  simp only [findOnPage, Peek.bind_eq, within_fetch stored, within_count, Peek.within_first_range, findInSlot_none,
    within_findInSlot]

theorem within_heapFind (pred : Bytes → Bool) : (file.heapFind pred).Within pageSize ↔
    ∀ (pageId : Nat) page, file.pages[pageId]? = some page → (∀ earlier < pageId, ¬ file.PageMatches pred earlier) →
      ∀ slotId < RawPage.slotCount (file.buffer pageId page),
        (∀ earlier < slotId, ¬ SlotMatches pred (file.buffer pageId page) earlier) →
          RawPage.SlotFits (file.buffer pageId page) slotId := by
  rw [heapFind, pageIds, Peek.within_first_range]
  have silent : ∀ pageId < file.pages.length,
      (file.findOnPage pred pageId).result = .ok none ↔ ¬ file.PageMatches pred pageId :=
    fun pageId small => findOnPage_none (List.getElem?_eq_getElem small)
  constructor
  · intro all pageId page stored noneBefore
    obtain ⟨small, -⟩ := List.getElem?_eq_some_iff.mp stored
    refine (within_findOnPage stored).mp (all pageId small fun earlier before => ?_)
    exact (silent earlier (Nat.lt_trans before small)).mpr (noneBefore earlier before)
  · intro all pageId small noneBefore
    have stored := List.getElem?_eq_getElem small
    refine (within_findOnPage stored).mpr (all pageId _ stored fun earlier before => ?_)
    exact (silent earlier (Nat.lt_trans before small)).mp (noneBefore earlier before)

theorem reads_fetch_le {β : Type} {next : Buffer → Peek Exception β} {bound : Nat}
    (after : ∀ buffer, (next buffer).reads.length ≤ bound) (pageId : Nat) :
    ((file.fetchPage pageId).bind next).reads.length ≤ bound := by
  have whole : ((file.fetchPage pageId).bind next).reads.length ≤ 0 + bound := by
    refine Peek.reads_bind_le ?_ fun buffer _ => after buffer
    rw [fetchPage_silent]
    exact Nat.le_refl 0
  rwa [Nat.zero_add] at whole

theorem reads_count_le {β : Type} {buffer : Buffer} {next : Nat → Peek Exception β} {bound : Nat}
    (after : ∀ count < 2 ^ 16, (next count).reads.length ≤ bound) :
    ((RawPage.getSlotCount buffer).bind next).reads.length ≤ 1 + bound := by
  refine Peek.reads_bind_le (Nat.le_refl 1) fun count returned => ?_
  cases returned
  exact after _ (uintAt_lt ..)

theorem reads_scanSlot_le (pageId : Nat) (buffer : Buffer) (slotId : Nat) :
    (scanSlot pageId buffer slotId).reads.length ≤ 5 + 0 :=
  Peek.reads_bind_le (RawPage.reads_liveRecord_le buffer slotId) fun _ _ => Nat.zero_le _

theorem reads_findInSlot_le (pred : Bytes → Bool) (pageId : Nat) (buffer : Buffer) (slotId : Nat) :
    (findInSlot pred pageId buffer slotId).reads.length ≤ 5 + 0 :=
  Peek.reads_bind_le (RawPage.reads_liveRecord_le buffer slotId) fun _ _ => Nat.zero_le _

theorem reads_heapScan_le : file.heapScan.reads.length ≤ file.pages.length * (1 + 2 ^ 16 * 5) := by
  have page : ∀ pageId, (file.scanPage pageId).reads.length ≤ 1 + 2 ^ 16 * 5 := by
    intro pageId
    refine reads_fetch_le (fun buffer => reads_count_le fun count small => ?_) pageId
    have slots := Peek.reads_collect_le (reads_scanSlot_le pageId buffer) (List.range count)
    rw [List.length_range] at slots
    omega
  have whole := Peek.reads_collect_le page file.pageIds
  rwa [pageIds, List.length_range] at whole

theorem reads_heapFind_le (pred : Bytes → Bool) :
    (file.heapFind pred).reads.length ≤ file.pages.length * (1 + 2 ^ 16 * 5) := by
  have page : ∀ pageId, (file.findOnPage pred pageId).reads.length ≤ 1 + 2 ^ 16 * 5 := by
    intro pageId
    refine reads_fetch_le (fun buffer => reads_count_le fun count small => ?_) pageId
    have slots := Peek.reads_first_le (reads_findInSlot_le pred pageId buffer) (List.range count)
    rw [List.length_range] at slots
    omega
  have whole := Peek.reads_first_le page file.pageIds
  rwa [pageIds, List.length_range] at whole

theorem reads_heapGetRow_le (rid : RID) : (file.heapGetRow rid).reads.length ≤ 1 + 5 := by
  rw [heapGetRow]
  split
  · refine reads_fetch_le (fun buffer => reads_count_le fun count small => ?_) rid.pageId
    split
    · exact Nat.zero_le _
    · exact RawPage.reads_liveRecord_le buffer rid.slotId
  · exact Nat.zero_le _

theorem never_fetchPage (pageId : Nat) : (file.fetchPage pageId).Never .undefined := by
  rw [Peek.Never, fetchPage]
  split
  · exact fun same => by cases same
  · exact fun same => by cases same

theorem never_heapScan : file.heapScan.Never .undefined := by
  have returns : ∀ pageId ∈ file.pageIds, ∃ here, (file.scanPage pageId).result = .ok here := by
    intro pageId owned
    obtain ⟨page, stored⟩ := mem_pageIds.mp owned
    exact scanPage_returns stored
  obtain ⟨all, returned⟩ := Peek.collect_returns returns
  exact Peek.never_of_ok returned _

theorem never_heapFind (pred : Bytes → Bool) : (file.heapFind pred).Never .undefined := by
  refine Peek.never_first (fun pageId => ?_) _
  refine (never_fetchPage pageId).bind fun buffer _ => Peek.Never.bind (Peek.never_of_ok rfl _) fun count _ => ?_
  refine Peek.never_first (fun slotId => ?_) _
  exact (Peek.never_of_ok (RawPage.liveRecord_result buffer slotId) _).bind fun _ _ => Peek.never_of_ok rfl _

theorem never_heapGetRow (rid : RID) : (file.heapGetRow rid).Never .undefined := by
  rw [heapGetRow]
  split
  · refine (never_fetchPage _).bind fun buffer _ => Peek.Never.bind (Peek.never_of_ok rfl _) fun count _ => ?_
    split
    · exact Peek.never_of_ok rfl _
    · exact Peek.never_of_ok (RawPage.liveRecord_result buffer rid.slotId) _
  · exact Peek.never_of_ok rfl _

/-- A traversal that ends, by a return or an exception, after so many reads at most, all of them inside a page. -/
def Contained {α : Type} (traversal : Peek Exception α) (bound : Nat) : Prop :=
  traversal.reads.length ≤ bound ∧ traversal.Never .undefined ∧ traversal.Within pageSize

/-- The slots of all the pages. -/
def ScanFits (file : RawFile) : Prop :=
  ∀ (pageId : Nat) page, file.pages[pageId]? = some page → ∀ slotId < RawPage.slotCount (file.buffer pageId page),
    RawPage.SlotFits (file.buffer pageId page) slotId

def GetRowFits (file : RawFile) (rid : RID) : Prop :=
  ∀ page, file.pages[rid.pageId]? = some page → rid.slotId < RawPage.slotCount (file.buffer rid.pageId page) →
    RawPage.SlotFits (file.buffer rid.pageId page) rid.slotId

/-- The slots up to the first one that matches. -/
def FindFits (file : RawFile) (pred : Bytes → Bool) : Prop :=
  ∀ (pageId : Nat) page, file.pages[pageId]? = some page → (∀ earlier < pageId, ¬ file.PageMatches pred earlier) →
    ∀ slotId < RawPage.slotCount (file.buffer pageId page),
      (∀ earlier < slotId, ¬ SlotMatches pred (file.buffer pageId page) earlier) →
        RawPage.SlotFits (file.buffer pageId page) slotId

end RawFile

end FlintDB
