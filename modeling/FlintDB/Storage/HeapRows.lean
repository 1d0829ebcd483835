import FlintDB.Storage.HeapFile

set_option autoImplicit false

-- What Insert and Delete do to the list that Scan returns, and what an abort leaves of it.

namespace FlintDB

namespace Page

theorem liveRecords_nodup (page : Page) (pageId : Nat) : ((page.liveRecords pageId).map Prod.fst).Nodup := by
  have slots : (page.slots.zipIdx.map Prod.snd).Nodup := by
    rw [List.zipIdx_map_snd]
    exact List.nodup_range'
  rw [liveRecords, List.map_filterMap]
  refine List.pairwise_filterMap.mpr ((List.pairwise_map.mp slots).imp ?_)
  intro first second different rid isFirst other isSecond same
  subst same
  simp only [Option.map_eq_some_iff] at isFirst isSecond
  obtain ⟨row, taken, rfl⟩ := isFirst
  obtain ⟨row', taken', same⟩ := isSecond
  split at taken
  · cases taken
  · split at taken'
    · cases taken'
    · cases taken
      cases taken'
      exact different (by simpa using same.symm)

theorem insertRecord_initHeapPage {data : List UInt8} (fits : data.length ≤ pageSize - kHeaderSize - kSlotSize) :
    (initHeapPage.insertRecord data).isSome = true := by
  simp only [pageSize, kHeaderSize, kSlotSize] at fits
  have short : ¬ kDeletedFlag ≤ data.length := by
    simp only [kDeletedFlag]
    omega
  have enough : ¬ pageSize - kHeaderSize < data.length + kSlotSize := by
    simp only [pageSize, kHeaderSize, kSlotSize]
    omega
  rw [insertRecord, if_neg short, initHeapPage, if_neg (by decide), if_neg enough]
  rfl

theorem liveRecords_deleteRecord (page : Page) (pageId slotId : Nat) :
    (page.deleteRecord slotId).liveRecords pageId =
      (page.liveRecords pageId).filter fun row => row.1 ≠ ⟨pageId, slotId⟩ := by
  rw [liveRecords, liveRecords, deleteRecord, List.filter_filterMap]
  -- the slots from any place on, `slotId` counted from there
  suffices fromHere : ∀ (slots : List Slot) (place slotId : Nat),
      (((slots.modify slotId ({ · with deleted := true })).zipIdx place).filterMap fun entry =>
        if entry.1.deleted then none else some ((⟨pageId, entry.2⟩ : RID), entry.1.record)) =
      (slots.zipIdx place).filterMap fun entry =>
        Option.filter (fun row => row.1 ≠ ⟨pageId, place + slotId⟩)
          (if entry.1.deleted then none else some ((⟨pageId, entry.2⟩ : RID), entry.1.record)) by
    have here := fromHere page.slots 0 slotId
    rw [Nat.zero_add] at here
    exact here
  intro slots
  induction slots with
  | nil => simp
  | cons slot slots ih =>
    intro place slotId
    obtain ⟨record, deleted⟩ := slot
    cases slotId with
    | zero =>
      have others : ∀ entry ∈ slots.zipIdx (place + 1), (Option.filter (fun row => row.1 ≠ ⟨pageId, place + 0⟩)
          (if entry.1.deleted then none else some ((⟨pageId, entry.2⟩ : RID), entry.1.record))) =
          if entry.1.deleted then none else some (⟨pageId, entry.2⟩, entry.1.record) := by
        intro entry member
        have later := List.le_snd_of_mem_zipIdx member
        have different : entry.2 ≠ place := by omega
        split <;> simp [Option.filter, different]
      rw [List.modify_zero_cons, List.zipIdx_cons, List.zipIdx_cons, List.filterMap_cons, List.filterMap_cons,
        List.filterMap_congr others]
      cases deleted <;> simp [Option.filter]
    | succ slotId =>
      rw [List.modify_succ_cons, List.zipIdx_cons, List.zipIdx_cons, List.filterMap_cons, List.filterMap_cons,
        ih (place + 1) slotId, show place + 1 + slotId = place + (slotId + 1) by omega]
      cases deleted <;> simp [Option.filter]

end Page

namespace HeapFile

/-- No page is listed twice, every listed page has been allocated, and the others are all zero. -/
structure Sound (file : HeapFile) : Prop where
  nodup : file.pageIds.Nodup
  listed : ∀ pageId ∈ file.pageIds, pageId < file.allocated
  zero : ∀ pageId, file.allocated ≤ pageId → file.pages pageId = {}

variable {file : HeapFile}

theorem sound_empty : ({} : HeapFile).Sound := ⟨List.nodup_nil, by simp, fun _ _ => rfl⟩

theorem rows_nodup (sound : file.Sound) : (file.rows.map Prod.fst).Nodup := by
  rw [rows, List.map_flatMap, List.nodup_flatMap]
  refine ⟨fun pageId _ => Page.liveRecords_nodup _ pageId, ?_⟩
  refine sound.nodup.imp fun {first second} different => ?_
  intro rid onFirst onSecond
  obtain ⟨⟨_, _⟩, here, rfl⟩ := List.mem_map.mp onFirst
  obtain ⟨⟨_, _⟩, there, same⟩ := List.mem_map.mp onSecond
  have first_eq := (Page.mem_liveRecords.mp here).1
  have second_eq := (Page.mem_liveRecords.mp there).1
  simp only at same
  rw [same] at second_eq
  exact different (first_eq.symm.trans second_eq)

theorem rowsOn_writePage (file : HeapFile) (pageId : Nat) (page : Page) (other : Nat) :
    (file.writePage pageId page).rowsOn other =
      if other = pageId then page.liveRecords pageId else file.rowsOn other := by
  by_cases same : other = pageId
  · subst same
    simp [rowsOn, writePage]
  · simp [rowsOn, writePage, same]

theorem rows_writePage_last {before : List Nat} {last : Nat} (pageIds_eq : file.pageIds = before ++ [last])
    (nodup : file.pageIds.Nodup) (page : Page) :
    (file.writePage last page).rows = before.flatMap file.rowsOn ++ page.liveRecords last := by
  rw [rows, writePage_pageIds, pageIds_eq, List.flatMap_append]
  congr 1
  · refine List.flatMap_congr fun other isOther => ?_
    rw [pageIds_eq, List.nodup_append] at nodup
    rw [rowsOn_writePage, if_neg (nodup.2.2 other isOther last (by simp))]
  · simp [rowsOn_writePage]

theorem rows_insertRecord (sound : file.Sound) {last slotId : Nat} {page : Page} {data : List UInt8}
    (isLast : file.pageIds.getLast? = some last)
    (inserted : (file.pages last).insertRecord data = some (slotId, page)) :
    (file.writePage last page).rows = file.rows ++ [(⟨last, slotId⟩, data)] := by
  obtain ⟨before, pageIds_eq⟩ := List.getLast?_eq_some_iff.mp isLast
  rw [rows_writePage_last pageIds_eq sound.nodup, Page.liveRecords_insertRecord inserted, rows, pageIds_eq,
    List.flatMap_append]
  simp [rowsOn]

theorem Sound.writePage (sound : file.Sound) {pageId : Nat} (listed : pageId ∈ file.pageIds) (page : Page) :
    (file.writePage pageId page).Sound := by
  refine ⟨sound.nodup, sound.listed, fun other beyond => ?_⟩
  have different : other ≠ pageId := by
    have below := sound.listed pageId listed
    rw [writePage_allocated] at beyond
    omega
  simp only [HeapFile.writePage, Function.update_of_ne different]
  exact sound.zero other beyond

theorem rows_deleteRecord (rid : RID) (file : HeapFile) :
    (file.writePage rid.pageId ((file.pages rid.pageId).deleteRecord rid.slotId)).rows =
      file.rows.filter fun row => row.1 ≠ rid := by
  rw [rows, rows, List.filter_flatMap]
  refine List.flatMap_congr fun pageId _ => ?_
  rw [rowsOn_writePage]
  split
  · rename_i same
    rw [Page.liveRecords_deleteRecord, same]
    rfl
  · rename_i different
    refine (List.filter_eq_self.mpr fun row isRow => ?_).symm
    have onPage := (Page.mem_liveRecords.mp (show (row.1, row.2) ∈ (file.pages pageId).liveRecords pageId from isRow)).1
    refine decide_eq_true fun same => different ?_
    rw [← onPage, same]

theorem newHeapPage_fst (room : file.allocated < 2 ^ 32) : file.newHeapPage.1 = file.allocated :=
  BPlusTree.wrapPageId_of_lt room

section NewPage

variable (sound : file.Sound) (room : file.allocated < 2 ^ 32)
include sound room

theorem sound_newHeapPage : file.newHeapPage.2.Sound := by
  have pageId_eq : BPlusTree.wrapPageId file.allocated = file.allocated := BPlusTree.wrapPageId_of_lt room
  refine ⟨sound.nodup, fun pageId isListed => Nat.lt_succ_of_lt (sound.listed pageId isListed), fun pageId beyond => ?_⟩
  simp only [newHeapPage, pageId_eq] at beyond ⊢
  simp only [writePage, Function.update_of_ne (by omega : pageId ≠ file.allocated)]
  exact sound.zero pageId (by omega)

theorem rows_newHeapPage : file.newHeapPage.2.rows = file.rows := by
  have pageId_eq : BPlusTree.wrapPageId file.allocated = file.allocated := BPlusTree.wrapPageId_of_lt room
  refine List.flatMap_congr fun pageId isListed => ?_
  have below := sound.listed pageId isListed
  change (file.writePage (BPlusTree.wrapPageId file.allocated) .initHeapPage).rowsOn pageId = _
  rw [rowsOn_writePage, pageId_eq, if_neg (by omega)]

end NewPage

theorem sound_listPage (sound : file.Sound) {pageId : Nat} (unlisted : pageId ∉ file.pageIds)
    (within : pageId < file.allocated) : ({ file with pageIds := file.pageIds ++ [pageId] } : HeapFile).Sound := by
  refine ⟨?_, fun other isListed => ?_, sound.zero⟩
  · rw [List.nodup_append]
    refine ⟨sound.nodup, List.nodup_singleton _, fun other isListed new isNew same => unlisted ?_⟩
    rw [← List.mem_singleton.mp isNew, ← same]
    exact isListed
  · rcases List.mem_append.mp isListed with older | newest
    · exact sound.listed other older
    · rwa [List.mem_singleton.mp newest]

theorem rows_listPage (file : HeapFile) {pageId : Nat} (bare : (file.pages pageId).slots = []) :
    ({ file with pageIds := file.pageIds ++ [pageId] } : HeapFile).rows = file.rows := by
  have none : file.rowsOn pageId = [] := by simp [rowsOn, Page.liveRecords, bare]
  simp only [rows, List.flatMap_append, List.flatMap_cons, List.flatMap_nil, List.append_nil]
  change _ ++ file.rowsOn pageId = _
  rw [none, List.append_nil]
  rfl

structure Extends (start file : HeapFile) : Prop where
  allocated : start.allocated ≤ file.allocated
  listed : file.allocated < 2 ^ 32 → ∃ extra, file.pageIds = start.pageIds ++ extra ∧ extra.Nodup ∧
    ∀ pageId ∈ extra, start.allocated ≤ pageId ∧ pageId < file.allocated

theorem Extends.refl (file : HeapFile) : file.Extends file := ⟨Nat.le_refl _, fun _ => ⟨[], by simp⟩⟩

theorem Extends.trans {start mid : HeapFile} (first : start.Extends mid) (second : mid.Extends file) :
    start.Extends file := by
  refine ⟨first.allocated.trans second.allocated, fun room => ?_⟩
  obtain ⟨extra, mid_eq, extraNodup, extraFresh⟩ := first.listed (second.allocated.trans_lt room)
  obtain ⟨later, file_eq, laterNodup, laterFresh⟩ := second.listed room
  have grown := second.allocated
  refine ⟨extra ++ later, by rw [file_eq, mid_eq, List.append_assoc], ?_, fun pageId isExtra => ?_⟩
  · refine List.nodup_append.mpr ⟨extraNodup, laterNodup, fun older isOlder newer isNewer same => ?_⟩
    have below := (extraFresh older isOlder).2
    have above := (laterFresh newer isNewer).1
    omega
  · have start_le := first.allocated
    rcases List.mem_append.mp isExtra with older | newer
    · have bounds := extraFresh pageId older
      omega
    · have bounds := laterFresh pageId newer
      omega

theorem Extends.writePage {start : HeapFile} (extended : start.Extends file) (pageId : Nat) (page : Page) :
    start.Extends (file.writePage pageId page) := ⟨extended.allocated, extended.listed⟩

theorem Extends.newHeapPage {start : HeapFile} (extended : start.Extends file) : start.Extends file.newHeapPage.2 := by
  refine ⟨Nat.le_succ_of_le extended.allocated, fun room => ?_⟩
  have room : file.allocated + 1 < 2 ^ 32 := room
  obtain ⟨extra, pageIds_eq, nodup, fresh⟩ := extended.listed (by omega)
  refine ⟨extra, pageIds_eq, nodup, fun pageId isExtra => ?_⟩
  have bounds := fresh pageId isExtra
  exact ⟨bounds.1, Nat.lt_succ_of_lt bounds.2⟩

theorem Extends.listNewPage {start : HeapFile} (extended : start.Extends file) :
    start.Extends { file.newHeapPage.2 with pageIds := file.newHeapPage.2.pageIds ++ [file.newHeapPage.1] } := by
  refine ⟨extended.newHeapPage.allocated, fun room => ?_⟩
  have room : file.allocated + 1 < 2 ^ 32 := room
  have grown := extended.allocated
  obtain ⟨extra, pageIds_eq, nodup, fresh⟩ := extended.listed (by omega)
  rw [newHeapPage_fst (by omega)]
  refine ⟨extra ++ [file.allocated], ?_, ?_, fun pageId isExtra => ?_⟩
  · change file.pageIds ++ _ = _
    rw [pageIds_eq, List.append_assoc]
  · rw [List.nodup_append]
    refine ⟨nodup, List.nodup_singleton _, fun older isOld new isNew same => ?_⟩
    have below := (fresh older isOld).2
    rw [same, List.mem_singleton.mp isNew] at below
    omega
  · change _ ∧ pageId < file.allocated + 1
    rcases List.mem_append.mp isExtra with older | newest
    · have bounds := fresh pageId older
      omega
    · rw [List.mem_singleton.mp newest]
      omega

end HeapFile

end FlintDB
