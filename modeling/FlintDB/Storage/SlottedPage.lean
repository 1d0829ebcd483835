import FlintDB.Storage.RawPage
import FlintDB.Storage.HeapRows

set_option autoImplicit false

-- Where the records of a heap page lie in its bytes. Records are packed from the end of the page down to pd_upper,
-- the slot directory grows behind the header up to pd_lower, and a page by its records is what the bytes depict.

namespace FlintDB

open Lib

namespace PageImage

def buffer (image : PageImage) : Buffer := fun i => image.bytes.getD i 0

/-- A memcpy into the page, whose array takes no bytes past its end. -/
def write (image : PageImage) (offset : Nat) (data : Bytes) : PageImage where
  bytes := (List.range pageSize).map fun i =>
    if offset ≤ i ∧ i < offset + data.length then data.getD (i - offset) 0 else image.buffer i
  size_eq := by rw [List.length_map, List.length_range]

-- WriteAt of an unsigned integer.
def writeUint (image : PageImage) (offset width value : Nat) : PageImage := image.write offset (leEncode width value)

section Write

variable (image : PageImage)

theorem buffer_beyond {i : Nat} (beyond : pageSize ≤ i) : image.buffer i = 0 := by
  rw [buffer, List.getD_eq_getElem?_getD, List.getElem?_eq_none (by rw [image.size_eq]; exact beyond)]
  rfl

theorem buffer_zero (i : Nat) : PageImage.zero.buffer i = 0 := by
  have bytes_eq : PageImage.zero.bytes = List.replicate pageSize 0 := by simp [zero, ofBytes]
  rw [buffer, bytes_eq, List.getD_eq_getElem?_getD, List.getElem?_replicate]
  split <;> rfl

theorem buffer_write (offset : Nat) (data : Bytes) {i : Nat} (inside : i < pageSize) :
    (image.write offset data).buffer i =
      if offset ≤ i ∧ i < offset + data.length then data.getD (i - offset) 0 else image.buffer i := by
  rw [buffer, write, List.getD_eq_getElem?_getD, List.getElem?_map, List.getElem?_range inside]
  rfl

theorem bytesAt_write_outside {offset : Nat} {data : Bytes} {start length : Nat}
    (outside : start + length ≤ offset ∨ offset + data.length ≤ start) :
    bytesAt (image.write offset data).buffer start length = bytesAt image.buffer start length := by
  rw [bytesAt, bytesAt]
  refine List.map_congr_left fun i member => ?_
  have small := List.mem_range.mp member
  by_cases inside : start + i < pageSize
  · rw [buffer_write image offset data inside, if_neg (by omega)]
  · rw [buffer_beyond _ (Nat.le_of_not_lt inside), buffer_beyond _ (Nat.le_of_not_lt inside)]

theorem bytesAt_write {offset : Nat} {data : Bytes} (fits : offset + data.length ≤ pageSize) :
    bytesAt (image.write offset data).buffer offset data.length = data := by
  refine List.ext_getElem (by rw [bytesAt, List.length_map, List.length_range]) fun i short within => ?_
  simp only [bytesAt, List.getElem_map, List.getElem_range]
  rw [buffer_write image offset data (by omega), if_pos (by omega), Nat.add_sub_cancel_left,
    List.getD_eq_getElem?_getD, List.getElem?_eq_getElem within]
  rfl

theorem uintAt_write_outside {offset : Nat} {data : Bytes} {start width : Nat}
    (outside : start + width ≤ offset ∨ offset + data.length ≤ start) :
    uintAt (image.write offset data).buffer start width = uintAt image.buffer start width := by
  rw [uintAt, uintAt, bytesAt_write_outside image outside]

theorem uintAt_writeUint {offset width value : Nat} (fits : offset + width ≤ pageSize) (small : value < 256 ^ width) :
    uintAt (image.writeUint offset width value).buffer offset width = value := by
  have same : bytesAt (image.writeUint offset width value).buffer offset (leEncode width value).length =
      leEncode width value := bytesAt_write image (by rwa [leEncode_length])
  rw [leEncode_length] at same
  rw [uintAt, same, leDecode_leEncode_of_lt small]

theorem uintAt_writeUint_outside {offset width value start length : Nat}
    (outside : start + length ≤ offset ∨ offset + width ≤ start) :
    uintAt (image.writeUint offset width value).buffer start length = uintAt image.buffer start length :=
  uintAt_write_outside image (by rwa [leEncode_length])

theorem bytesAt_writeUint_outside {offset width value start length : Nat}
    (outside : start + length ≤ offset ∨ offset + width ≤ start) :
    bytesAt (image.writeUint offset width value).buffer start length = bytesAt image.buffer start length :=
  bytesAt_write_outside image (by rwa [leEncode_length])

end Write

def kOffPageType : Nat := 4
def kOffPdLower : Nat := 8
def kOffPdUpper : Nat := 10

def getPdLower (image : PageImage) : Nat := uintAt image.buffer kOffPdLower 2

def getPdUpper (image : PageImage) : Nat := uintAt image.buffer kOffPdUpper 2

def slotCount (image : PageImage) : Nat := RawPage.slotCount image.buffer

def setSlotEntry (image : PageImage) (slotId offset length : Nat) : PageImage :=
  (image.writeUint (Page.kHeaderSize + slotId * Page.kSlotSize) 2 offset).writeUint
    (Page.kHeaderSize + slotId * Page.kSlotSize + 2) 2 length

-- PageType::kHeap is 1
def initHeapPage (pageId : Nat) : PageImage :=
  ((((PageImage.zero.writeUint 0 4 pageId).writeUint kOffPageType 2 1).writeUint RawPage.kOffSlotCount 2 0).writeUint
    kOffPdLower 2 Page.kHeaderSize).writeUint kOffPdUpper 2 pageSize

def insertRecord (image : PageImage) (data : Bytes) : Option (Nat × PageImage) :=
  if Page.kDeletedFlag ≤ data.length then none
  else if image.getPdUpper < image.getPdLower then none
  else if image.getPdUpper - image.getPdLower < data.length + Page.kSlotSize then none
  else
    let newPdUpper := image.getPdUpper - data.length
    let slotId := image.slotCount
    some (slotId, ((((image.write newPdUpper data).setSlotEntry slotId newPdUpper data.length).writeUint
      RawPage.kOffSlotCount 2 (slotId + 1)).writeUint kOffPdLower 2 (image.getPdLower + Page.kSlotSize)).writeUint
        kOffPdUpper 2 newPdUpper)

def isDeleted (image : PageImage) (slotId : Nat) : Bool := Page.kDeletedFlag ≤ RawPage.slotLength image.buffer slotId

def getRecord (image : PageImage) (slotId : Nat) : Bytes := RawPage.recordBytes image.buffer slotId

-- the top bit of the length is set; a length that has it keeps its value
def deleteRecord (image : PageImage) (slotId : Nat) : PageImage :=
  image.setSlotEntry slotId (RawPage.slotOffset image.buffer slotId)
    (RawPage.slotLength image.buffer slotId % Page.kDeletedFlag + Page.kDeletedFlag)

end PageImage

section SlotEntry

variable (image : PageImage) {slotId offset length : Nat}

theorem bytesAt_setSlotEntry_outside {start width : Nat}
    (outside : start + width ≤ Page.kHeaderSize + slotId * Page.kSlotSize ∨
      Page.kHeaderSize + slotId * Page.kSlotSize + Page.kSlotSize ≤ start) :
    bytesAt (image.setSlotEntry slotId offset length).buffer start width = bytesAt image.buffer start width := by
  simp only [Page.kSlotSize] at outside
  rw [PageImage.setSlotEntry, PageImage.bytesAt_writeUint_outside _ (by simp only [Page.kSlotSize]; omega),
    PageImage.bytesAt_writeUint_outside _ (by simp only [Page.kSlotSize]; omega)]

theorem slotOffset_setSlotEntry (length : Nat)
    (fits : Page.kHeaderSize + slotId * Page.kSlotSize + Page.kSlotSize ≤ pageSize) (small : offset < 2 ^ 16) :
    RawPage.slotOffset (image.setSlotEntry slotId offset length).buffer slotId = offset := by
  simp only [Page.kSlotSize] at fits
  rw [RawPage.slotOffset, PageImage.setSlotEntry, PageImage.uintAt_writeUint_outside _ (.inl (Nat.le_refl _))]
  exact PageImage.uintAt_writeUint _ (by simp only [Page.kSlotSize]; omega) small

theorem slotLength_setSlotEntry (fits : Page.kHeaderSize + slotId * Page.kSlotSize + Page.kSlotSize ≤ pageSize)
    (small : length < 2 ^ 16) :
    RawPage.slotLength (image.setSlotEntry slotId offset length).buffer slotId = length :=
  PageImage.uintAt_writeUint _ (by simp only [Page.kSlotSize] at fits ⊢; omega) small

end SlotEntry

-- The slot entry, and the record where it points, between pd_upper and the end of the page.
structure SlotDepicts (image : PageImage) (pdUpper slotId : Nat) (slot : Slot) : Prop where
  above : pdUpper ≤ RawPage.slotOffset image.buffer slotId
  inside : RawPage.slotOffset image.buffer slotId + slot.record.length ≤ pageSize
  length : RawPage.slotLength image.buffer slotId =
    slot.record.length + if slot.deleted then Page.kDeletedFlag else 0
  record : bytesAt image.buffer (RawPage.slotOffset image.buffer slotId) slot.record.length = slot.record

structure Depicts (image : PageImage) (page : Page) : Prop where
  count : image.slotCount = page.slots.length
  lower : image.getPdLower = page.pdLower
  upper : image.getPdUpper = page.pdUpper
  layout : page = {} ∨ (page.pdLower = Page.kHeaderSize + page.slots.length * Page.kSlotSize ∧
    page.pdLower ≤ page.pdUpper ∧ page.pdUpper ≤ pageSize)
  slot : ∀ slotId slot, page.slots[slotId]? = some slot → SlotDepicts image page.pdUpper slotId slot

theorem SlotDepicts.of_same {image image' : PageImage} {pdUpper pdUpper' slotId : Nat} {slot : Slot}
    (depicts : SlotDepicts image pdUpper slotId slot) (lowered : pdUpper' ≤ pdUpper)
    (entry : ∀ start, (start = Page.kHeaderSize + slotId * Page.kSlotSize ∨
      start = Page.kHeaderSize + slotId * Page.kSlotSize + 2) →
        bytesAt image'.buffer start 2 = bytesAt image.buffer start 2)
    (record : ∀ start, pdUpper ≤ start →
      bytesAt image'.buffer start slot.record.length = bytesAt image.buffer start slot.record.length) :
    SlotDepicts image' pdUpper' slotId slot := by
  have offset_eq : RawPage.slotOffset image'.buffer slotId = RawPage.slotOffset image.buffer slotId := by
    rw [RawPage.slotOffset, RawPage.slotOffset, uintAt, uintAt, entry _ (.inl rfl)]
  have length_eq : RawPage.slotLength image'.buffer slotId = RawPage.slotLength image.buffer slotId := by
    rw [RawPage.slotLength, RawPage.slotLength, uintAt, uintAt, entry _ (.inr rfl)]
  refine ⟨?_, ?_, ?_, ?_⟩
  · rw [offset_eq]
    exact lowered.trans depicts.above
  · rw [offset_eq]
    exact depicts.inside
  · rw [length_eq]
    exact depicts.length
  · rw [offset_eq, record _ depicts.above]
    exact depicts.record

theorem SlotDepicts.writeHeader {image : PageImage} {pdUpper slotId : Nat} {slot : Slot}
    (depicts : SlotDepicts image pdUpper slotId slot) (behind : Page.kHeaderSize ≤ pdUpper) {offset width value : Nat}
    (inHeader : offset + width ≤ Page.kHeaderSize) :
    SlotDepicts (image.writeUint offset width value) pdUpper slotId slot := by
  refine depicts.of_same (Nat.le_refl _) (fun start isEntry => ?_) fun start above => ?_
  · exact PageImage.bytesAt_writeUint_outside image (.inr (by omega))
  · exact PageImage.bytesAt_writeUint_outside image (.inr (by omega))

theorem uintAt_zero (offset width : Nat) : uintAt PageImage.zero.buffer offset width = 0 := by
  have bytes_eq : bytesAt PageImage.zero.buffer offset width = leEncode width 0 := by
    refine List.ext_getElem (by simp [bytesAt]) fun i short within => ?_
    simp only [bytesAt, List.getElem_map, PageImage.buffer_zero]
    clear short
    induction width generalizing i with
    | zero => cases within
    | succ width ih =>
      cases i with
      | zero => rfl
      | succ i => exact ih i (Nat.lt_of_succ_lt_succ within)
  rw [uintAt, bytes_eq, leDecode_leEncode, Nat.zero_mod]

theorem depicts_zero : Depicts .zero {} where
  count := uintAt_zero _ _
  lower := uintAt_zero _ _
  upper := uintAt_zero _ _
  layout := .inl rfl
  slot := fun _ _ missing => by cases missing

theorem depicts_initHeapPage (pageId : Nat) : Depicts (.initHeapPage pageId) Page.initHeapPage where
  count := by
    simp only [PageImage.slotCount, RawPage.slotCount, PageImage.initHeapPage, RawPage.kOffSlotCount,
      PageImage.kOffPdLower, PageImage.kOffPdUpper]
    rw [PageImage.uintAt_writeUint_outside _ (by omega), PageImage.uintAt_writeUint_outside _ (by omega),
      PageImage.uintAt_writeUint _ (by decide) (by decide)]
    rfl
  lower := by
    simp only [PageImage.getPdLower, PageImage.initHeapPage, PageImage.kOffPdLower, PageImage.kOffPdUpper]
    rw [PageImage.uintAt_writeUint_outside _ (by omega), PageImage.uintAt_writeUint _ (by decide) (by decide)]
    rfl
  upper := PageImage.uintAt_writeUint _ (by decide) (by decide)
  layout := .inr ⟨rfl, by decide, by decide⟩
  slot := fun _ _ missing => by cases missing

section Operations

variable {image : PageImage} {page : Page} (depicts : Depicts image page)
include depicts

theorem Depicts.insertRecord_none {data : Bytes} (refused : image.insertRecord data = none) :
    page.insertRecord data = none := by
  rw [PageImage.insertRecord, depicts.lower, depicts.upper] at refused
  rw [Page.insertRecord]
  split at refused
  · rename_i long
    rw [if_pos long]
  · rename_i short
    rw [if_neg short]
    split at refused
    · rename_i corrupt
      rw [if_pos corrupt]
    · rename_i ordered
      rw [if_neg ordered]
      split at refused
      · rename_i full
        rw [if_pos full]
      · cases refused

theorem Depicts.placed_slot {data : Bytes} (short : data.length < Page.kDeletedFlag)
    (lower_eq : page.pdLower = Page.kHeaderSize + page.slots.length * Page.kSlotSize)
    (within : page.pdUpper ≤ pageSize) (room : page.pdLower + Page.kSlotSize + data.length ≤ page.pdUpper)
    (slotId : Nat) (slot : Slot) (present : (page.slots ++ [{ record := data }])[slotId]? = some slot) :
    SlotDepicts ((image.write (page.pdUpper - data.length) data).setSlotEntry page.slots.length
      (page.pdUpper - data.length) data.length) (page.pdUpper - data.length) slotId slot := by
  simp only [Page.kHeaderSize, Page.kSlotSize, Page.kDeletedFlag, pageSize] at short lower_eq within room
  rw [List.getElem?_append] at present
  split at present
  · rename_i older
    refine (depicts.slot slotId slot present).of_same (Nat.sub_le _ _) (fun start isEntry => ?_) fun start above => ?_
    · simp only [Page.kHeaderSize, Page.kSlotSize] at isEntry
      rw [bytesAt_setSlotEntry_outside _ (by simp only [Page.kHeaderSize, Page.kSlotSize]; omega),
        PageImage.bytesAt_write_outside _ (by omega)]
    · rw [bytesAt_setSlotEntry_outside _ (by simp only [Page.kHeaderSize, Page.kSlotSize]; omega),
        PageImage.bytesAt_write_outside _ (by omega)]
  · have slotId_eq : slotId = page.slots.length := by
      have isNew := (List.getElem?_eq_some_iff.mp present).1
      simp only [List.length_cons, List.length_nil] at isNew
      omega
    subst slotId_eq
    rw [Nat.sub_self, List.getElem?_cons_zero, Option.some.injEq] at present
    subst present
    have fits : Page.kHeaderSize + page.slots.length * Page.kSlotSize + Page.kSlotSize ≤ pageSize := by
      simp only [Page.kHeaderSize, Page.kSlotSize, pageSize]
      omega
    have offset_eq := slotOffset_setSlotEntry (image.write (page.pdUpper - data.length) data) data.length
      fits (show page.pdUpper - data.length < 2 ^ 16 by omega)
    refine ⟨Nat.le_of_eq offset_eq.symm, ?_, slotLength_setSlotEntry _ fits (by omega), ?_⟩
    · rw [offset_eq]
      change page.pdUpper - data.length + data.length ≤ 4096
      omega
    · rw [offset_eq, bytesAt_setSlotEntry_outside _ (by simp only [Page.kHeaderSize, Page.kSlotSize]; omega)]
      exact PageImage.bytesAt_write image (by simp only [pageSize]; omega)

theorem Depicts.placed {data : Bytes} (short : data.length < Page.kDeletedFlag)
    (lower_eq : page.pdLower = Page.kHeaderSize + page.slots.length * Page.kSlotSize)
    (within : page.pdUpper ≤ pageSize) (room : page.pdLower + Page.kSlotSize + data.length ≤ page.pdUpper) :
    Depicts (((((image.write (page.pdUpper - data.length) data).setSlotEntry page.slots.length
        (page.pdUpper - data.length) data.length).writeUint RawPage.kOffSlotCount 2
        (page.slots.length + 1)).writeUint PageImage.kOffPdLower 2 (page.pdLower + Page.kSlotSize)).writeUint
        PageImage.kOffPdUpper 2 (page.pdUpper - data.length))
      { slots := page.slots ++ [{ record := data }]
        pdLower := page.pdLower + Page.kSlotSize
        pdUpper := page.pdUpper - data.length } := by
  have slots := depicts.placed_slot short lower_eq within room
  simp only [Page.kHeaderSize, Page.kSlotSize, Page.kDeletedFlag, pageSize] at short lower_eq within room
  refine ⟨?_, ?_, ?_, .inr ⟨?_, ?_, ?_⟩, fun slotId slot present => ?_⟩
  · simp only [PageImage.slotCount, RawPage.slotCount, List.length_append, List.length_cons, List.length_nil]
    rw [PageImage.uintAt_writeUint_outside _ (.inl (by decide)), PageImage.uintAt_writeUint_outside _ (.inl (by decide)),
      PageImage.uintAt_writeUint _ (by decide) (by omega)]
  · rw [PageImage.getPdLower, PageImage.uintAt_writeUint_outside _ (.inl (by decide)),
      PageImage.uintAt_writeUint _ (by decide) (by simp only [Page.kSlotSize]; omega)]
  · exact PageImage.uintAt_writeUint _ (by decide) (by omega)
  · simp only [List.length_append, List.length_cons, List.length_nil, Page.kHeaderSize, Page.kSlotSize]
    omega
  · change page.pdLower + 4 ≤ page.pdUpper - data.length
    omega
  · change page.pdUpper - data.length ≤ 4096
    omega
  · have header : Page.kHeaderSize ≤ page.pdUpper - data.length := by
      simp only [Page.kHeaderSize]
      omega
    exact (((slots slotId slot present).writeHeader header (by decide)).writeHeader header (by decide)).writeHeader
      header (by decide)

theorem Depicts.insertRecord {data : Bytes} {slotId : Nat} {image' : PageImage}
    (inserted : image.insertRecord data = some (slotId, image')) :
    ∃ page', page.insertRecord data = some (slotId, page') ∧ Depicts image' page' := by
  rw [PageImage.insertRecord, depicts.lower, depicts.upper, depicts.count] at inserted
  rw [Page.insertRecord]
  split at inserted
  · cases inserted
  · split at inserted
    · cases inserted
    · split at inserted
      · cases inserted
      · rename_i short ordered room
        cases inserted
        rw [if_neg short, if_neg ordered, if_neg room]
        rcases depicts.layout with rfl | ⟨lower_eq, _, within⟩
        · exact absurd (Nat.lt_add_left data.length (by decide : 0 < Page.kSlotSize)) room
        · exact ⟨_, rfl, depicts.placed (Nat.lt_of_not_le short) lower_eq within (by omega)⟩

theorem Depicts.entry_within {slotId : Nat} (present : slotId < page.slots.length) :
    Page.kHeaderSize + slotId * Page.kSlotSize + Page.kSlotSize ≤ page.pdUpper ∧ page.pdUpper ≤ pageSize := by
  rcases depicts.layout with rfl | ⟨lower_eq, ordered, within⟩
  · cases present
  · simp only [Page.kHeaderSize, Page.kSlotSize] at lower_eq ⊢
    omega

theorem Depicts.deleteRecord {slotId : Nat} (present : slotId < page.slots.length) :
    Depicts (image.deleteRecord slotId) (page.deleteRecord slotId) := by
  obtain ⟨entry, within⟩ := depicts.entry_within present
  have target := depicts.slot slotId _ (List.getElem?_eq_getElem present)
  have header : ∀ start width, start + width ≤ Page.kHeaderSize →
      uintAt (image.deleteRecord slotId).buffer start width = uintAt image.buffer start width := by
    intro start width inHeader
    rw [uintAt, uintAt, PageImage.deleteRecord, bytesAt_setSlotEntry_outside _ (.inl (by omega))]
  refine ⟨?_, (header _ _ (by decide)).trans depicts.lower, (header _ _ (by decide)).trans depicts.upper, ?_, ?_⟩
  · rw [Page.deleteRecord, List.length_modify]
    exact (header _ _ (by decide)).trans depicts.count
  · refine .inr ?_
    rcases depicts.layout with rfl | layout
    · cases present
    · rwa [Page.deleteRecord, List.length_modify]
  · intro other slot found
    rw [Page.deleteRecord, List.getElem?_modify] at found
    by_cases same : slotId = other
    · subst same
      simp only [if_true, List.getElem?_eq_getElem present, Option.map_eq_map, Option.map_some,
        Option.some.injEq] at found
      subst found
      have inside := target.inside
      have above := target.above
      have fits : Page.kHeaderSize + slotId * Page.kSlotSize + Page.kSlotSize ≤ pageSize := entry.trans within
      simp only [pageSize] at inside
      have offset_eq := slotOffset_setSlotEntry image
        (RawPage.slotLength image.buffer slotId % Page.kDeletedFlag + Page.kDeletedFlag) fits
        (show RawPage.slotOffset image.buffer slotId < 2 ^ 16 by omega)
      have length_eq : RawPage.slotLength image.buffer slotId % Page.kDeletedFlag = page.slots[slotId].record.length := by
        rw [target.length]
        simp only [Page.kDeletedFlag]
        split <;> omega
      refine ⟨?_, ?_, ?_, ?_⟩
      · rw [PageImage.deleteRecord, offset_eq]
        exact above
      · rw [PageImage.deleteRecord, offset_eq]
        exact target.inside
      · rw [PageImage.deleteRecord, slotLength_setSlotEntry image fits (by simp only [Page.kDeletedFlag]; omega), length_eq]
        rfl
      · rw [PageImage.deleteRecord, offset_eq, bytesAt_setSlotEntry_outside _ (.inr (by omega))]
        exact target.record
    · simp only [if_neg same, Option.map_eq_map, Option.map_id_fun', id_eq] at found
      refine (depicts.slot other slot found).of_same (Nat.le_refl _) (fun start isEntry => ?_) fun start above => ?_
      · simp only [Page.kHeaderSize, Page.kSlotSize] at isEntry
        exact bytesAt_setSlotEntry_outside _ (by simp only [Page.kHeaderSize, Page.kSlotSize]; omega)
      · exact bytesAt_setSlotEntry_outside _ (.inr (by omega))

theorem Depicts.isDeleted {slotId : Nat} {slot : Slot} (present : page.slots[slotId]? = some slot) :
    image.isDeleted slotId = slot.deleted := by
  have target := depicts.slot slotId slot present
  have inside := target.inside
  simp only [pageSize] at inside
  rw [PageImage.isDeleted, target.length]
  cases slot.deleted with
  | false => exact decide_eq_false (by simp only [Page.kDeletedFlag, Bool.false_eq_true, if_false]; omega)
  | true => exact decide_eq_true (by simp only [if_true]; omega)

theorem Depicts.getRecord {slotId : Nat} {slot : Slot} (present : page.slots[slotId]? = some slot) :
    image.getRecord slotId = slot.record := by
  have target := depicts.slot slotId slot present
  have inside := target.inside
  have length_eq : RawPage.slotLength image.buffer slotId % Page.kDeletedFlag = slot.record.length := by
    rw [target.length]
    simp only [pageSize, Page.kDeletedFlag] at inside ⊢
    split <;> omega
  rw [PageImage.getRecord, RawPage.recordBytes, length_eq]
  exact target.record

end Operations

end FlintDB
