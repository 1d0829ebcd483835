import Mathlib.Order.Interval.Finset.Nat
import FlintDB.Lib.Run
import FlintDB.Storage.SlottedPage

set_option autoImplicit false

-- InsertRecord and DeleteRecord in any order, from InitHeapPage on. Each record is put right below the one before it,
-- and no call moves or overwrites an older one.

namespace FlintDB

open Lib

/-- A call, and what InsertRecord answers. -/
inductive PageCall
  | insertRecord (data : Bytes) (answer : Option Nat)
  | deleteRecord (slotId : Nat)
  deriving DecidableEq

namespace PageCall

-- The records that found room, in order.
def inserted (calls : List PageCall) : List Bytes :=
  calls.filterMap fun
    | insertRecord data (some _) => some data
    | _ => none

-- The slot ids that InsertRecord gave out, in order.
def assigned (calls : List PageCall) : List Nat :=
  calls.filterMap fun
    | insertRecord _ answer => answer
    | deleteRecord _ => none

end PageCall

namespace PageImage

def freeSpace (image : PageImage) : Nat :=
  if image.getPdUpper < image.getPdLower then 0 else image.getPdUpper - image.getPdLower

/-- DeleteRecord asserts that the slot is there. -/
def call (image : PageImage) : PageCall → Option PageImage
  | .insertRecord data answer =>
    match image.insertRecord data with
    | none => if answer = none then some image else none
    | some (slotId, image') => if answer = some slotId then some image' else none
  | .deleteRecord slotId => if slotId < image.slotCount then some (image.deleteRecord slotId) else none

-- The bytes of the page that a slot's record takes.
def recordRange (image : PageImage) (slotId : Nat) : Finset Nat :=
  Finset.Ico (RawPage.slotOffset image.buffer slotId)
    (RawPage.slotOffset image.buffer slotId + RawPage.slotLength image.buffer slotId % Page.kDeletedFlag)

-- PageType::kHeap is 1
def initCasts : List Int := [1, Page.kHeaderSize, pageSize]

-- What InsertRecord casts, as far as it comes: len, then new_pd_upper and what it stores as slot count and pd_lower.
def insertCasts (image : PageImage) (data : Bytes) : List Int :=
  if Page.kDeletedFlag ≤ data.length then []
  else data.length ::
    if image.getPdUpper < image.getPdLower then []
    else if image.getPdUpper - image.getPdLower < data.length + Page.kSlotSize then []
    else [image.getPdUpper - data.length, image.slotCount + 1, image.getPdLower + Page.kSlotSize]

def deleteCasts (image : PageImage) (slotId : Nat) : List Int :=
  [(RawPage.slotLength image.buffer slotId ||| Page.kDeletedFlag : Nat)]

def Lossless (casts : List Int) : Prop := ∀ value ∈ casts, 0 ≤ value ∧ value < 2 ^ 16

theorem lossless_initCasts : Lossless initCasts := by
  intro value member
  simp only [initCasts, Page.kHeaderSize, pageSize, List.mem_cons, List.not_mem_nil, or_false] at member
  omega

theorem slotOffset_insertRecord {image image' : PageImage} {data : Bytes} {slotId : Nat}
    (inserted : image.insertRecord data = some (slotId, image'))
    (lower : image.getPdLower = Page.kHeaderSize + image.slotCount * Page.kSlotSize) (upper : image.getPdUpper ≤ pageSize)
    {other : Nat} (present : other ≤ image.slotCount) :
    RawPage.slotOffset image'.buffer other =
      if other = image.slotCount then image.getPdUpper - data.length else RawPage.slotOffset image.buffer other := by
  rw [insertRecord] at inserted
  split at inserted
  · cases inserted
  · split at inserted
    · cases inserted
    · split at inserted
      · cases inserted
      · rename_i ordered room
        cases inserted
        simp only [Page.kHeaderSize, Page.kSlotSize, pageSize] at lower upper room
        -- the header's fields lie before every entry
        rw [RawPage.slotOffset, uintAt_writeUint_outside _ (.inr (by simp only [kOffPdUpper, Page.kHeaderSize]; omega)),
          uintAt_writeUint_outside _ (.inr (by simp only [kOffPdLower, Page.kHeaderSize]; omega)),
          uintAt_writeUint_outside _ (.inr (by simp only [RawPage.kOffSlotCount, Page.kHeaderSize]; omega))]
        by_cases isNew : other = image.slotCount
        · rw [if_pos isNew, isNew]
          exact slotOffset_setSlotEntry _ _ (by simp only [Page.kHeaderSize, Page.kSlotSize, pageSize]; omega) (by omega)
        · rw [if_neg isNew, RawPage.slotOffset, uintAt, uintAt,
            bytesAt_setSlotEntry_outside _ (.inl (by simp only [Page.kHeaderSize, Page.kSlotSize]; omega)),
            bytesAt_write_outside _ (.inl (by simp only [Page.kHeaderSize, Page.kSlotSize]; omega))]

theorem slotOffset_deleteRecord (image : PageImage) {slotId : Nat}
    (entry : Page.kHeaderSize + slotId * Page.kSlotSize + Page.kSlotSize ≤ pageSize) (other : Nat) :
    RawPage.slotOffset (image.deleteRecord slotId).buffer other = RawPage.slotOffset image.buffer other := by
  rw [deleteRecord]
  by_cases same : other = slotId
  · rw [same]
    exact slotOffset_setSlotEntry image _ entry (uintAt_lt image.buffer _ 2)
  · rw [RawPage.slotOffset, uintAt, bytesAt_setSlotEntry_outside _
      (by simp only [Page.kHeaderSize, Page.kSlotSize]; omega)]
    rfl

end PageImage

structure Packed (calls : List PageCall) (image : PageImage) (page : Page) : Prop where
  depicts : Depicts image page
  lower : page.pdLower = Page.kHeaderSize + page.slots.length * Page.kSlotSize
  ordered : page.pdLower ≤ page.pdUpper
  upper : page.pdUpper ≤ pageSize
  records : page.slots.map Slot.record = PageCall.inserted calls
  assigned : PageCall.assigned calls = List.range page.slots.length
  deleted : ∀ slotId slot, page.slots[slotId]? = some slot → (slot.deleted = true ↔ .deleteRecord slotId ∈ calls)
  present : ∀ slotId, .deleteRecord slotId ∈ calls → slotId < page.slots.length
  packed : ∀ slotId other slot, slotId < other → page.slots[other]? = some slot →
    RawPage.slotOffset image.buffer other + slot.record.length ≤ RawPage.slotOffset image.buffer slotId

namespace Packed

variable {calls : List PageCall} {image image' : PageImage} {page : Page}

theorem placed_or_older {slots : List Slot} {placed slot : Slot} {slotId : Nat}
    (found : (slots ++ [placed])[slotId]? = some slot) :
    slots[slotId]? = some slot ∨ (slotId = slots.length ∧ slot = placed) := by
  rw [List.getElem?_append] at found
  split at found
  · exact .inl found
  · rename_i beyond
    rw [List.getElem?_singleton, Option.ite_none_right_eq_some, Option.some.injEq] at found
    exact .inr ⟨by omega, found.2.symm⟩

theorem records_deleteRecord (page : Page) (slotId : Nat) :
    (page.deleteRecord slotId).slots.map Slot.record = page.slots.map Slot.record := by
  refine List.ext_getElem? fun other => ?_
  rw [Page.deleteRecord, List.getElem?_map, List.getElem?_map, List.getElem?_modify]
  split
  · cases page.slots[other]? <;> rfl
  · rw [Option.map_eq_map, Option.map_id_fun', id_eq]

theorem initHeapPage (pageId : Nat) : Packed [] (.initHeapPage pageId) Page.initHeapPage where
  depicts := depicts_initHeapPage pageId
  lower := rfl
  ordered := by decide
  upper := Nat.le_refl _
  records := rfl
  assigned := rfl
  deleted := fun _ _ missing => by cases missing
  present := fun _ called => by cases called
  packed := fun _ _ _ _ missing => by cases missing

theorem refused (packed : Packed calls image page) (data : Bytes) :
    Packed (calls ++ [.insertRecord data none]) image page where
  depicts := packed.depicts
  lower := packed.lower
  ordered := packed.ordered
  upper := packed.upper
  records := by simpa [PageCall.inserted] using packed.records
  assigned := by simpa [PageCall.assigned] using packed.assigned
  deleted := by simpa using packed.deleted
  present := by simpa using packed.present
  packed := packed.packed

theorem insertRecord (packed : Packed calls image page) {data : Bytes} {slotId : Nat}
    (inserted : image.insertRecord data = some (slotId, image')) :
    ∃ page', Packed (calls ++ [.insertRecord data (some slotId)]) image' page' := by
  obtain ⟨page', inserted', depicts'⟩ := packed.depicts.insertRecord inserted
  have offsets : ∀ other ≤ page.slots.length, RawPage.slotOffset image'.buffer other =
      if other = page.slots.length then page.pdUpper - data.length else RawPage.slotOffset image.buffer other := by
    intro other within
    rw [← packed.depicts.count, ← packed.depicts.upper]
    refine PageImage.slotOffset_insertRecord inserted ?_ ?_ (by rwa [packed.depicts.count])
    · rw [packed.depicts.lower, packed.depicts.count]
      exact packed.lower
    · rw [packed.depicts.upper]
      exact packed.upper
  rw [Page.insertRecord] at inserted'
  split at inserted'
  · cases inserted'
  · split at inserted'
    · cases inserted'
    · split at inserted'
      · cases inserted'
      · rename_i short ordered room
        cases inserted'
        have lower := packed.lower
        have upper := packed.upper
        simp only [Page.kHeaderSize, Page.kSlotSize] at lower room
        refine ⟨_, depicts', ?_, ?_, ?_, ?_, ?_, ?_, ?_, ?_⟩
        · simp only [Page.kHeaderSize, Page.kSlotSize, List.length_append, List.length_cons, List.length_nil]
          omega
        · simp only [Page.kSlotSize]
          omega
        · exact (Nat.sub_le _ _).trans upper
        · simp [PageCall.inserted, List.filterMap_append, packed.records]
        · have before := packed.assigned
          rw [PageCall.assigned] at before
          simp [PageCall.assigned, List.filterMap_append, before, List.range_succ]
        · intro other slot found
          rw [List.mem_append, List.mem_singleton, or_iff_left (by simp)]
          rcases placed_or_older found with older | ⟨isNew, rfl⟩
          · exact packed.deleted other slot older
          · -- nobody can have deleted the new slot yet
            constructor
            · exact fun deleted => by cases deleted
            · exact fun called => absurd (packed.present other called) (Nat.not_lt.mpr (Nat.le_of_eq isNew.symm))
        · intro other called
          rw [List.mem_append, List.mem_singleton, or_iff_left (by simp)] at called
          rw [List.length_append]
          exact Nat.lt_add_right _ (packed.present other called)
        · intro first other slot before found
          rcases placed_or_older found with older | ⟨isNew, rfl⟩
          · have within := (List.getElem?_eq_some_iff.mp older).1
            rw [offsets other within.le, if_neg within.ne, offsets first (before.le.trans within.le),
              if_neg (before.trans within).ne]
            exact packed.packed first other slot before older
          · have within : first < page.slots.length := isNew ▸ before
            have above := (packed.depicts.slot first _ (List.getElem?_eq_getElem within)).above
            rw [offsets other isNew.le, if_pos isNew, offsets first within.le, if_neg within.ne]
            show page.pdUpper - data.length + data.length ≤ _
            omega

theorem deleteRecord (packed : Packed calls image page) {slotId : Nat} (present : slotId < page.slots.length) :
    Packed (calls ++ [.deleteRecord slotId]) (image.deleteRecord slotId) (page.deleteRecord slotId) := by
  have entry := packed.depicts.entry_within present
  have offsets := PageImage.slotOffset_deleteRecord image (entry.1.trans entry.2)
  have slots_eq : (page.deleteRecord slotId).slots = page.slots.modify slotId ({ · with deleted := true }) := rfl
  have length_eq : (page.deleteRecord slotId).slots.length = page.slots.length := by
    rw [slots_eq, List.length_modify]
  refine ⟨packed.depicts.deleteRecord present, ?_, packed.ordered, packed.upper, ?_, ?_, ?_, ?_, ?_⟩
  · rw [length_eq]
    exact packed.lower
  · rw [records_deleteRecord, packed.records]
    simp [PageCall.inserted]
  · have same := packed.assigned
    rw [PageCall.assigned] at same
    rw [length_eq]
    simp [PageCall.assigned, List.filterMap_append, same]
  · intro other slot found
    rw [List.mem_append, List.mem_singleton, PageCall.deleteRecord.injEq]
    rw [slots_eq, List.getElem?_modify] at found
    by_cases same : slotId = other
    · simp only [if_pos same, Option.map_eq_map, Option.map_eq_some_iff] at found
      obtain ⟨before, -, rfl⟩ := found
      exact ⟨fun _ => .inr same.symm, fun _ => rfl⟩
    · simp only [if_neg same, Option.map_eq_map, Option.map_id_fun', id_eq] at found
      rw [or_iff_left (Ne.symm same)]
      exact packed.deleted other slot found
  · intro other called
    rw [List.mem_append, List.mem_singleton, PageCall.deleteRecord.injEq] at called
    rw [length_eq]
    rcases called with before | rfl
    · exact packed.present other before
    · exact present
  · intro first other slot before found
    obtain ⟨older, there, same⟩ : ∃ older, page.slots[other]? = some older ∧ older.record = slot.record := by
      have records := congrArg (·[other]?) (records_deleteRecord page slotId)
      simpa [found, eq_comm] using records
    rw [offsets, offsets, ← same]
    exact packed.packed first other older before there

theorem call (packed : Packed calls image page) {call : PageCall} (called : image.call call = some image') :
    ∃ page', Packed (calls ++ [call]) image' page' := by
  cases call with
  | insertRecord data answer =>
    simp only [PageImage.call] at called
    split at called
    · simp only [Option.ite_none_right_eq_some, Option.some.injEq] at called
      obtain ⟨rfl, rfl⟩ := called
      exact ⟨page, packed.refused data⟩
    · rename_i slotId next inserted
      simp only [Option.ite_none_right_eq_some, Option.some.injEq] at called
      obtain ⟨rfl, rfl⟩ := called
      exact packed.insertRecord inserted
  | deleteRecord slotId =>
    simp only [PageImage.call, Option.ite_none_right_eq_some, Option.some.injEq] at called
    obtain ⟨present, rfl⟩ := called
    rw [packed.depicts.count] at present
    exact ⟨_, packed.deleteRecord present⟩

theorem reached {pageId : Nat} (reached : run PageImage.call (.initHeapPage pageId) calls = some image) :
    ∃ page, Packed calls image page := by
  refine run_induction (fun calls image => ∃ page, Packed calls image page) ⟨_, .initHeapPage pageId⟩ ?_ reached
  rintro calls image call image' - ⟨page, packed⟩ called
  exact packed.call called

end Packed

/-- What the class comment of Page promises, and what the 16-bit fields have room for. -/
structure Slotted (calls : List PageCall) (image : PageImage) : Prop where
  lower : image.getPdLower = Page.kHeaderSize + Page.kSlotSize * image.slotCount
  ordered : image.getPdLower ≤ image.getPdUpper
  upper : image.getPdUpper ≤ pageSize
  apart : ∀ slotId < image.slotCount, ∀ other < image.slotCount, slotId ≠ other →
    Disjoint (image.recordRange slotId) (image.recordRange other)
  behind : ∀ slotId < image.slotCount, Disjoint (image.recordRange slotId)
    (Finset.range (Page.kHeaderSize + Page.kSlotSize * image.slotCount))
  inside : ∀ slotId < image.slotCount, image.recordRange slotId ⊆ Finset.range pageSize
  count : image.slotCount = (PageCall.inserted calls).length
  records : ∀ slotId data, (PageCall.inserted calls)[slotId]? = some data → image.getRecord slotId = data
  deleted : ∀ slotId < image.slotCount, image.isDeleted slotId = true ↔ .deleteRecord slotId ∈ calls
  assigned : PageCall.assigned calls = List.range image.slotCount
  refused : ∀ data, image.insertRecord data = none ↔ image.freeSpace < data.length + Page.kSlotSize
  insertLossless : ∀ data, PageImage.Lossless (image.insertCasts data)
  deleteLossless : ∀ slotId < image.slotCount, PageImage.Lossless (image.deleteCasts slotId)

namespace Packed

variable {calls : List PageCall} {image : PageImage} {page : Page} (packed : Packed calls image page)
include packed

theorem slot_at {slotId : Nat} (present : slotId < image.slotCount) : ∃ slot, page.slots[slotId]? = some slot := by
  rw [packed.depicts.count] at present
  exact ⟨_, List.getElem?_eq_getElem present⟩

theorem recordRange_eq {slotId : Nat} {slot : Slot} (there : page.slots[slotId]? = some slot) :
    image.recordRange slotId = Finset.Ico (RawPage.slotOffset image.buffer slotId)
      (RawPage.slotOffset image.buffer slotId + slot.record.length) := by
  have stored := packed.depicts.getRecord there
  have same := congrArg List.length stored
  rw [PageImage.getRecord, RawPage.recordBytes, bytesAt, List.length_map, List.length_range] at same
  rw [PageImage.recordRange, same]

theorem apart {slotId other : Nat} (earlier : slotId < other) (present : other < image.slotCount) :
    Disjoint (image.recordRange slotId) (image.recordRange other) := by
  obtain ⟨first, isFirst⟩ := packed.slot_at (earlier.trans present)
  obtain ⟨second, isSecond⟩ := packed.slot_at present
  have below := packed.packed slotId other second earlier isSecond
  rw [packed.recordRange_eq isFirst, packed.recordRange_eq isSecond, Finset.disjoint_left]
  intro byte inFirst inSecond
  rw [Finset.mem_Ico] at inFirst inSecond
  omega

theorem refused_iff (data : Bytes) :
    image.insertRecord data = none ↔ image.freeSpace < data.length + Page.kSlotSize := by
  have ordered : ¬ image.getPdUpper < image.getPdLower := by
    rw [packed.depicts.upper, packed.depicts.lower]
    exact Nat.not_lt.mpr packed.ordered
  have upper : image.getPdUpper ≤ pageSize := packed.depicts.upper ▸ packed.upper
  rw [PageImage.freeSpace, if_neg ordered, PageImage.insertRecord]
  by_cases long : Page.kDeletedFlag ≤ data.length
  · simp only [if_pos long, true_iff]
    simp only [Page.kDeletedFlag, pageSize] at long upper
    omega
  · rw [if_neg long, if_neg ordered, ite_eq_left_iff]
    simp

theorem insertLossless (data : Bytes) : PageImage.Lossless (image.insertCasts data) := by
  have upper := uintAt_lt image.buffer PageImage.kOffPdUpper 2
  have lower := packed.depicts.lower.trans packed.lower
  have bound := packed.ordered.trans packed.upper
  have count := packed.depicts.count
  rw [packed.lower] at bound
  simp only [Page.kHeaderSize, Page.kSlotSize, pageSize] at lower bound
  intro value member
  rw [PageImage.insertCasts] at member
  change image.getPdUpper < 256 ^ 2 at upper
  split at member
  · cases member
  · rename_i short
    rw [Page.kDeletedFlag] at short
    rw [List.mem_cons] at member
    rcases member with rfl | member
    · omega
    · split at member
      · cases member
      · split at member
        · cases member
        · rename_i room
          simp only [Page.kSlotSize, List.mem_cons, List.not_mem_nil, or_false] at member room
          omega

theorem slotted : Slotted calls image where
  lower := by rw [packed.depicts.lower, packed.depicts.count, packed.lower, Nat.mul_comm]
  ordered := by
    rw [packed.depicts.lower, packed.depicts.upper]
    exact packed.ordered
  upper := packed.depicts.upper ▸ packed.upper
  apart := by
    intro slotId present other present' different
    rcases Nat.lt_or_gt_of_ne different with earlier | later
    · exact packed.apart earlier present'
    · exact (packed.apart later present).symm
  behind := by
    intro slotId present
    obtain ⟨slot, there⟩ := packed.slot_at present
    have above := (packed.depicts.slot slotId slot there).above
    have lower := packed.lower
    have ordered := packed.ordered
    rw [packed.recordRange_eq there, packed.depicts.count, Finset.disjoint_left]
    intro byte inRecord inDirectory
    rw [Finset.mem_Ico] at inRecord
    rw [Finset.mem_range, Nat.mul_comm] at inDirectory
    omega
  inside := by
    intro slotId present
    obtain ⟨slot, there⟩ := packed.slot_at present
    have inside := (packed.depicts.slot slotId slot there).inside
    rw [packed.recordRange_eq there]
    intro byte inRecord
    rw [Finset.mem_Ico] at inRecord
    rw [Finset.mem_range]
    omega
  count := by rw [packed.depicts.count, ← packed.records, List.length_map]
  records := by
    intro slotId data kept
    rw [← packed.records, List.getElem?_map, Option.map_eq_some_iff] at kept
    obtain ⟨slot, there, rfl⟩ := kept
    exact packed.depicts.getRecord there
  deleted := by
    intro slotId present
    obtain ⟨slot, there⟩ := packed.slot_at present
    rw [packed.depicts.isDeleted there]
    exact packed.deleted slotId slot there
  assigned := by rw [packed.assigned, packed.depicts.count]
  refused := packed.refused_iff
  insertLossless := packed.insertLossless
  deleteLossless := by
    intro slotId present value member
    have small : RawPage.slotLength image.buffer slotId ||| Page.kDeletedFlag < 2 ^ 16 :=
      Nat.or_lt_two_pow (uintAt_lt image.buffer _ 2) (by decide)
    rw [PageImage.deleteCasts, List.mem_singleton] at member
    omega

end Packed

theorem slotted_page (pageId : Nat) (calls : List PageCall) (image : PageImage)
    (reached : run PageImage.call (.initHeapPage pageId) calls = some image) :
    Slotted calls image ∧ PageImage.Lossless PageImage.initCasts := by
  obtain ⟨page, packed⟩ := Packed.reached reached
  exact ⟨packed.slotted, PageImage.lossless_initCasts⟩

theorem slotted_page_deleted : ∃ image,
    run PageImage.call (.initHeapPage 0) [.insertRecord [7, 8] (some 0), .deleteRecord 0] = some image ∧
      Slotted [.insertRecord [7, 8] (some 0), .deleteRecord 0] image ∧ PageImage.Lossless PageImage.initCasts := by
  have depicts := depicts_initHeapPage 0
  have hasRoom : (PageImage.initHeapPage 0).insertRecord [7, 8] ≠ none := fun refused =>
    absurd (depicts.insertRecord_none refused) (by decide)
  obtain ⟨⟨slotId, image⟩, inserted⟩ := Option.ne_none_iff_exists'.mp hasRoom
  obtain ⟨page, inserted', depicts'⟩ := depicts.insertRecord inserted
  obtain ⟨rfl, slots_eq⟩ := Page.insertRecord_eq_some inserted'
  have present : 0 < image.slotCount := by
    rw [depicts'.count, slots_eq]
    decide
  have reached : run PageImage.call (.initHeapPage 0) [.insertRecord [7, 8] (some 0), .deleteRecord 0] =
      some (image.deleteRecord 0) := by
    have first : (PageImage.initHeapPage 0).call (.insertRecord [7, 8] (some 0)) = some image := by
      rw [PageImage.call, inserted]
      rfl
    rw [run, first, Option.bind_some, run, PageImage.call, if_pos present]
    rfl
  exact ⟨_, reached, slotted_page 0 _ _ reached⟩

end FlintDB
