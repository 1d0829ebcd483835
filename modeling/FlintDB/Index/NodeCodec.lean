import FlintDB.Index.RawTree
import FlintDB.Lib.Poke

set_option autoImplicit false

-- SerializeLeaf, SerializeInternal and SerializeHeader as what they write where, and that what is read back is what
-- was written. A node of one entry more than its maximum sends a write past the end of the page.

namespace FlintDB

open Lib

namespace RawNode

def kBTreeInternal : Nat := 3
def kBTreeHeader : Nat := 4

-- WriteAt of an unsigned integer, cast to so many bytes.
def writeAt (offset width value : Nat) : Poke UInt8 := ⟨offset, leEncode width value⟩

def writeKey (offset : Nat) (key : Int) : Poke UInt8 := writeAt offset 8 (Int64.ofInt key).toUInt64.toNat

-- std::memset(buf, 0, PAGE_SIZE)
def clearPage : Poke UInt8 := ⟨0, List.replicate pageSize 0⟩

-- The loop over the entries of a leaf, from `off` on.
def writeEntries (off : Nat) : List (Int × RID) → List (Poke UInt8)
  | [] => []
  | (key, rid) :: rest =>
    writeKey off key :: writeAt (off + 8) 4 rid.pageId :: writeAt (off + 12) 2 rid.slotId ::
      writeEntries (off + kLeafEntrySize) rest

def serializeLeaf (leaf : LeafNode) : List (Poke UInt8) :=
  clearPage :: writeAt kOffPageId 4 leaf.pageId :: writeAt kOffPageType 2 kBTreeLeaf ::
    writeAt kOffKeyCount 2 leaf.entries.length :: writeAt kOffNextLeaf 4 leaf.nextLeaf ::
      writeEntries kBTreeHeaderSize leaf.entries

-- The loop over the keys of an internal node, each with the child behind it. `none` is a child past the end of the
-- vector.
def writeChildren (off : Nat) : List Int → List Nat → Option (List (Poke UInt8))
  | [], _ => some []
  | _ :: _, [] => none
  | key :: keys, child :: children =>
    (writeChildren (off + kInternalKeySize + kInternalChildSize) keys children).map fun rest =>
      writeKey off key :: writeAt (off + kInternalKeySize) 4 child :: rest

def serializeInternal (node : InternalNode Nat) : Option (List (Poke UInt8)) :=
  match node.children with
  | [] => none
  | first :: others =>
    (writeChildren (kBTreeHeaderSize + kInternalChildSize) node.keys others).map fun rest =>
      clearPage :: writeAt kOffPageId 4 node.pageId :: writeAt kOffPageType 2 kBTreeInternal ::
        writeAt kOffKeyCount 2 node.keys.length :: writeAt kBTreeHeaderSize 4 first :: rest

def serializeHeader (rootPageId : Nat) : List (Poke UInt8) :=
  [clearPage, writeAt kOffPageId 4 kRootHeaderPageId, writeAt kOffPageType 2 kBTreeHeader,
    writeAt kOffHeaderRootPageId 4 rootPageId]

def deserializeHeaderRootPageId (buffer : Buffer) : Peek Exception Nat := peekAt buffer kOffHeaderRootPageId 4

def IsInt64 (key : Int) : Prop := -2 ^ 63 ≤ key ∧ key < 2 ^ 63

def IsRID (rid : RID) : Prop := rid.pageId < 2 ^ 32 ∧ rid.slotId < 2 ^ 16

structure TypedLeaf (leaf : LeafNode) : Prop where
  pageId : leaf.pageId < 2 ^ 32
  nextLeaf : leaf.nextLeaf < 2 ^ 32
  entries : ∀ entry ∈ leaf.entries, IsInt64 entry.1 ∧ IsRID entry.2

structure TypedInternal (node : InternalNode Nat) : Prop where
  pageId : node.pageId < 2 ^ 32
  keys : ∀ key ∈ node.keys, IsInt64 key
  children : ∀ child ∈ node.children, child < 2 ^ 32

section Write

variable {buffer : Buffer}

theorem uintAt_congr {buffer' : Buffer} {offset width : Nat}
    (same : ∀ i, offset ≤ i → i < offset + width → buffer' i = buffer i) :
    uintAt buffer' offset width = uintAt buffer offset width := by
  refine congrArg leDecode (List.map_congr_left fun i member => ?_)
  have small := List.mem_range.mp member
  exact same (offset + i) (by omega) (by omega)

theorem uintAt_writeAt {offset width value : Nat} (small : value < 256 ^ width) :
    uintAt (Poke.apply buffer (writeAt offset width value)) offset width = value := by
  have bytes_eq : bytesAt (Poke.apply buffer (writeAt offset width value)) offset width = leEncode width value := by
    refine List.ext_getElem (by rw [bytesAt, List.length_map, List.length_range, leEncode_length]) fun i short within => ?_
    simp only [bytesAt, List.getElem_map, List.getElem_range]
    exact Poke.apply_inside offset (List.getElem?_eq_getElem within)
  rw [uintAt, bytes_eq, leDecode_leEncode_of_lt small]

theorem uintAt_writeAt_outside {offset width value start length : Nat}
    (outside : start + length ≤ offset ∨ offset + width ≤ start) :
    uintAt (Poke.apply buffer (writeAt offset width value)) start length = uintAt buffer start length := by
  refine uintAt_congr fun i low high => Poke.apply_outside ?_
  simp only [writeAt, leEncode_length]
  omega

theorem readKey_writeKey (buffer : Buffer) {offset : Nat} {key : Int} (isInt64 : IsInt64 key) {buffer' : Buffer}
    (same : uintAt buffer' offset 8 = uintAt (Poke.apply buffer (writeKey offset key)) offset 8) :
    (readKey buffer' offset).result = .ok key := by
  have word : (Int64.ofInt key).toUInt64.toNat < 256 ^ 8 := UInt64.toNat_lt _
  rw [writeKey, uintAt_writeAt word] at same
  rw [readKey, Peek.bind_eq, Peek.result_bind_of_ok (peekAt_result ..), same, UInt64.ofNat_toNat,
    Int64.toInt64_toUInt64, Int64.toInt_ofInt_of_le isInt64.1 isInt64.2]
  rfl

def Between (writes : List (Poke UInt8)) (low high : Nat) : Prop :=
  ∀ write ∈ writes, low ≤ write.offset ∧ write.offset + write.data.length ≤ high

theorem uintAt_applyAll_outside {writes : List (Poke UInt8)} {low high start width : Nat}
    (between : Between writes low high) (outside : start + width ≤ low ∨ high ≤ start) :
    uintAt (Poke.applyAll buffer writes) start width = uintAt buffer start width := by
  refine uintAt_congr fun i above below => Poke.applyAll_outside fun write member => ?_
  have range := between write member
  omega

theorem Between.within {writes : List (Poke UInt8)} {low high : Nat} (between : Between writes low high)
    (fits : high ≤ pageSize) : ∀ write ∈ writes, write.Within pageSize := by
  intro write member
  have range := between write member
  exact Poke.within_iff.mpr (.inr (by omega))

end Write

theorem between_writeEntries (off : Nat) (entries : List (Int × RID)) :
    Between (writeEntries off entries) off (off + entries.length * kLeafEntrySize) := by
  induction entries generalizing off with
  | nil => exact fun _ member => by cases member
  | cons entry rest ih =>
    have later := ih (off + kLeafEntrySize)
    intro write member
    simp only [writeEntries, writeKey, writeAt, List.mem_cons] at member
    simp only [kLeafEntrySize, List.length_cons] at later ⊢
    rcases member with rfl | rfl | rfl | member
    · simp only [leEncode_length]
      omega
    · simp only [leEncode_length]
      omega
    · simp only [leEncode_length]
      omega
    · have range := later write member
      omega

theorem readEntries_writeEntries {entries : List (Int × RID)} (typed : ∀ entry ∈ entries, IsInt64 entry.1 ∧ IsRID entry.2)
    (buffer : Buffer) (off : Nat) :
    (readEntries (Poke.applyAll buffer (writeEntries off entries)) entries.length off).result = .ok entries := by
  induction entries generalizing buffer off with
  | nil => rfl
  | cons entry rest ih =>
    obtain ⟨key, ⟨pageId, slotId⟩⟩ := entry
    rw [List.forall_mem_cons] at typed
    obtain ⟨⟨isInt64, isPageId, isSlotId⟩, typed⟩ := typed
    have later := between_writeEntries (off + kLeafEntrySize) rest
    have returned := ih typed (Poke.apply (Poke.apply (Poke.apply buffer (writeKey off key)) (writeAt (off + 8) 4 pageId))
      (writeAt (off + 12) 2 slotId)) (off + kLeafEntrySize)
    simp only [writeEntries, List.length_cons, readEntries, Poke.applyAll_cons, Peek.bind_eq]
    generalize written : Poke.applyAll _ (writeEntries (off + kLeafEntrySize) rest) = last at returned ⊢
    have key_eq : (readKey last off).result = .ok key := by
      refine readKey_writeKey buffer isInt64 ?_
      rw [← written, uintAt_applyAll_outside later (.inl (by simp only [kLeafEntrySize]; omega)),
        uintAt_writeAt_outside (.inl (by omega)), uintAt_writeAt_outside (.inl (by omega))]
    have pageId_eq : uintAt last (off + 8) 4 = pageId := by
      rw [← written, uintAt_applyAll_outside later (.inl (by simp only [kLeafEntrySize]; omega)),
        uintAt_writeAt_outside (.inl (by omega)), uintAt_writeAt isPageId]
    have slotId_eq : uintAt last (off + 12) 2 = slotId := by
      rw [← written, uintAt_applyAll_outside later (.inl (by simp only [kLeafEntrySize]; omega)),
        uintAt_writeAt isSlotId]
    rw [Peek.result_bind_of_ok key_eq, Peek.result_bind_of_ok (peekAt_result ..),
      Peek.result_bind_of_ok (peekAt_result ..), Peek.result_bind_of_ok returned, pageId_eq, slotId_eq]
    rfl

theorem within_header {offset width value : Nat} (fits : offset + width ≤ pageSize) :
    (writeAt offset width value).Within pageSize := by
  refine Poke.within_iff.mpr (.inr ?_)
  rwa [writeAt, leEncode_length]

theorem within_clearPage : clearPage.Within pageSize :=
  Poke.within_iff.mpr (.inr (by rw [clearPage, List.length_replicate, Nat.zero_add]))

theorem within_serializeLeaf {leaf : LeafNode} (fits : leaf.entries.length ≤ kLeafMaxKeys) :
    ∀ write ∈ serializeLeaf leaf, write.Within pageSize := by
  have entries := (between_writeEntries kBTreeHeaderSize leaf.entries).within
    (by simp only [kBTreeHeaderSize, kLeafEntrySize, pageSize, kLeafMaxKeys_eq] at fits ⊢; omega)
  intro write member
  simp only [serializeLeaf, List.mem_cons] at member
  rcases member with rfl | rfl | rfl | rfl | rfl | member
  · exact within_clearPage
  · exact within_header (by decide)
  · exact within_header (by decide)
  · exact within_header (by decide)
  · exact within_header (by decide)
  · exact entries write member

theorem deserializeLeaf_serializeLeaf {leaf : LeafNode} (typed : TypedLeaf leaf)
    (fits : leaf.entries.length ≤ kLeafMaxKeys) (buffer : Buffer) :
    (deserializeLeaf (Poke.applyAll buffer (serializeLeaf leaf))).result = .ok leaf ∧
      pageType (Poke.applyAll buffer (serializeLeaf leaf)) = kBTreeLeaf ∧
      keyCount (Poke.applyAll buffer (serializeLeaf leaf)) = leaf.entries.length := by
  have entries := between_writeEntries kBTreeHeaderSize leaf.entries
  simp only [serializeLeaf, Poke.applyAll_cons]
  have returned := readEntries_writeEntries typed.entries (Poke.apply (Poke.apply (Poke.apply (Poke.apply
    (Poke.apply buffer clearPage) (writeAt kOffPageId 4 leaf.pageId)) (writeAt kOffPageType 2 kBTreeLeaf))
    (writeAt kOffKeyCount 2 leaf.entries.length)) (writeAt kOffNextLeaf 4 leaf.nextLeaf)) kBTreeHeaderSize
  generalize written : Poke.applyAll _ (writeEntries kBTreeHeaderSize leaf.entries) = last at returned ⊢
  have count : uintAt last kOffKeyCount 2 = leaf.entries.length := by
    rw [← written, uintAt_applyAll_outside entries (.inl (by decide)), uintAt_writeAt_outside (.inl (by decide)),
      uintAt_writeAt (by rw [kLeafMaxKeys_eq] at fits; omega)]
  have type : uintAt last kOffPageType 2 = kBTreeLeaf := by
    rw [← written, uintAt_applyAll_outside entries (.inl (by decide)), uintAt_writeAt_outside (.inl (by decide)),
      uintAt_writeAt_outside (.inl (by decide)), uintAt_writeAt (by decide)]
  have pageId : uintAt last kOffPageId 4 = leaf.pageId := by
    rw [← written, uintAt_applyAll_outside entries (.inl (by decide)), uintAt_writeAt_outside (.inl (by decide)),
      uintAt_writeAt_outside (.inl (by decide)), uintAt_writeAt_outside (.inl (by decide)), uintAt_writeAt typed.pageId]
  have nextLeaf : uintAt last kOffNextLeaf 4 = leaf.nextLeaf := by
    rw [← written, uintAt_applyAll_outside entries (.inl (by decide)), uintAt_writeAt typed.nextLeaf]
  refine ⟨?_, type, count⟩
  simp only [deserializeLeaf, Peek.bind_eq]
  rw [Peek.result_bind_of_ok (peekAt_result ..), Peek.result_bind_of_ok (peekAt_result ..),
    Peek.result_bind_of_ok (peekAt_result ..), count, Peek.result_bind_of_ok returned, pageId, nextLeaf]
  rfl

theorem last_writeEntries (off : Nat) {entries : List (Int × RID)} (some : entries ≠ []) :
    ∃ write ∈ writeEntries off entries, write.data ≠ [] ∧
      write.offset + write.data.length = off + entries.length * kLeafEntrySize := by
  induction entries generalizing off with
  | nil => exact absurd rfl some
  | cons entry rest ih =>
    obtain ⟨key, rid⟩ := entry
    cases rest with
    | nil =>
      refine ⟨writeAt (off + 12) 2 rid.slotId, by simp [writeEntries], by simp [writeAt, leEncode], ?_⟩
      simp only [writeAt, leEncode_length, List.length_cons, List.length_nil, kLeafEntrySize]
    | cons second rest =>
      obtain ⟨write, member, nonempty, ends⟩ := ih (off + kLeafEntrySize) (List.cons_ne_nil second rest)
      refine ⟨write, by simp [writeEntries] at member ⊢; tauto, nonempty, ?_⟩
      simp only [ends, kLeafEntrySize, List.length_cons]
      omega

theorem writeChildren_exists (off : Nat) {keys : List Int} {children : List Nat} (many : keys.length ≤ children.length) :
    ∃ writes, writeChildren off keys children = some writes := by
  induction keys generalizing off children with
  | nil => exact ⟨[], rfl⟩
  | cons key keys ih =>
    cases children with
    | nil => exact absurd many (by simp)
    | cons child children =>
      obtain ⟨rest, written⟩ := @ih (off + kInternalKeySize + kInternalChildSize) children (Nat.le_of_succ_le_succ many)
      exact ⟨_, by rw [writeChildren, written]; rfl⟩

theorem writeChildren_cons {off : Nat} {key : Int} {keys : List Int} {children : List Nat} {writes : List (Poke UInt8)}
    (written : writeChildren off (key :: keys) children = some writes) :
    ∃ child others rest, children = child :: others ∧
      writeChildren (off + kInternalKeySize + kInternalChildSize) keys others = some rest ∧
      writes = writeKey off key :: writeAt (off + kInternalKeySize) 4 child :: rest := by
  cases children with
  | nil => cases written
  | cons child others =>
    rw [writeChildren, Option.map_eq_some_iff] at written
    obtain ⟨rest, later, rfl⟩ := written
    exact ⟨child, others, rest, rfl, later, rfl⟩

theorem between_writeChildren {off : Nat} {keys : List Int} {children : List Nat} {writes : List (Poke UInt8)}
    (written : writeChildren off keys children = some writes) :
    Between writes off (off + keys.length * (kInternalKeySize + kInternalChildSize)) := by
  induction keys generalizing off children writes with
  | nil =>
    cases written
    exact fun _ member => by cases member
  | cons key keys ih =>
    obtain ⟨child, others, rest, rfl, later, rfl⟩ := writeChildren_cons written
    have range := ih later
    intro write member
    simp only [writeKey, writeAt, List.mem_cons] at member
    simp only [kInternalKeySize, kInternalChildSize, List.length_cons] at range member ⊢
    rcases member with rfl | rfl | member
    · simp only [leEncode_length]
      omega
    · simp only [leEncode_length]
      omega
    · have here := range write member
      omega

theorem readChildren_writeChildren {keys : List Int} {children : List Nat} {writes : List (Poke UInt8)} {off : Nat}
    (written : writeChildren off keys children = some writes) (same : children.length = keys.length)
    (isInt64 : ∀ key ∈ keys, IsInt64 key) (isPageId : ∀ child ∈ children, child < 2 ^ 32) (buffer : Buffer) :
    (readChildren (Poke.applyAll buffer writes) keys.length off).result = .ok (keys.zip children) := by
  induction keys generalizing off children writes buffer with
  | nil => rfl
  | cons key keys ih =>
    obtain ⟨child, others, rest, rfl, later, rfl⟩ := writeChildren_cons written
    rw [List.forall_mem_cons] at isInt64 isPageId
    have range := between_writeChildren later
    have returned := ih later (Nat.succ.inj same) isInt64.2 isPageId.2
      (Poke.apply (Poke.apply buffer (writeKey off key)) (writeAt (off + kInternalKeySize) 4 child))
    simp only [List.length_cons, readChildren, Poke.applyAll_cons, Peek.bind_eq, List.zip_cons_cons]
    generalize written' : Poke.applyAll _ rest = last at returned ⊢
    simp only [kInternalKeySize, kInternalChildSize] at range returned written' ⊢
    have key_eq : (readKey last off).result = .ok key := by
      refine readKey_writeKey buffer isInt64.1 ?_
      rw [← written', uintAt_applyAll_outside range (.inl (by omega)), uintAt_writeAt_outside (.inl (by omega))]
    have child_eq : uintAt last (off + 8) 4 = child := by
      rw [← written', uintAt_applyAll_outside range (.inl (by omega)), uintAt_writeAt isPageId.1]
    rw [Peek.result_bind_of_ok key_eq, Peek.result_bind_of_ok (peekAt_result ..), Peek.result_bind_of_ok returned,
      child_eq]
    rfl

theorem last_writeChildren {off : Nat} {keys : List Int} {children : List Nat} {writes : List (Poke UInt8)}
    (written : writeChildren off keys children = some writes) (some : keys ≠ []) :
    ∃ write ∈ writes, write.data ≠ [] ∧
      write.offset + write.data.length = off + keys.length * (kInternalKeySize + kInternalChildSize) := by
  induction keys generalizing off children writes with
  | nil => exact absurd rfl some
  | cons key keys ih =>
    obtain ⟨child, others, rest, rfl, later, rfl⟩ := writeChildren_cons written
    by_cases last : keys = []
    · subst last
      refine ⟨writeAt (off + kInternalKeySize) 4 child, by simp, by simp [writeAt, leEncode], ?_⟩
      simp only [writeAt, leEncode_length, List.length_cons, List.length_nil, kInternalKeySize, kInternalChildSize]
    · obtain ⟨write, member, nonempty, ends⟩ := ih later last
      refine ⟨write, List.mem_cons_of_mem _ (List.mem_cons_of_mem _ member), nonempty, ?_⟩
      simp only [ends, kInternalKeySize, kInternalChildSize, List.length_cons]
      omega

theorem serializeInternal_exists {node : InternalNode Nat} (counts : node.children.length = node.keys.length + 1) :
    ∃ first others rest, node.children = first :: others ∧ others.length = node.keys.length ∧
      writeChildren (kBTreeHeaderSize + kInternalChildSize) node.keys others = some rest ∧
      serializeInternal node = some (clearPage :: writeAt kOffPageId 4 node.pageId ::
        writeAt kOffPageType 2 kBTreeInternal :: writeAt kOffKeyCount 2 node.keys.length ::
          writeAt kBTreeHeaderSize 4 first :: rest) := by
  obtain ⟨pageId, keys, children⟩ := node
  cases children with
  | nil => cases counts
  | cons first others =>
    have same : others.length = keys.length := Nat.succ.inj counts
    obtain ⟨rest, written⟩ := writeChildren_exists (kBTreeHeaderSize + kInternalChildSize) same.ge
    refine ⟨first, others, rest, rfl, same, written, ?_⟩
    rw [serializeInternal]
    simp only [written, Option.map_some]

theorem deserializeInternal_serializeInternal {node : InternalNode Nat} (typed : TypedInternal node)
    (counts : node.children.length = node.keys.length + 1) (fits : node.keys.length ≤ kInternalMaxKeys)
    (buffer : Buffer) :
    ∃ writes, serializeInternal node = some writes ∧ (∀ write ∈ writes, write.Within pageSize) ∧
      (deserializeInternal (Poke.applyAll buffer writes)).result = .ok node ∧
      pageType (Poke.applyAll buffer writes) = kBTreeInternal ∧
      keyCount (Poke.applyAll buffer writes) = node.keys.length := by
  obtain ⟨first, others, rest, children_eq, same, written, serialized⟩ := serializeInternal_exists counts
  have range := between_writeChildren written
  have isPageId := typed.children
  rw [children_eq, List.forall_mem_cons] at isPageId
  refine ⟨_, serialized, ?_, ?_⟩
  · have later := range.within
      (by simp only [kBTreeHeaderSize, kInternalKeySize, kInternalChildSize, pageSize, kInternalMaxKeys_eq] at fits ⊢; omega)
    intro write member
    simp only [List.mem_cons] at member
    rcases member with rfl | rfl | rfl | rfl | rfl | member
    · exact within_clearPage
    · exact within_header (by decide)
    · exact within_header (by decide)
    · exact within_header (by decide)
    · exact within_header (by decide)
    · exact later write member
  · simp only [Poke.applyAll_cons]
    have returned := readChildren_writeChildren written same typed.keys isPageId.2 (Poke.apply (Poke.apply (Poke.apply
      (Poke.apply (Poke.apply buffer clearPage) (writeAt kOffPageId 4 node.pageId))
      (writeAt kOffPageType 2 kBTreeInternal)) (writeAt kOffKeyCount 2 node.keys.length)) (writeAt kBTreeHeaderSize 4 first))
    generalize written' : Poke.applyAll _ rest = last at returned ⊢
    have count : uintAt last kOffKeyCount 2 = node.keys.length := by
      rw [← written', uintAt_applyAll_outside range (.inl (by decide)), uintAt_writeAt_outside (.inl (by decide)),
        uintAt_writeAt (by rw [kInternalMaxKeys_eq] at fits; omega)]
    have type : uintAt last kOffPageType 2 = kBTreeInternal := by
      rw [← written', uintAt_applyAll_outside range (.inl (by decide)), uintAt_writeAt_outside (.inl (by decide)),
        uintAt_writeAt_outside (.inl (by decide)), uintAt_writeAt (by decide)]
    have pageId : uintAt last kOffPageId 4 = node.pageId := by
      rw [← written', uintAt_applyAll_outside range (.inl (by decide)), uintAt_writeAt_outside (.inl (by decide)),
        uintAt_writeAt_outside (.inl (by decide)), uintAt_writeAt_outside (.inl (by decide)), uintAt_writeAt typed.pageId]
    have child : uintAt last kBTreeHeaderSize 4 = first := by
      rw [← written', uintAt_applyAll_outside range (.inl (by decide)), uintAt_writeAt isPageId.1]
    refine ⟨?_, type, count⟩
    simp only [deserializeInternal, Peek.bind_eq]
    rw [Peek.result_bind_of_ok (peekAt_result ..), Peek.result_bind_of_ok (peekAt_result ..),
      Peek.result_bind_of_ok (peekAt_result ..), count, Peek.result_bind_of_ok returned, pageId, child]
    have keys_eq : (node.keys.zip others).map Prod.fst = node.keys := List.map_fst_zip same.ge
    have others_eq : (node.keys.zip others).map Prod.snd = others := List.map_snd_zip same.le
    rw [keys_eq, others_eq, ← children_eq]
    rfl

/-- The node is written inside the page, with its tag, and read back from inside the page as it was, whatever the memory
held before. -/
structure RoundTrip {N : Type} (writes : List (Poke UInt8)) (deserialize : Buffer → Peek Exception N) (node : N)
    (type : Nat) : Prop where
  inside : ∀ write ∈ writes, write.Within pageSize
  behind : ∀ (buffer : Buffer) (offset : Nat), pageSize ≤ offset → Poke.applyAll buffer writes offset = buffer offset
  returned : ∀ buffer, (deserialize (Poke.applyAll buffer writes)).result = .ok node
  reads : ∀ buffer, (deserialize (Poke.applyAll buffer writes)).Within pageSize
  tagged : ∀ buffer, pageType (Poke.applyAll buffer writes) = type

theorem leaf_roundTrip {leaf : LeafNode} (typed : TypedLeaf leaf) (fits : leaf.entries.length ≤ kLeafMaxKeys) :
    RoundTrip (serializeLeaf leaf) deserializeLeaf leaf kBTreeLeaf where
  inside := within_serializeLeaf fits
  behind := fun _ _ behind => Poke.applyAll_behind (within_serializeLeaf fits) behind
  returned := fun buffer => (deserializeLeaf_serializeLeaf typed fits buffer).1
  reads := by
    intro buffer
    rw [within_deserializeLeaf, (deserializeLeaf_serializeLeaf typed fits buffer).2.2]
    exact fits
  tagged := fun buffer => (deserializeLeaf_serializeLeaf typed fits buffer).2.1

theorem internal_roundTrip {node : InternalNode Nat} (typed : TypedInternal node)
    (counts : node.children.length = node.keys.length + 1) (fits : node.keys.length ≤ kInternalMaxKeys) :
    ∃ writes, serializeInternal node = some writes ∧ RoundTrip writes deserializeInternal node kBTreeInternal := by
  obtain ⟨first, others, rest, -, -, -, serialized⟩ := serializeInternal_exists counts
  have all : ∀ buffer : Buffer, _ := fun buffer => deserializeInternal_serializeInternal typed counts fits buffer
  simp only [serialized, Option.some.injEq, exists_eq_left'] at all
  refine ⟨_, serialized, (all fun _ => 0).1, fun buffer offset behind => ?_, fun buffer => (all buffer).2.1,
    fun buffer => ?_, fun buffer => (all buffer).2.2.1⟩
  · exact Poke.applyAll_behind (all buffer).1 behind
  · rw [within_deserializeInternal, (all buffer).2.2.2]
    exact fits

theorem header_roundTrip {rootPageId : Nat} (typed : rootPageId < 2 ^ 32) :
    RoundTrip (serializeHeader rootPageId) deserializeHeaderRootPageId rootPageId kBTreeHeader := by
  have inside : ∀ write ∈ serializeHeader rootPageId, write.Within pageSize := by
    intro write member
    simp only [serializeHeader, List.mem_cons, List.not_mem_nil, or_false] at member
    rcases member with rfl | rfl | rfl | rfl
    · exact within_clearPage
    · exact within_header (by decide)
    · exact within_header (by decide)
    · exact within_header (by decide)
  refine ⟨inside, fun buffer offset behind => Poke.applyAll_behind inside behind, fun buffer => ?_, fun buffer => ?_,
    fun buffer => ?_⟩
  · rw [deserializeHeaderRootPageId, peekAt_result]
    simp only [serializeHeader, Poke.applyAll_cons, Poke.applyAll_nil]
    rw [uintAt_writeAt typed]
  · exact (within_peekAt (by decide)).mpr (by decide)
  · simp only [pageType, serializeHeader, Poke.applyAll_cons, Poke.applyAll_nil]
    rw [uintAt_writeAt_outside (.inl (by decide)), uintAt_writeAt (by decide)]

theorem leaf_overflows {leaf : LeafNode} (tooMany : leaf.entries.length = kLeafMaxKeys + 1) :
    ∃ write ∈ serializeLeaf leaf, ¬ write.Within pageSize := by
  have some : leaf.entries ≠ [] := fun empty => by
    rw [empty] at tooMany
    cases tooMany
  obtain ⟨write, member, nonempty, ends⟩ := last_writeEntries kBTreeHeaderSize some
  refine ⟨write, by simp [serializeLeaf, member], fun within => ?_⟩
  rcases Poke.within_iff.mp within with empty | fits
  · exact nonempty empty
  · rw [ends, tooMany] at fits
    exact absurd fits (by decide)

theorem internal_overflows {node : InternalNode Nat} (counts : node.children.length = node.keys.length + 1)
    (tooMany : node.keys.length = kInternalMaxKeys + 1) :
    ∃ writes, serializeInternal node = some writes ∧ ∃ write ∈ writes, ¬ write.Within pageSize := by
  obtain ⟨first, others, rest, -, -, written, serialized⟩ := serializeInternal_exists counts
  have some : node.keys ≠ [] := fun empty => by
    rw [empty] at tooMany
    cases tooMany
  obtain ⟨write, member, nonempty, ends⟩ := last_writeChildren written some
  refine ⟨_, serialized, write, by simp [member], fun within => ?_⟩
  rcases Poke.within_iff.mp within with empty | fits
  · exact nonempty empty
  · rw [ends, tooMany] at fits
    exact absurd fits (by decide)

theorem node_codec :
    (∀ leaf, TypedLeaf leaf → leaf.entries.length ≤ kLeafMaxKeys →
      RoundTrip (serializeLeaf leaf) deserializeLeaf leaf kBTreeLeaf) ∧
    (∀ node, TypedInternal node → node.children.length = node.keys.length + 1 → node.keys.length ≤ kInternalMaxKeys →
      ∃ writes, serializeInternal node = some writes ∧ RoundTrip writes deserializeInternal node kBTreeInternal) ∧
    (∀ rootPageId, rootPageId < 2 ^ 32 →
      RoundTrip (serializeHeader rootPageId) deserializeHeaderRootPageId rootPageId kBTreeHeader) ∧
    [kBTreeLeaf, kBTreeInternal, kBTreeHeader].Nodup ∧
    (∀ leaf, leaf.entries.length = kLeafMaxKeys + 1 → ∃ write ∈ serializeLeaf leaf, ¬ write.Within pageSize) ∧
    (∀ node, node.children.length = node.keys.length + 1 → node.keys.length = kInternalMaxKeys + 1 →
      ∃ writes, serializeInternal node = some writes ∧ ∃ write ∈ writes, ¬ write.Within pageSize) := by
  refine ⟨fun leaf => leaf_roundTrip, fun node => internal_roundTrip, fun rootPageId => header_roundTrip, by decide,
    fun leaf => leaf_overflows, fun node => internal_overflows⟩

theorem node_codec_sample :
    RoundTrip (serializeLeaf ⟨2, 5, [(-7, ⟨1, 0⟩), (4, ⟨3, 9⟩)]⟩) deserializeLeaf ⟨2, 5, [(-7, ⟨1, 0⟩), (4, ⟨3, 9⟩)]⟩
      kBTreeLeaf ∧
      (∃ writes, serializeInternal ⟨6, [4, 11], [2, 5, 7]⟩ = some writes ∧
        RoundTrip writes deserializeInternal ⟨6, [4, 11], [2, 5, 7]⟩ kBTreeInternal) ∧
      RoundTrip (serializeHeader 6) deserializeHeaderRootPageId 6 kBTreeHeader ∧
      (∃ write ∈ serializeLeaf ⟨2, 5, List.replicate 292 (4, ⟨3, 9⟩)⟩, ¬ write.Within pageSize) ∧
      ∃ writes, serializeInternal ⟨6, List.replicate 340 4, List.replicate 341 2⟩ = some writes ∧
        ∃ write ∈ writes, ¬ write.Within pageSize := by
  obtain ⟨leaf, internal, header, -, leafOverflows, internalOverflows⟩ := node_codec
  refine ⟨leaf _ ⟨by decide, by decide, ?_⟩ (by decide), internal _ ⟨by decide, ?_, by decide⟩ rfl (by decide),
    header 6 (by decide), leafOverflows _ (List.length_replicate ..), internalOverflows _ ?_ (List.length_replicate ..)⟩
  · simp [IsInt64, IsRID]
  · simp [IsInt64]
  · rw [List.length_replicate, List.length_replicate]

end RawNode

end FlintDB
