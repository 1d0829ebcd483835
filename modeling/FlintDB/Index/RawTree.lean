import FlintDB.Storage.RawPage

set_option autoImplicit false

-- Search, Height and RangeScanAll over pages as bytes, outside of a transaction. A page that is not marked as a leaf
-- is read as an internal node, whatever it is, and the pages of the leaf chain are read as leaves. A file without
-- pages gets its header page in the constructor, before any of this.

namespace FlintDB

open Lib

namespace RawNode

def kOffPageId : Nat := 0
def kOffPageType : Nat := 4
def kOffKeyCount : Nat := 6
def kOffNextLeaf : Nat := 8
def kOffHeaderRootPageId : Nat := kBTreeHeaderSize
def kRootHeaderPageId : Nat := 0
def kBTreeLeaf : Nat := 2

def pageType (buffer : Buffer) : Nat := uintAt buffer kOffPageType 2
def keyCount (buffer : Buffer) : Nat := uintAt buffer kOffKeyCount 2

def readPageType (buffer : Buffer) : Peek Exception Nat := peekAt buffer kOffPageType 2

def readKey (buffer : Buffer) (offset : Nat) : Peek Exception Int := do
  let word ← peekAt buffer offset 8
  return (UInt64.ofNat word).toInt64.toInt

-- The loop over the entries of a leaf, so many of them from `off` on.
def readEntries (buffer : Buffer) : Nat → Nat → Peek Exception (List (Int × RID))
  | 0, _ => return []
  | count + 1, off => do
    let key ← readKey buffer off
    let pageId ← peekAt buffer (off + 8) 4
    let slotId ← peekAt buffer (off + 12) 2
    let rest ← readEntries buffer count (off + kLeafEntrySize)
    return (key, ⟨pageId, slotId⟩) :: rest

def deserializeLeaf (buffer : Buffer) : Peek Exception LeafNode := do
  let pageId ← peekAt buffer kOffPageId 4
  let nextLeaf ← peekAt buffer kOffNextLeaf 4
  let count ← peekAt buffer kOffKeyCount 2
  let entries ← readEntries buffer count kBTreeHeaderSize
  return { pageId, nextLeaf, entries }

-- Keys, each with the child behind it.
def readChildren (buffer : Buffer) : Nat → Nat → Peek Exception (List (Int × Nat))
  | 0, _ => return []
  | count + 1, off => do
    let key ← readKey buffer off
    let child ← peekAt buffer (off + kInternalKeySize) 4
    let rest ← readChildren buffer count (off + kInternalKeySize + kInternalChildSize)
    return (key, child) :: rest

def deserializeInternal (buffer : Buffer) : Peek Exception (InternalNode Nat) := do
  let pageId ← peekAt buffer kOffPageId 4
  let count ← peekAt buffer kOffKeyCount 2
  let first ← peekAt buffer kBTreeHeaderSize 4
  let pairs ← readChildren buffer count (kBTreeHeaderSize + kInternalChildSize)
  return { pageId, keys := pairs.map Prod.fst, children := first :: pairs.map Prod.snd }

-- The bisection of std::upper_bound over `len` keys from `first` on. Keys that are not sorted do not lead it out of
-- them.
def bisect (keys : List Int) (key : Int) : Nat → Nat → Nat → Nat
  | 0, first, _ => first
  | rounds + 1, first, len =>
    if len = 0 then first
    else
      let half := len / 2
      if key < keys.getD (first + half) 0 then bisect keys key rounds first half
      else bisect keys key rounds (first + half + 1) (len - half - 1)

def rawUpperBound (keys : List Int) (key : Int) : Nat := bisect keys key keys.length 0 keys.length

section Node

variable (buffer : Buffer)

theorem readKey_returns (offset : Nat) : ∃ key, (readKey buffer offset).result = .ok key := ⟨_, rfl⟩

theorem within_readKey (offset size : Nat) : (readKey buffer offset).Within size ↔ offset + 8 ≤ size := by
  rw [readKey, Peek.bind_eq, Peek.within_bind_of_ok (peekAt_result ..), within_peekAt (by decide)]
  exact and_iff_left (Peek.within_pure _ _)

theorem readEntries_returns (count off : Nat) : ∃ entries, (readEntries buffer count off).result = .ok entries := by
  induction count generalizing off with
  | zero => exact ⟨[], rfl⟩
  | succ count ih =>
    obtain ⟨rest, returned⟩ := ih (off + kLeafEntrySize)
    obtain ⟨key, isKey⟩ := readKey_returns buffer off
    simp only [readEntries, Peek.bind_eq]
    rw [Peek.result_bind_of_ok isKey, Peek.result_bind_of_ok (peekAt_result ..),
      Peek.result_bind_of_ok (peekAt_result ..), Peek.result_bind_of_ok returned]
    exact ⟨_, rfl⟩

theorem within_readEntries (count off size : Nat) : (readEntries buffer count off).Within size ↔
    count = 0 ∨ off + count * kLeafEntrySize ≤ size := by
  induction count generalizing off with
  | zero => simp [readEntries]
  | succ count ih =>
    obtain ⟨rest, returned⟩ := readEntries_returns buffer count (off + kLeafEntrySize)
    obtain ⟨key, isKey⟩ := readKey_returns buffer off
    simp only [readEntries, Peek.bind_eq]
    rw [Peek.within_bind_of_ok isKey, Peek.within_bind_of_ok (peekAt_result ..),
      Peek.within_bind_of_ok (peekAt_result ..), Peek.within_bind_of_ok returned, within_readKey,
      within_peekAt (by decide), within_peekAt (by decide), ih]
    simp only [Peek.within_pure, and_true, kLeafEntrySize]
    omega

theorem reads_readEntries (count off : Nat) : (readEntries buffer count off).reads.length ≤ count * 3 := by
  induction count generalizing off with
  | zero => exact Nat.zero_le _
  | succ count ih =>
    have round : (readEntries buffer (count + 1) off).reads.length ≤ 1 + (1 + (1 + (count * 3 + 0))) :=
      Peek.reads_bind_le (Nat.le_refl 1) fun _ _ => Peek.reads_bind_le (Nat.le_refl 1) fun _ _ =>
        Peek.reads_bind_le (Nat.le_refl 1) fun _ _ => Peek.reads_bind_le (ih _) fun _ _ => Nat.le_refl 0
    omega

theorem readChildren_returns (count off : Nat) : ∃ pairs, (readChildren buffer count off).result = .ok pairs := by
  induction count generalizing off with
  | zero => exact ⟨[], rfl⟩
  | succ count ih =>
    obtain ⟨rest, returned⟩ := ih (off + kInternalKeySize + kInternalChildSize)
    obtain ⟨key, isKey⟩ := readKey_returns buffer off
    simp only [readChildren, Peek.bind_eq]
    rw [Peek.result_bind_of_ok isKey, Peek.result_bind_of_ok (peekAt_result ..), Peek.result_bind_of_ok returned]
    exact ⟨_, rfl⟩

theorem within_readChildren (count off size : Nat) : (readChildren buffer count off).Within size ↔
    count = 0 ∨ off + count * (kInternalKeySize + kInternalChildSize) ≤ size := by
  induction count generalizing off with
  | zero => simp [readChildren]
  | succ count ih =>
    obtain ⟨rest, returned⟩ := readChildren_returns buffer count (off + kInternalKeySize + kInternalChildSize)
    obtain ⟨key, isKey⟩ := readKey_returns buffer off
    simp only [readChildren, Peek.bind_eq]
    rw [Peek.within_bind_of_ok isKey, Peek.within_bind_of_ok (peekAt_result ..), Peek.within_bind_of_ok returned,
      within_readKey, within_peekAt (by decide), ih]
    simp only [Peek.within_pure, and_true, kInternalKeySize, kInternalChildSize]
    omega

theorem reads_readChildren (count off : Nat) : (readChildren buffer count off).reads.length ≤ count * 3 := by
  induction count generalizing off with
  | zero => exact Nat.zero_le _
  | succ count ih =>
    have round : (readChildren buffer (count + 1) off).reads.length ≤ 1 + (1 + (count * 3 + 0)) :=
      Peek.reads_bind_le (Nat.le_refl 1) fun _ _ => Peek.reads_bind_le (Nat.le_refl 1) fun _ _ =>
        Peek.reads_bind_le (ih _) fun _ _ => Nat.le_refl 0
    omega

/-- How many reads a page can take, with a count of 16 bits. -/
def maxNodeReads : Nat := 4 + 2 ^ 16 * 3

theorem deserializeLeaf_returns : ∃ leaf, (deserializeLeaf buffer).result = .ok leaf := by
  obtain ⟨entries, returned⟩ := readEntries_returns buffer (uintAt buffer kOffKeyCount 2) kBTreeHeaderSize
  simp only [deserializeLeaf, Peek.bind_eq]
  rw [Peek.result_bind_of_ok (peekAt_result ..), Peek.result_bind_of_ok (peekAt_result ..),
    Peek.result_bind_of_ok (peekAt_result ..), Peek.result_bind_of_ok returned]
  exact ⟨_, rfl⟩

theorem within_deserializeLeaf : (deserializeLeaf buffer).Within pageSize ↔ keyCount buffer ≤ kLeafMaxKeys := by
  obtain ⟨entries, returned⟩ := readEntries_returns buffer (uintAt buffer kOffKeyCount 2) kBTreeHeaderSize
  simp only [deserializeLeaf, keyCount, Peek.bind_eq]
  rw [Peek.within_bind_of_ok (peekAt_result ..), Peek.within_bind_of_ok (peekAt_result ..),
    Peek.within_bind_of_ok (peekAt_result ..), Peek.within_bind_of_ok returned, within_peekAt (by decide),
    within_peekAt (by decide), within_peekAt (by decide), within_readEntries]
  simp only [Peek.within_pure, and_true, kOffPageId, kOffNextLeaf, kOffKeyCount, kBTreeHeaderSize, kLeafEntrySize,
    pageSize, kLeafMaxKeys_eq]
  omega

theorem reads_deserializeLeaf : (deserializeLeaf buffer).reads.length ≤ 3 + 2 ^ 16 * 3 := by
  have count := uintAt_lt buffer kOffKeyCount 2
  have round : (deserializeLeaf buffer).reads.length ≤
      1 + (1 + (1 + (uintAt buffer kOffKeyCount 2 * 3 + 0))) := by
    refine Peek.reads_bind_le (Nat.le_refl 1) fun _ _ => Peek.reads_bind_le (Nat.le_refl 1) fun _ _ =>
      Peek.reads_bind_le (Nat.le_refl 1) fun _ isCount => ?_
    cases isCount
    exact Peek.reads_bind_le (reads_readEntries buffer _ _) fun _ _ => Nat.le_refl 0
  omega

theorem deserializeInternal_returns : ∃ node, (deserializeInternal buffer).result = .ok node ∧
    node.children.length = node.keys.length + 1 := by
  obtain ⟨pairs, returned⟩ := readChildren_returns buffer (uintAt buffer kOffKeyCount 2)
    (kBTreeHeaderSize + kInternalChildSize)
  simp only [deserializeInternal, Peek.bind_eq]
  rw [Peek.result_bind_of_ok (peekAt_result ..), Peek.result_bind_of_ok (peekAt_result ..),
    Peek.result_bind_of_ok (peekAt_result ..), Peek.result_bind_of_ok returned]
  exact ⟨_, rfl, by simp⟩

theorem within_deserializeInternal :
    (deserializeInternal buffer).Within pageSize ↔ keyCount buffer ≤ kInternalMaxKeys := by
  obtain ⟨pairs, returned⟩ := readChildren_returns buffer (uintAt buffer kOffKeyCount 2)
    (kBTreeHeaderSize + kInternalChildSize)
  simp only [deserializeInternal, keyCount, Peek.bind_eq]
  rw [Peek.within_bind_of_ok (peekAt_result ..), Peek.within_bind_of_ok (peekAt_result ..),
    Peek.within_bind_of_ok (peekAt_result ..), Peek.within_bind_of_ok returned, within_peekAt (by decide),
    within_peekAt (by decide), within_peekAt (by decide), within_readChildren]
  simp only [Peek.within_pure, and_true, kOffPageId, kOffKeyCount, kBTreeHeaderSize, kInternalKeySize,
    kInternalChildSize, pageSize, kInternalMaxKeys_eq]
  omega

theorem reads_deserializeInternal : (deserializeInternal buffer).reads.length ≤ 3 + 2 ^ 16 * 3 := by
  have count := uintAt_lt buffer kOffKeyCount 2
  have round : (deserializeInternal buffer).reads.length ≤
      1 + (1 + (1 + (uintAt buffer kOffKeyCount 2 * 3 + 0))) := by
    refine Peek.reads_bind_le (Nat.le_refl 1) fun _ _ => Peek.reads_bind_le (Nat.le_refl 1) fun _ isCount => ?_
    cases isCount
    exact Peek.reads_bind_le (Nat.le_refl 1) fun _ _ =>
      Peek.reads_bind_le (reads_readChildren buffer _ _) fun _ _ => Nat.le_refl 0
  omega

end Node

theorem bisect_le {keys : List Int} {key : Int} {rounds first len : Nat} (inside : first + len ≤ keys.length) :
    bisect keys key rounds first len ≤ keys.length := by
  induction rounds generalizing first len with
  | zero =>
    rw [bisect]
    omega
  | succ rounds ih =>
    rw [bisect]
    split
    · omega
    · simp only
      split
      · exact ih (by omega)
      · exact ih (by omega)

theorem rawUpperBound_le (keys : List Int) (key : Int) : rawUpperBound keys key ≤ keys.length :=
  bisect_le (Nat.le_of_eq (Nat.zero_add _))

end RawNode

namespace RawFile

open RawNode

def traversalStepsExceeded : Exception := .runtimeError
  ("BPlusTree: traversal exceeded the maximum step count -- this can only mean a corrupted child or " ++
    "next-leaf pointer has formed a cycle (docs/DECISIONS.md D-054), since no uncorrupted tree over this " ++
    "page size could ever legitimately be this deep or have this many leaves in one chain")

def orUndefined {α : Type} : Option α → Peek Exception α
  | some a => return a
  | none => .throw .undefined

def getRootPageId (file : RawFile) : Peek Exception Nat := do
  let header ← file.fetchPage kRootHeaderPageId
  peekAt header kOffHeaderRootPageId 4

-- A round of Search.
def searchRound (file : RawFile) (key : Int) (cur : Nat) : Peek Exception (List RID ⊕ Nat) := do
  let buffer ← file.fetchPage cur
  let type ← readPageType buffer
  if type = kBTreeLeaf then
    let leaf ← deserializeLeaf buffer
    return .inl ((leaf.entries.filter fun entry => entry.1 = key).map Prod.snd)
  else
    let node ← deserializeInternal buffer
    let child ← orUndefined node.children[rawUpperBound node.keys key]?
    return .inr child

def search (file : RawFile) (key : Int) : Peek Exception (List RID) := do
  let root ← file.getRootPageId
  if root = invalidPageId then return []
  else Peek.walk (file.searchRound key) traversalStepsExceeded kMaxTraversalSteps root

-- A round of the descent along first children, which Height and RangeScanAll share, on level `h`.
def descentRound (file : RawFile) (place : Nat × Buffer) : Peek Exception ((Nat × Buffer) ⊕ (Nat × Buffer)) := do
  let (h, buffer) := place
  let type ← readPageType buffer
  if type = kBTreeLeaf then return .inl (h, buffer)
  else if h > kMaxTraversalSteps then .throw traversalStepsExceeded
  else
    let node ← deserializeInternal buffer
    let child ← orUndefined node.children.head?
    let next ← file.fetchPage child
    return .inr (h + 1, next)

def descent (file : RawFile) (root : Nat) : Peek Exception (Nat × Buffer) := do
  let buffer ← file.fetchPage root
  Peek.walk file.descentRound traversalStepsExceeded (kMaxTraversalSteps + 1) (1, buffer)

def height (file : RawFile) : Peek Exception Nat := do
  let root ← file.getRootPageId
  if root = invalidPageId then return 0
  else
    let (h, _) ← file.descent root
    return h

-- A round of the walk along the leaf chain.
def chainRound (file : RawFile) (place : List (Int × RID) × Buffer) :
    Peek Exception (List (Int × RID) ⊕ (List (Int × RID) × Buffer)) := do
  let (out, buffer) := place
  let leaf ← deserializeLeaf buffer
  if leaf.nextLeaf = invalidPageId then return .inl (out ++ leaf.entries)
  else
    let next ← file.fetchPage leaf.nextLeaf
    return .inr (out ++ leaf.entries, next)

def rangeScanAll (file : RawFile) : Peek Exception (List (Int × RID)) := do
  let root ← file.getRootPageId
  if root = invalidPageId then return []
  else
    let (_, buffer) ← file.descent root
    Peek.walk file.chainRound traversalStepsExceeded kMaxTraversalSteps ([], buffer)

-- FetchPage of a page that is in neither memory nor the file.
def beyondEndOfFile : Exception := .logicError "DiskManager::ReadPage: page_id beyond end of file"

def Grows (file file' : RawFile) : Prop :=
  file.behind = file'.behind ∧
    ∀ (pageId : Nat) (page : PageImage), file.pages[pageId]? = some page → file'.pages[pageId]? = some page

section Grows

open Peek

variable {file file' : RawFile} (grows : file.Grows file')
include grows

theorem fetchPage_follows (pageId : Nat) :
    Follows (file.fetchPage pageId) (file'.fetchPage pageId) beyondEndOfFile := by
  intro never
  rw [fetchPage] at never
  rw [fetchPage, fetchPage]
  cases here : file.pages[pageId]? with
  | none =>
    rw [here] at never
    exact absurd rfl never
  | some page =>
    have sameBuffer : file'.buffer pageId page = file.buffer pageId page := by
      funext offset
      rw [buffer, buffer, grows.1]
    simp only [grows.2 pageId page here, sameBuffer]

theorem getRootPageId_follows : Follows file.getRootPageId file'.getRootPageId beyondEndOfFile :=
  Follows.bind (fetchPage_follows grows _) fun _ _ => Follows.refl _ _

theorem searchRound_follows (key : Int) (cur : Nat) :
    Follows (file.searchRound key cur) (file'.searchRound key cur) beyondEndOfFile :=
  Follows.bind (fetchPage_follows grows cur) fun _ _ => Follows.refl _ _

theorem search_follows (key : Int) : Follows (file.search key) (file'.search key) beyondEndOfFile := by
  refine Follows.bind (getRootPageId_follows grows) fun root _ => ?_
  split
  · exact Follows.refl _ _
  · exact Follows.walk (searchRound_follows grows key) _ _

theorem descentRound_follows (place : Nat × Buffer) :
    Follows (file.descentRound place) (file'.descentRound place) beyondEndOfFile := by
  refine Follows.bind (Follows.refl _ _) fun type _ => ?_
  split
  · exact Follows.refl _ _
  · split
    · exact Follows.refl _ _
    · refine Follows.bind (Follows.refl _ _) fun node _ => Follows.bind (Follows.refl _ _) fun child _ => ?_
      exact Follows.bind (fetchPage_follows grows child) fun _ _ => Follows.refl _ _

theorem descent_follows (root : Nat) : Follows (file.descent root) (file'.descent root) beyondEndOfFile :=
  Follows.bind (fetchPage_follows grows root) fun _ _ => Follows.walk (descentRound_follows grows) _ _

theorem chainRound_follows (place : List (Int × RID) × Buffer) :
    Follows (file.chainRound place) (file'.chainRound place) beyondEndOfFile := by
  refine Follows.bind (Follows.refl _ _) fun leaf _ => ?_
  split
  · exact Follows.refl _ _
  · exact Follows.bind (fetchPage_follows grows _) fun _ _ => Follows.refl _ _

theorem rangeScanAll_follows : Follows file.rangeScanAll file'.rangeScanAll beyondEndOfFile := by
  refine Follows.bind (getRootPageId_follows grows) fun root _ => ?_
  split
  · exact Follows.refl _ _
  · exact Follows.bind (descent_follows grows root) fun _ _ => Follows.walk (chainRound_follows grows) _ _

end Grows

-- The count of the page is one that a page has room for.
def NodeFits (buffer : Buffer) : Prop :=
  if pageType buffer = kBTreeLeaf then keyCount buffer ≤ kLeafMaxKeys else keyCount buffer ≤ kInternalMaxKeys

section Rounds

variable {file : RawFile}

theorem within_pageType {β : Type} {buffer : Buffer} {next : Nat → Peek Exception β} :
    ((readPageType buffer).bind next).Within pageSize ↔ (next (pageType buffer)).Within pageSize := by
  rw [readPageType, Peek.within_bind_of_ok (peekAt_result ..), within_peekAt (by decide)]
  exact and_iff_right (by decide)

theorem within_orUndefined {α β : Type} {found : Option α} {next : α → Peek Exception β} {size : Nat}
    (after : ∀ a, (next a).Within size) : ((orUndefined found).bind next).Within size := by
  refine Peek.within_bind.mpr ⟨?_, fun a _ => after a⟩
  cases found <;> exact Peek.within_of_silent rfl size

theorem within_searchRound {key : Int} {cur : Nat} : (file.searchRound key cur).Within pageSize ↔
    ∀ page, file.pages[cur]? = some page → NodeFits (file.buffer cur page) := by
  rw [searchRound, Peek.bind_eq]
  cases stored : file.pages[cur]? with
  | none => simp [within_fetch_none stored]
  | some page =>
    simp only [Peek.bind_eq, within_fetch stored, within_pageType, Option.some.injEq, forall_eq', NodeFits]
    split
    · rw [Peek.within_bind, within_deserializeLeaf]
      exact and_iff_left fun _ _ => Peek.within_pure _ _
    · rw [Peek.within_bind, within_deserializeInternal]
      exact and_iff_left fun _ _ => within_orUndefined fun _ => Peek.within_pure _ _

theorem within_descentRound {place : Nat × Buffer} : (file.descentRound place).Within pageSize ↔
    (pageType place.2 ≠ kBTreeLeaf → place.1 ≤ kMaxTraversalSteps → keyCount place.2 ≤ kInternalMaxKeys) := by
  obtain ⟨h, buffer⟩ := place
  simp only [descentRound, Peek.bind_eq, within_pageType]
  by_cases leaf : pageType buffer = kBTreeLeaf
  · simp [leaf]
  · rw [if_neg leaf]
    by_cases deep : h > kMaxTraversalSteps
    · simp [deep, Nat.not_le.mpr deep]
    · rw [if_neg deep, Peek.within_bind, within_deserializeInternal]
      simp only [ne_eq, leaf, not_false_eq_true, true_implies, Nat.le_of_not_lt deep]
      refine and_iff_left fun _ _ => within_orUndefined fun child => ?_
      rw [Peek.within_bind]
      exact ⟨Peek.within_of_silent (fetchPage_silent child) _, fun _ _ => Peek.within_pure _ _⟩

theorem descentRound_stops {place found : Nat × Buffer} :
    (file.descentRound place).result = .ok (.inl found) ↔ found = place ∧ pageType place.2 = kBTreeLeaf := by
  obtain ⟨h, buffer⟩ := place
  simp only [descentRound, Peek.bind_eq, readPageType]
  rw [Peek.result_bind_of_ok (peekAt_result ..)]
  show (if pageType buffer = kBTreeLeaf then _ else _ : Peek Exception _).result = _ ↔ _
  by_cases leaf : pageType buffer = kBTreeLeaf
  · rw [if_pos leaf]
    simp [leaf, pure, eq_comm]
  · rw [if_neg leaf]
    simp only [leaf, and_false, iff_false]
    intro stopped
    split at stopped
    · cases stopped
    · obtain ⟨node, returned, -⟩ := deserializeInternal_returns buffer
      rw [Peek.result_bind_of_ok returned] at stopped
      cases children : node.children.head? with
      | none =>
        rw [children] at stopped
        cases stopped
      | some child =>
        rw [children, Peek.result_bind] at stopped
        simp only [orUndefined, pure, Except.bind, Peek.result_bind] at stopped
        cases fetched : (file.fetchPage child).result with
        | error e =>
          rw [fetched] at stopped
          cases stopped
        | ok next =>
          rw [fetched] at stopped
          cases stopped

theorem within_chainRound {place : List (Int × RID) × Buffer} : (file.chainRound place).Within pageSize ↔
    keyCount place.2 ≤ kLeafMaxKeys := by
  obtain ⟨out, buffer⟩ := place
  simp only [chainRound, Peek.bind_eq]
  rw [Peek.within_bind, within_deserializeLeaf]
  refine and_iff_left fun leaf _ => ?_
  split
  · exact Peek.within_pure _ _
  · rw [Peek.within_bind]
    exact ⟨Peek.within_of_silent (fetchPage_silent _) _, fun _ _ => Peek.within_pure _ _⟩

theorem never_searchRound (key : Int) (cur : Nat) : (file.searchRound key cur).Never .undefined := by
  refine (never_fetchPage cur).bind fun buffer _ => Peek.Never.bind (Peek.never_of_ok rfl _) fun type _ => ?_
  split
  · obtain ⟨leaf, returned⟩ := deserializeLeaf_returns buffer
    exact (Peek.never_of_ok returned _).bind fun _ _ => Peek.never_of_ok rfl _
  · obtain ⟨node, returned, aligned⟩ := deserializeInternal_returns buffer
    refine (Peek.never_of_ok returned _).bind fun other same => ?_
    cases returned.symm.trans same
    have inside : rawUpperBound node.keys key < node.children.length := by
      rw [aligned]
      exact Nat.lt_succ_of_le (rawUpperBound_le node.keys key)
    rw [List.getElem?_eq_getElem inside]
    exact Peek.never_of_ok rfl _

theorem never_descentRound (place : Nat × Buffer) : (file.descentRound place).Never .undefined := by
  obtain ⟨h, buffer⟩ := place
  refine Peek.Never.bind (Peek.never_of_ok rfl _) fun type _ => ?_
  split
  · exact Peek.never_of_ok rfl _
  split
  · exact fun same => by cases same
  · obtain ⟨node, returned, aligned⟩ := deserializeInternal_returns buffer
    refine (Peek.never_of_ok returned _).bind fun other same => ?_
    cases returned.symm.trans same
    cases children : node.children with
    | nil =>
      rw [children] at aligned
      cases aligned
    | cons child rest =>
      refine Peek.Never.bind (Peek.never_of_ok rfl _) fun first _ => ?_
      exact (never_fetchPage first).bind fun _ _ => Peek.never_of_ok rfl _

theorem never_chainRound (place : List (Int × RID) × Buffer) : (file.chainRound place).Never .undefined := by
  obtain ⟨out, buffer⟩ := place
  obtain ⟨leaf, returned⟩ := deserializeLeaf_returns buffer
  refine (Peek.never_of_ok returned _).bind fun leaf _ => ?_
  split
  · exact Peek.never_of_ok rfl _
  · exact (never_fetchPage _).bind fun _ _ => Peek.never_of_ok rfl _

theorem reads_orUndefined_le {α β : Type} {found : Option α} {next : α → Peek Exception β} {bound : Nat}
    (after : ∀ a, (next a).reads.length ≤ bound) : ((orUndefined found).bind next).reads.length ≤ bound := by
  cases found with
  | none => exact Nat.zero_le _
  | some a =>
    show ([] ++ (next a).reads).length ≤ bound
    exact after a

theorem reads_searchRound_le (key : Int) (cur : Nat) : (file.searchRound key cur).reads.length ≤ maxNodeReads := by
  refine reads_fetch_le (fun buffer => ?_) cur
  refine Nat.le_trans (Peek.reads_bind_le (n := 3 + 2 ^ 16 * 3 + 0) (Nat.le_refl 1) fun type _ => ?_) (by decide)
  split
  · exact Peek.reads_bind_le (reads_deserializeLeaf buffer) fun _ _ => Nat.le_refl 0
  · exact Peek.reads_bind_le (reads_deserializeInternal buffer) fun _ _ =>
      reads_orUndefined_le fun _ => Nat.le_refl 0

theorem reads_descentRound_le (place : Nat × Buffer) : (file.descentRound place).reads.length ≤ maxNodeReads := by
  obtain ⟨h, buffer⟩ := place
  refine Nat.le_trans (Peek.reads_bind_le (n := 3 + 2 ^ 16 * 3 + 0) (Nat.le_refl 1) fun type _ => ?_) (by decide)
  split
  · exact Nat.zero_le _
  split
  · exact Nat.zero_le _
  · exact Peek.reads_bind_le (reads_deserializeInternal buffer) fun _ _ =>
      reads_orUndefined_le fun child => reads_fetch_le (fun _ => Nat.le_refl 0) child

theorem reads_chainRound_le (place : List (Int × RID) × Buffer) :
    (file.chainRound place).reads.length ≤ maxNodeReads := by
  obtain ⟨out, buffer⟩ := place
  refine Nat.le_trans (Peek.reads_bind_le (n := 0) (reads_deserializeLeaf buffer) fun leaf _ => ?_) (by decide)
  split
  · exact Nat.le_refl 0
  · exact reads_fetch_le (fun _ => Nat.le_refl 0) _

end Rounds

-- The header page names this root.
def Rooted (file : RawFile) (root : Nat) : Prop :=
  root ≠ invalidPageId ∧ ∃ header, file.pages[kRootHeaderPageId]? = some header ∧
    root = uintAt (file.buffer kRootHeaderPageId header) kOffHeaderRootPageId 4

section Traversals

variable {file : RawFile}

theorem getRootPageId_ok {root : Nat} : file.getRootPageId.result = .ok root ↔
    ∃ header, file.pages[kRootHeaderPageId]? = some header ∧
      root = uintAt (file.buffer kRootHeaderPageId header) kOffHeaderRootPageId 4 := by
  rw [getRootPageId, Peek.bind_eq]
  cases stored : file.pages[kRootHeaderPageId]? with
  | none =>
    rw [fetchPage, stored]
    simp [Peek.bind, Peek.throw]
  | some header =>
    rw [Peek.result_bind_of_ok (fetchPage_result stored), peekAt_result]
    simp [eq_comm]

theorem within_getRootPageId : file.getRootPageId.Within pageSize := by
  refine Peek.within_bind.mpr ⟨Peek.within_of_silent (fetchPage_silent _) _, fun buffer _ => ?_⟩
  rw [within_peekAt (by decide)]
  decide

section Rooting

variable {α : Type} {empty : α} {rest : Nat → Peek Exception α}

theorem within_rooted :
    (file.getRootPageId.bind fun root => if root = invalidPageId then pure empty else rest root).Within pageSize ↔
      ∀ root, file.Rooted root → (rest root).Within pageSize := by
  rw [Peek.within_bind, and_iff_right within_getRootPageId]
  constructor
  · rintro all root ⟨valid, named⟩
    have here := all root (getRootPageId_ok.mpr named)
    rwa [if_neg valid] at here
  · intro all root named
    split
    · exact Peek.within_pure _ _
    · rename_i valid
      exact all root ⟨valid, getRootPageId_ok.mp named⟩

theorem never_rooted (never : ∀ root, (rest root).Never .undefined) :
    (file.getRootPageId.bind fun root => if root = invalidPageId then pure empty else rest root).Never .undefined := by
  refine Peek.Never.bind ((never_fetchPage _).bind fun _ _ => Peek.never_of_ok rfl _) fun root _ => ?_
  split
  · exact Peek.never_of_ok rfl _
  · exact never root

theorem reads_rooted_le {bound : Nat} (few : ∀ root, (rest root).reads.length ≤ bound) :
    (file.getRootPageId.bind fun root => if root = invalidPageId then pure empty else rest root).reads.length ≤
      1 + bound := by
  refine Peek.reads_bind_le (reads_fetch_le (fun _ => Nat.le_refl 1) _) fun root _ => ?_
  split
  · exact Nat.zero_le _
  · exact few root

end Rooting

theorem within_descent {root : Nat} : (file.descent root).Within pageSize ↔
    ∀ page, file.pages[root]? = some page → ∀ n < kMaxTraversalSteps + 1, ∀ place,
      Peek.Comes file.descentRound n (1, file.buffer root page) place → pageType place.2 ≠ kBTreeLeaf →
        place.1 ≤ kMaxTraversalSteps → keyCount place.2 ≤ kInternalMaxKeys := by
  rw [descent, Peek.bind_eq]
  cases stored : file.pages[root]? with
  | none => simp [within_fetch_none stored]
  | some page =>
    simp only [within_fetch stored, Peek.within_walk, within_descentRound, Option.some.injEq, forall_eq']

theorem descent_ok {root : Nat} {place : Nat × Buffer} : (file.descent root).result = .ok place ↔
    ∃ page, file.pages[root]? = some page ∧ ∃ n < kMaxTraversalSteps + 1,
      Peek.Comes file.descentRound n (1, file.buffer root page) place ∧ pageType place.2 = kBTreeLeaf := by
  rw [descent, Peek.bind_eq]
  cases stored : file.pages[root]? with
  | none =>
    rw [fetchPage, stored]
    simp [Peek.bind, Peek.throw]
  | some page =>
    rw [Peek.result_bind_of_ok (fetchPage_result stored), Peek.walk_result_ok]
    simp only [descentRound_stops, Option.some.injEq, exists_eq_left']
    constructor
    · rintro ⟨n, small, last, comes, rfl, leaf⟩
      exact ⟨n, small, comes, leaf⟩
    · rintro ⟨n, small, comes, leaf⟩
      exact ⟨n, small, place, comes, rfl, leaf⟩

theorem never_descent (root : Nat) : (file.descent root).Never .undefined :=
  (never_fetchPage root).bind fun _ _ => Peek.never_walk never_descentRound (by decide) _ _

theorem reads_descent_le (root : Nat) :
    (file.descent root).reads.length ≤ (kMaxTraversalSteps + 1) * maxNodeReads :=
  reads_fetch_le (fun _ => Peek.reads_walk_le reads_descentRound_le _ _) root

end Traversals

/-- The pages that Search for the key comes to. -/
def SearchFits (file : RawFile) (key : Int) : Prop :=
  ∀ root, file.Rooted root → ∀ n < kMaxTraversalSteps, ∀ cur, Peek.Comes (file.searchRound key) n root cur →
    ∀ page, file.pages[cur]? = some page → NodeFits (file.buffer cur page)

/-- The pages along the first children, down to the leftmost leaf, as far as they are looked into. -/
def DescentFits (file : RawFile) : Prop :=
  ∀ root, file.Rooted root → ∀ page, file.pages[root]? = some page → ∀ n < kMaxTraversalSteps + 1, ∀ place,
    Peek.Comes file.descentRound n (1, file.buffer root page) place → pageType place.2 ≠ kBTreeLeaf →
      place.1 ≤ kMaxTraversalSteps → keyCount place.2 ≤ kInternalMaxKeys

/-- The pages of the leaf chain, from the leftmost leaf on. -/
def ChainFits (file : RawFile) : Prop :=
  ∀ root, file.Rooted root → ∀ page, file.pages[root]? = some page → ∀ n < kMaxTraversalSteps + 1, ∀ leaf,
    Peek.Comes file.descentRound n (1, file.buffer root page) leaf → pageType leaf.2 = kBTreeLeaf →
      ∀ m < kMaxTraversalSteps, ∀ place, Peek.Comes file.chainRound m ([], leaf.2) place →
        keyCount place.2 ≤ kLeafMaxKeys

section Contained

variable {file : RawFile}

theorem search_contained_iff (key : Int) :
    Contained (file.search key) (1 + kMaxTraversalSteps * maxNodeReads) ↔ file.SearchFits key := by
  have few : (file.search key).reads.length ≤ 1 + kMaxTraversalSteps * maxNodeReads :=
    reads_rooted_le fun root => Peek.reads_walk_le (reads_searchRound_le key) _ root
  have never : (file.search key).Never .undefined :=
    never_rooted fun root => Peek.never_walk (never_searchRound key) (by decide) _ root
  rw [Contained, and_iff_right few, and_iff_right never, search, Peek.bind_eq, within_rooted, SearchFits]
  simp only [Peek.within_walk, within_searchRound]

theorem height_contained_iff :
    Contained file.height (1 + ((kMaxTraversalSteps + 1) * maxNodeReads + 0)) ↔ file.DescentFits := by
  have few : file.height.reads.length ≤ 1 + ((kMaxTraversalSteps + 1) * maxNodeReads + 0) :=
    reads_rooted_le fun root => Peek.reads_bind_le (reads_descent_le root) fun _ _ => Nat.le_refl 0
  have never : file.height.Never .undefined :=
    never_rooted fun root => (never_descent root).bind fun _ _ => Peek.never_of_ok rfl _
  rw [Contained, and_iff_right few, and_iff_right never, height, Peek.bind_eq, within_rooted, DescentFits]
  simp only [Peek.bind_eq, Peek.within_bind, within_descent, Peek.within_pure, implies_true, and_true]

theorem rangeScanAll_contained_iff :
    Contained file.rangeScanAll
      (1 + ((kMaxTraversalSteps + 1) * maxNodeReads + kMaxTraversalSteps * maxNodeReads)) ↔
      file.DescentFits ∧ file.ChainFits := by
  have few : file.rangeScanAll.reads.length ≤
      1 + ((kMaxTraversalSteps + 1) * maxNodeReads + kMaxTraversalSteps * maxNodeReads) :=
    reads_rooted_le fun root => Peek.reads_bind_le (reads_descent_le root) fun _ _ =>
      Peek.reads_walk_le reads_chainRound_le _ _
  have never : file.rangeScanAll.Never .undefined :=
    never_rooted fun root => (never_descent root).bind fun _ _ => Peek.never_walk never_chainRound (by decide) _ _
  rw [Contained, and_iff_right few, and_iff_right never, rangeScanAll, Peek.bind_eq, within_rooted]
  simp only [Peek.bind_eq, Peek.within_bind, within_descent, Peek.within_walk, within_chainRound]
  constructor
  · intro all
    refine ⟨fun root rooted => (all root rooted).1, fun root rooted page stored n small leaf comes isLeaf => ?_⟩
    exact (all root rooted).2 leaf (descent_ok.mpr ⟨page, stored, n, small, comes, isLeaf⟩)
  · rintro ⟨down, chain⟩ root rooted
    refine ⟨down root rooted, fun leaf reached => ?_⟩
    obtain ⟨page, stored, n, small, comes, isLeaf⟩ := descent_ok.mp reached
    exact chain root rooted page stored n small leaf comes isLeaf

end Contained

/-- Whatever the bytes, each traversal ends, and its reads are inside the pages exactly if no page or slot it comes to
claims to hold more than a page does. -/
theorem corrupted_pages_contained_iff (file : RawFile) :
    (∀ key, Contained (file.search key) (1 + kMaxTraversalSteps * maxNodeReads) ↔ file.SearchFits key) ∧
      (Contained file.height (1 + ((kMaxTraversalSteps + 1) * maxNodeReads + 0)) ↔ file.DescentFits) ∧
      (Contained file.rangeScanAll
          (1 + ((kMaxTraversalSteps + 1) * maxNodeReads + kMaxTraversalSteps * maxNodeReads)) ↔
        file.DescentFits ∧ file.ChainFits) ∧
      (Contained file.heapScan (file.pages.length * (1 + 2 ^ 16 * 5)) ↔ file.ScanFits) ∧
      (∀ rid, Contained (file.heapGetRow rid) (1 + 5) ↔ file.GetRowFits rid) ∧
      ∀ pred, Contained (file.heapFind pred) (file.pages.length * (1 + 2 ^ 16 * 5)) ↔ file.FindFits pred := by
  refine ⟨search_contained_iff, height_contained_iff, rangeScanAll_contained_iff, ?_, fun rid => ?_, fun pred => ?_⟩
  · rw [Contained, and_iff_right reads_heapScan_le, and_iff_right never_heapScan]
    exact within_heapScan
  · rw [Contained, and_iff_right (reads_heapGetRow_le rid), and_iff_right (never_heapGetRow rid)]
    exact within_heapGetRow rid
  · rw [Contained, and_iff_right (reads_heapFind_le pred), and_iff_right (never_heapFind pred)]
    exact within_heapFind pred

/-- A header page that names page 1, and a leaf there that claims one entry more than a page can hold. -/
def overcountedLeaf : RawFile where
  pages := [PageImage.ofBytes (List.replicate 16 0 ++ [1, 0, 0, 0]), PageImage.ofBytes [1, 0, 0, 0, 2, 0, 36, 1]]

/-- Search reads past the end of the leaf. -/
theorem search_reads_past_page : ¬ (overcountedLeaf.search 0).Within pageSize := by
  have rooted : overcountedLeaf.Rooted 1 := ⟨by decide, _, rfl, by decide⟩
  rw [search, Peek.bind_eq, within_rooted]
  intro all
  have here := Peek.within_walk.mp (all 1 rooted) 0 (by decide) 1 (.here 1)
  have fits := within_searchRound.mp here _ rfl
  revert fits
  rw [NodeFits, if_pos (by decide)]
  decide

end RawFile

end FlintDB
