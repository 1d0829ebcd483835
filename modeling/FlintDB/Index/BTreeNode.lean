import FlintDB.Common.Config
import FlintDB.Lib.Routing

set_option autoImplicit false

-- What btree.cpp does to one node, or to two neighbours under one parent. An internal node is generic in its
-- children: page ids in the file, subtrees in the proofs.

namespace FlintDB

open Lib

def kBTreeHeaderSize : Nat := 16

-- int64 key, then a RID of a u32 page id and a u16 slot
def kLeafEntrySize : Nat := 8 + 4 + 2
def kInternalKeySize : Nat := 8
def kInternalChildSize : Nat := 4

def kMaxTraversalSteps : Nat := 10000

def kLeafMaxKeys : Nat := (pageSize - kBTreeHeaderSize) / kLeafEntrySize
def kLeafMinKeys : Nat := kLeafMaxKeys / 2
def kInternalMaxKeys : Nat :=
  (pageSize - kBTreeHeaderSize - kInternalChildSize) / (kInternalKeySize + kInternalChildSize)
def kInternalMinKeys : Nat := kInternalMaxKeys / 2

theorem kLeafMaxKeys_eq : kLeafMaxKeys = 291 := rfl
theorem kLeafMinKeys_eq : kLeafMinKeys = 145 := rfl
theorem kInternalMaxKeys_eq : kInternalMaxKeys = 339 := rfl
theorem kInternalMinKeys_eq : kInternalMinKeys = 169 := rfl

-- keys[i] and values[i] always move together, so an entry is the pair.
structure LeafNode where
  pageId : Nat := invalidPageId
  nextLeaf : Nat := invalidPageId
  entries : List (Int × RID) := []
  deriving DecidableEq

structure InternalNode (C : Type) where
  pageId : Nat := invalidPageId
  keys : List Int := []
  children : List C := []
  deriving DecidableEq

def isBoundary (keys : List Int) (i : Nat) : Bool := keys[i]? ≠ keys[i - 1]?

/-- Forward from `naiveMid` first, then backward down to 1. -/
def findSplitBoundary (keys : List Int) (naiveMid : Nat) : Nat :=
  match (List.range' naiveMid (keys.length - naiveMid)).find? (isBoundary keys) with
  | some i => i
  | none =>
    match (List.range' 1 naiveMid).reverse.find? (isBoundary keys) with
    | some i => i
    | none => naiveMid

-- The loop over `offset`; it stops once neither end is in range.
def searchOutward (keys : List Int) (minSplit maxSplit ideal : Nat) : Nat → Nat → Option Nat
  | 0, _ => none
  | fuel + 1, offset =>
    if ideal + offset ≤ maxSplit ∧ isBoundary keys (ideal + offset) then some (ideal + offset)
    else if offset ≤ ideal - minSplit ∧ isBoundary keys (ideal - offset) then some (ideal - offset)
    else if ideal + offset ≤ maxSplit ∨ offset ≤ ideal - minSplit then
      searchOutward keys minSplit maxSplit ideal fuel (offset + 1)
    else none

def clamp (value low high : Nat) : Nat := if value < low then low else if high < value then high else value

def findRebalanceSplit (keys : List Int) (minSplit maxSplit ideal : Nat) : Option Nat :=
  let ideal := if ideal < minSplit then minSplit else ideal
  let ideal := if maxSplit < ideal then maxSplit else ideal
  if isBoundary keys ideal then some ideal
  else searchOutward keys minSplit maxSplit ideal (maxSplit + 1) 1

theorem findSplitBoundary_isBoundary {keys : List Int} {mid place : Nat} (positive : 0 < mid)
    (within : mid < keys.length) (place_pos : 0 < place) (place_lt : place < keys.length)
    (boundary : isBoundary keys place) :
    0 < findSplitBoundary keys mid ∧ findSplitBoundary keys mid < keys.length ∧
      isBoundary keys (findSplitBoundary keys mid) := by
  unfold findSplitBoundary
  split
  · rename_i i found
    have member := List.mem_range'_1.mp (List.mem_of_find?_eq_some found)
    exact ⟨by omega, by omega, List.find?_some found⟩
  · rename_i noneForward
    split
    · rename_i i found
      have member := List.mem_of_find?_eq_some found
      rw [List.mem_reverse, List.mem_range'_1] at member
      exact ⟨by omega, by omega, List.find?_some found⟩
    · -- neither sweep met the boundary, and one of them passes it
      rename_i noneBackward
      exfalso
      rw [List.find?_eq_none] at noneForward noneBackward
      by_cases forward : mid ≤ place
      · exact noneForward place (List.mem_range'_1.mpr (by omega)) boundary
      · refine noneBackward place ?_ boundary
        rw [List.mem_reverse, List.mem_range'_1]
        omega

theorem findSplitBoundary_of_isBoundary {keys : List Int} {mid : Nat} (within : mid < keys.length)
    (boundary : isBoundary keys mid) : findSplitBoundary keys mid = mid := by
  obtain ⟨rest, length_eq⟩ : ∃ rest, keys.length - mid = rest + 1 := ⟨keys.length - mid - 1, by omega⟩
  simp [findSplitBoundary, length_eq, List.range'_succ, boundary]

theorem findSplitBoundary_of_none {keys : List Int} {mid : Nat} (positive : 0 < mid) (within : mid < keys.length)
    (noBoundary : ∀ i, 0 < i → i < keys.length → ¬ isBoundary keys i) : findSplitBoundary keys mid = mid := by
  have forward : (List.range' mid (keys.length - mid)).find? (isBoundary keys) = none := by
    refine List.find?_eq_none.mpr fun i member => ?_
    have range := List.mem_range'_1.mp member
    exact noBoundary i (by omega) (by omega)
  have backward : (List.range' 1 mid).reverse.find? (isBoundary keys) = none := by
    refine List.find?_eq_none.mpr fun i member => ?_
    rw [List.mem_reverse, List.mem_range'_1] at member
    exact noBoundary i (by omega) (by omega)
  rw [findSplitBoundary, forward, backward]

theorem searchOutward_isBoundary {keys : List Int} {minSplit maxSplit ideal place : Nat}
    (above : minSplit ≤ place) (below : place ≤ maxSplit) (boundary : isBoundary keys place) {fuel offset : Nat}
    (away : ideal + offset ≤ place ∨ place + offset ≤ ideal) (clamped : minSplit ≤ ideal ∧ ideal ≤ maxSplit)
    (enough : maxSplit < offset + fuel) :
    ∃ found, searchOutward keys minSplit maxSplit ideal fuel offset = some found ∧
      minSplit ≤ found ∧ found ≤ maxSplit ∧ isBoundary keys found := by
  induction fuel generalizing offset with
  | zero => omega
  | succ fuel ih =>
    rw [searchOutward]
    split
    · rename_i up
      exact ⟨_, rfl, by omega, up.1, up.2⟩
    · split
      · rename_i down
        exact ⟨_, rfl, by omega, by omega, down.2⟩
      · rename_i notUp notDown
        rw [if_pos (by omega)]
        refine ih ?_ (by omega)
        -- the boundary is not at this offset, so it lies further out
        rcases away with up | down
        · have later : ideal + offset ≠ place := fun same => notUp ⟨by omega, same ▸ boundary⟩
          omega
        · have later : ideal - offset ≠ place := fun same => notDown ⟨by omega, same ▸ boundary⟩
          omega

theorem findRebalanceSplit_isBoundary {keys : List Int} {minSplit maxSplit place : Nat} (ideal : Nat)
    (above : minSplit ≤ place) (below : place ≤ maxSplit) (boundary : isBoundary keys place) :
    ∃ found, findRebalanceSplit keys minSplit maxSplit ideal = some found ∧
      minSplit ≤ found ∧ found ≤ maxSplit ∧ isBoundary keys found := by
  simp only [findRebalanceSplit]
  generalize clamped : (if maxSplit < if ideal < minSplit then minSplit else ideal then maxSplit
    else if ideal < minSplit then minSplit else ideal) = center
  have inRange : minSplit ≤ center ∧ center ≤ maxSplit := by
    constructor <;> (split at clamped <;> split at clamped <;> omega)
  split
  · rename_i here
    exact ⟨center, rfl, inRange.1, inRange.2, here⟩
  · rename_i notHere
    have elsewhere : center ≠ place := fun same => notHere (same ▸ boundary)
    exact searchOutward_isBoundary above below boundary (by omega) inRange (by omega)

theorem lt_of_isBoundary {keys : List Int} (sorted : keys.Pairwise (· ≤ ·)) {i : Nat} (positive : 0 < i)
    (boundary : isBoundary keys i) {next : Int} (here : keys[i]? = some next) :
    ∀ key ∈ keys.take i, key < next := by
  obtain ⟨within, rfl⟩ := List.getElem?_eq_some_iff.mp here
  intro key member
  obtain ⟨j, isLess, rfl⟩ := List.mem_take_iff_getElem.mp member
  have before : keys[i - 1] ≤ keys[i] := List.pairwise_iff_getElem.mp sorted _ _ _ _ (by omega)
  have different : keys[i - 1] ≠ keys[i] := by
    intro same
    simp only [isBoundary, here, List.getElem?_eq_getElem (by omega : i - 1 < keys.length), same,
      ne_eq, not_true_eq_false, decide_false, Bool.false_eq_true] at boundary
  have upTo : keys[j] ≤ keys[i - 1] := by
    by_cases last : j = i - 1
    · simp [last]
    · exact List.pairwise_iff_getElem.mp sorted _ _ _ _ (by omega)
  omega

theorem eq_of_no_boundary {keys : List Int} (noBoundary : ∀ i, 0 < i → i < keys.length → ¬isBoundary keys i)
    {i : Nat} (within : i < keys.length) : keys[i]? = keys[0]? := by
  induction i with
  | zero => rfl
  | succ i ih =>
    have same := noBoundary (i + 1) (by omega) within
    simp only [isBoundary, Nat.add_sub_cancel, ne_eq, decide_not, Bool.not_eq_true', decide_eq_false_iff_not,
      Decidable.not_not] at same
    rw [same, ih (by omega)]

namespace LeafNode

def keys (leaf : LeafNode) : List Int := leaf.entries.map Prod.fst

def insert (leaf : LeafNode) (key : Int) (rid : RID) : LeafNode :=
  { leaf with entries := leaf.entries.insertIdx (upperBound leaf.keys key) (key, rid) }

-- The left half, the copied-up separator and the right half.
-- The left half, the pushed-up key and the right half.
def split (leaf : LeafNode) (mid rightPid : Nat) : LeafNode × Int × LeafNode :=
  ({ leaf with entries := leaf.entries.take mid, nextLeaf := rightPid },
    -- front() of a half that is never empty
    (leaf.keys.drop mid).headD 0,
    { pageId := rightPid, nextLeaf := leaf.nextLeaf, entries := leaf.entries.drop mid })

/-- The first occurrence of the pair. -/
def position (leaf : LeafNode) (key : Int) (rid : RID) : Option Nat :=
  leaf.entries.findIdx? fun entry => entry.1 = key ∧ entry.2 = rid

def erase (leaf : LeafNode) (pos : Nat) : LeafNode :=
  { leaf with entries := leaf.entries.eraseIdx pos }

end LeafNode

namespace InternalNode

variable {C D : Type}

def map (f : C → D) (node : InternalNode C) : InternalNode D :=
  { pageId := node.pageId, keys := node.keys, children := node.children.map f }

def insertChild (node : InternalNode C) (idx : Nat) (key : Int) (child : C) : InternalNode C :=
  { node with keys := node.keys.insertIdx idx key, children := node.children.insertIdx (idx + 1) child }

def split (node : InternalNode C) (mid rightPid : Nat) : InternalNode C × Int × InternalNode C :=
  ({ node with keys := node.keys.take mid, children := node.children.take (mid + 1) },
    node.keys.getD mid 0,
    { pageId := rightPid, keys := node.keys.drop (mid + 1), children := node.children.drop (mid + 1) })

end InternalNode

-- What FixUnderflow leaves of two neighbours: one node, or two with a new separator.
inductive Mended (N : Type)
  | merged (node : N)
  | shifted (left : N) (key : Int) (right : N)

namespace Mended

variable {M N C : Type}

def map (f : M → N) : Mended M → Mended N
  | merged node => merged (f node)
  | shifted left key right => shifted (f left) key (f right)

def adjust (parent : InternalNode C) (pos : Nat) : Mended N → InternalNode C
  | merged _ =>
    { parent with keys := parent.keys.eraseIdx pos, children := parent.children.eraseIdx (pos + 1) }
  | shifted _ key _ => { parent with keys := parent.keys.set pos key }

end Mended

-- Merge where the entries fit in one page, else cut them anew at a change of value.
def mendLeaves (left right : LeafNode) (ideal : Nat) : Mended LeafNode :=
  let combined := left.entries ++ right.entries
  if combined.length ≤ kLeafMaxKeys then
    .merged { left with entries := combined, nextLeaf := right.nextLeaf }
  else
    let keys := combined.map Prod.fst
    let minSplit := combined.length - kLeafMaxKeys
    let maxSplit := kLeafMaxKeys
    let splitAt := (findRebalanceSplit keys minSplit maxSplit ideal).getD (clamp ideal minSplit maxSplit)
    .shifted { left with entries := combined.take splitAt } ((keys.drop splitAt).headD 0)
      { right with entries := combined.drop splitAt }

namespace InternalNode

variable {C D : Type}

def merge (left : InternalNode D) (separator : Int) (right : InternalNode D) : InternalNode D :=
  { left with
    keys := left.keys ++ separator :: right.keys, children := left.children ++ right.children }

-- `none` is back() or front() of an empty vector.
def borrowFromLeft (left : InternalNode D) (demoted : Int) (child : InternalNode D) :
    Option (Mended (InternalNode D)) := do
  let movedChild ← left.children.getLast?
  let promoted ← left.keys.getLast?
  return .shifted { left with keys := left.keys.dropLast, children := left.children.dropLast } promoted
    { child with keys := demoted :: child.keys, children := movedChild :: child.children }

def borrowFromRight (child : InternalNode D) (demoted : Int) (right : InternalNode D) :
    Option (Mended (InternalNode D)) := do
  let movedChild ← right.children.head?
  let promoted ← right.keys.head?
  return .shifted
    { child with keys := child.keys ++ [demoted], children := child.children ++ [movedChild] } promoted
    { right with keys := right.keys.tail, children := right.children.tail }

end InternalNode

section FixUnderflow

variable {C D : Type}

/-- FixUnderflow for a leaf child: the position of the left one of the two neighbours, and what becomes
of them. `none` is a sibling that is not there. -/
def fixLeaf (read : C → Option LeafNode) (parent : InternalNode C) (idx : Nat) :
    Option (Nat × Mended LeafNode) := do
  let child ← parent.children[idx]?.bind read
  if 0 < idx then
    let left ← parent.children[idx - 1]?.bind read
    return (idx - 1,
      mendLeaves left child (left.entries.length + child.entries.length - kLeafMinKeys))
  else
    let right ← parent.children[idx + 1]?.bind read
    return (idx, mendLeaves child right kLeafMinKeys)

def canLend (read : C → Option (InternalNode D)) (parent : InternalNode C) (pos : Nat) : Bool :=
  match parent.children[pos]?.bind read with
  | some sibling => kInternalMinKeys < sibling.keys.length
  | none => false

-- FixUnderflow for an internal child.
def fixInternal (read : C → Option (InternalNode D)) (parent : InternalNode C) (idx : Nat) :
    Option (Nat × Mended (InternalNode D)) := do
  let child ← parent.children[idx]?.bind read
  if 0 < idx ∧ canLend read parent (idx - 1) then
    let left ← parent.children[idx - 1]?.bind read
    let separator ← parent.keys[idx - 1]?
    return (idx - 1, ← left.borrowFromLeft separator child)
  else if idx + 1 < parent.children.length ∧ canLend read parent (idx + 1) then
    let right ← parent.children[idx + 1]?.bind read
    let separator ← parent.keys[idx]?
    return (idx, ← child.borrowFromRight separator right)
  else if 0 < idx then
    let left ← parent.children[idx - 1]?.bind read
    let separator ← parent.keys[idx - 1]?
    return (idx - 1, .merged (left.merge separator child))
  else
    let right ← parent.children[idx + 1]?.bind read
    let separator ← parent.keys[idx]?
    return (idx, .merged (child.merge separator right))

end FixUnderflow

end FlintDB
