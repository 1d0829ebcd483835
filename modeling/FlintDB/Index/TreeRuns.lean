import FlintDB.Index.TreeShape

set_option autoImplicit false

-- Under a key that more entries share than a leaf has room for, Search and Delete no longer find them all. What has
-- been inserted is still in the leaves, and the chain still lists it, if it is not too long for RangeScanAll.

namespace FlintDB

open Lib FlintDB.Tree Fallible

namespace BPlusTree

variable {key : Int} {rid : RID} {s : BPlusTree} {h : Nat}

theorem leftmostLeaf_exceeded {least inner : Nat} {tree : Tree h} (held : Held s.pages h tree)
    (branching : Branching least inner h tree) {steps : Nat} (few : steps < h) :
    s.leftmostLeaf steps (pageId h tree) = .error .traversalStepsExceeded := by
  induction h generalizing least steps with
  | zero => exact absurd few (Nat.not_lt_zero _)
  | succ h ih =>
    have stored : s.pages (pageId (h + 1) tree) = some (.internal (tree.map (pageId h))) := held.1
    cases steps with
    | zero => rw [leftmostLeaf, stored]
    | succ steps =>
      obtain ⟨first, others, children_eq⟩ := branching.first
      have member : first ∈ tree.children := by simp [children_eq]
      have below := ih (held.2 first member) (branching.2.2 first member) (by omega : steps < h)
      rw [leftmostLeaf, stored]
      simpa [InternalNode.map, children_eq] using below

theorem walkChain_exceeded {leaf : LeafNode} {rest : List LeafNode} {steps : Nat}
    (linked : Linked LeafNode.pageId LeafNode.nextLeaf invalidPageId (leaf :: rest))
    (stored : ∀ other ∈ rest, s.pages other.pageId = some (.leaf other))
    (valid : ∀ other ∈ rest, other.pageId ≠ invalidPageId) (few : steps ≤ rest.length) :
    s.walkChain steps leaf = .error .traversalStepsExceeded := by
  induction rest generalizing leaf steps with
  | nil =>
    obtain rfl := Nat.le_zero.mp few
    rfl
  | cons next rest ih =>
    cases steps with
    | zero => rfl
    | succ steps =>
      have isNext : leaf.nextLeaf = next.pageId := linked.1
      have readable : s.readLeaf leaf.nextLeaf = some next := by
        rw [isNext, readLeaf, stored next List.mem_cons_self]
      have onward := ih linked.2 (fun other member => stored other (List.mem_cons_of_mem _ member))
        (fun other member => valid other (List.mem_cons_of_mem _ member)) (by simpa using few)
      rw [walkChain, if_neg (by rw [isNext]; exact valid next List.mem_cons_self), readable]
      simp only [onward]
      rfl

namespace Skeleton

variable {tree : Tree h} (skeleton : s.Skeleton tree) {least inner : Nat} (branching : Branching least inner h tree)
  (room : s.allocated < invalidPageId)
include skeleton branching room

theorem rangeScan (limit : Nat) : s.rangeScan limit =
    if h ≤ limit ∧ (leaves h tree).length ≤ limit then .ok (entries tree) else .error .traversalStepsExceeded := by
  rw [BPlusTree.rangeScan, if_neg (skeleton.root_ne room), skeleton.root]
  by_cases shallow : h ≤ limit
  · obtain ⟨leaf, rest, found, leaves_eq⟩ := leftmostLeaf_held skeleton.held branching shallow
    have onPages := leaves_held skeleton.held
    have linked := skeleton.linked
    rw [leaves_eq] at onPages linked
    have stored : ∀ other ∈ rest, s.pages other.pageId = some (.leaf other) :=
      fun other member => (onPages other (List.mem_cons_of_mem _ member)).1
    have valid : ∀ other ∈ rest, other.pageId ≠ invalidPageId := fun other member => by
      have inFile := (skeleton.inFile _ (onPages other (List.mem_cons_of_mem _ member)).2).2
      omega
    simp only [found, leaves_eq, shallow, true_and, List.length_cons]
    by_cases short : rest.length + 1 ≤ limit
    · rw [if_pos short, entries, leaves_eq]
      exact walkChain_linked limit linked stored valid short
    · rw [if_neg short]
      exact walkChain_exceeded linked stored valid (by omega)
  · rw [leftmostLeaf_exceeded skeleton.held branching (Nat.not_le.mp shallow), if_neg fun both => shallow both.1]
    rfl

end Skeleton

-- Levels above the leftmost leaf.
def levelsFrom (tree : BPlusTree) : Nat → Nat → Nat
  | 0, _ => 0
  | fuel + 1, pageId =>
    match (tree.childPages pageId).head? with
    | some child => tree.levelsFrom fuel child + 1
    | none => 0

def levels (tree : BPlusTree) : Nat :=
  if tree.rootPageId = invalidPageId then 0 else tree.levelsFrom tree.allocated tree.rootPageId

def leafCount (tree : BPlusTree) : Nat :=
  if tree.rootPageId = invalidPageId then 0 else (tree.leavesBelow tree.levels tree.rootPageId).length

theorem levelsFrom_held {least inner : Nat} {tree : Tree h} (held : Held s.pages h tree)
    (branching : Branching least inner h tree) {fuel : Nat} (enough : h < fuel) :
    s.levelsFrom fuel (pageId h tree) = h := by
  induction h generalizing least fuel with
  | zero =>
    obtain ⟨fuel, rfl⟩ : ∃ rest, fuel = rest + 1 := ⟨fuel - 1, by omega⟩
    have stored : s.pages (pageId 0 tree) = some (.leaf tree) := held
    simp [levelsFrom, childPages, readInternal, stored]
  | succ h ih =>
    obtain ⟨fuel, rfl⟩ : ∃ rest, fuel = rest + 1 := ⟨fuel - 1, by omega⟩
    obtain ⟨first, others, children_eq⟩ := branching.first
    have member : first ∈ tree.children := by simp [children_eq]
    have below := ih (held.2 first member) (branching.2.2 first member) (by omega : h < fuel)
    rw [levelsFrom, childPages_held held]
    simp only [children_eq, List.map_cons, List.head?_cons, below]

theorem Skeleton.size {tree : Tree h} (skeleton : s.Skeleton tree) {least inner : Nat}
    (branching : Branching least inner h tree) (room : s.allocated < invalidPageId) :
    s.levels = h ∧ s.leafCount = (leaves h tree).length := by
  have height : s.levels = h := by
    rw [levels, if_neg (skeleton.root_ne room), skeleton.root]
    exact levelsFrom_held skeleton.held branching (skeleton.height_lt branching)
  refine ⟨height, ?_⟩
  rw [leafCount, if_neg (skeleton.root_ne room), height, skeleton.root, leavesBelow_held skeleton.held, List.length_map]

structure Stands (inner : Nat) (s : BPlusTree) (stored : List (Int × RID)) : Prop where
  header : 0 < s.allocated
  room : s.allocated < invalidPageId
  shape : (s.rootPageId = invalidPageId ∧ stored = []) ∨
    ∃ (h : Nat) (tree : Tree h), s.Skeleton tree ∧ Branching inner inner h tree ∧ (entries tree).Perm stored

theorem stands_empty (inner : Nat) : ({} : BPlusTree).Stands inner [] := ⟨by decide, by decide, .inl ⟨rfl, rfl⟩⟩

theorem Collapses.stands {inner : Nat} {tree : Tree h} {stored : List (Int × RID)} (collapses : s.Collapses h tree)
    (header : 0 < s.allocated) (room : s.allocated < invalidPageId) (small : inner ≤ 1)
    (branching : Branching (inner - 1) inner h tree) (stores : (entries tree).Perm stored) : s.Stands inner stored := by
  refine ⟨header, room, ?_⟩
  cases h with
  | zero =>
    rcases collapses with ⟨empty, root⟩ | ⟨-, skeleton⟩
    · have none : LeafNode.entries tree = [] := List.map_eq_nil_iff.mp empty
      rw [entries_leaf, none] at stores
      exact .inl ⟨root, stores.symm.eq_nil⟩
    · exact .inr ⟨0, tree, skeleton, trivial, stores⟩
  | succ h =>
    obtain ⟨length, -, below⟩ := branching
    rcases collapses with ⟨only, children_eq, skeleton⟩ | ⟨several, skeleton⟩
    · exact .inr ⟨h, only, skeleton, below only (by simp [children_eq]), by simpa [children_eq] using stores⟩
    · refine .inr ⟨h + 1, tree, skeleton, ⟨length, ?_, below⟩, stores⟩
      rcases Nat.eq_zero_or_pos tree.keys.length with bare | positive
      · rw [bare] at length
        obtain ⟨only, children_eq⟩ := List.length_eq_one_iff.mp length
        exact absurd children_eq (several only)
      · omega

theorem Stands.insert {inner : Nat} {stored : List (Int × RID)} (stands : s.Stands inner stored) (small : inner ≤ 1)
    (even : inner = 1 → ∀ (h : Nat) (tree : Tree h), s.Skeleton tree → Branching inner inner h tree →
      ¬ SplitsAtLast key rid h tree s.allocated) :
    ∃ s', (insert key rid).exec s = (.ok (), s') ∧
      (s'.allocated < invalidPageId → s'.Stands inner ((key, rid) :: stored)) := by
  rcases stands.shape with ⟨empty, rfl⟩ | ⟨h, tree, skeleton, branching, perm⟩
  · obtain ⟨s', leaf, done, allocated, entries_eq, skeleton⟩ := insert_empty key rid stands.header empty
    refine ⟨s', done, fun room => ⟨by omega, room, .inr ⟨0, leaf, skeleton room, trivial, ?_⟩⟩⟩
    rw [entries_leaf, entries_eq]
  · obtain ⟨result, inserted⟩ := insert_exists key rid s.allocated branching
    obtain ⟨s', done, le, -, after⟩ := skeleton.insert branching stands.room inserted
    have halves := insert_branching branching inserted small fun isOne => even isOne h tree skeleton branching
    have stores := (insert_entries inserted).trans (perm.cons (key, rid))
    have header := stands.header
    have grown := insert_allocated_le inserted
    refine ⟨s', done, fun room => ⟨by omega, room, .inr ?_⟩⟩
    obtain ⟨kept, doubled⟩ := after room
    cases split : result.split with
    | none =>
      refine ⟨h, result.tree, kept split, halves.1 split, ?_⟩
      simpa [Inserted.trees, split] using stores
    | some halvesOf =>
      obtain ⟨splitKey, right⟩ := halvesOf
      obtain ⟨root, skeleton, keys_eq, children_eq⟩ := doubled splitKey right split
      have both := halves.2 (by simp [split])
      simp only [Inserted.trees, split, Option.toList_some, List.map_cons, List.map_nil] at both
      refine ⟨h + 1, root, skeleton, ⟨by simp [keys_eq, children_eq], by simpa [keys_eq] using small, ?_⟩, ?_⟩
      · rw [children_eq]
        exact both
      · simpa [Inserted.trees, split, entries, leaves, children_eq] using stores

theorem Stands.insert_any {stored : List (Int × RID)} (stands : s.Stands 0 stored) (key : Int) (rid : RID) :
    ∃ s', (BPlusTree.insert key rid).exec s = (.ok (), s') ∧
      (s'.allocated < invalidPageId → s'.Stands 0 ((key, rid) :: stored)) :=
  stands.insert (Nat.zero_le 1) fun isOne => (nomatch isOne)

theorem Stands.delete {inner : Nat} {stored : List (Int × RID)} (stands : s.Stands inner stored) (small : inner ≤ 1)
    (key : Int) (rid : RID) :
    (inner = 0 ∧ ∃ s', (delete key rid).exec s = (.error .undefined, s')) ∨
      (delete key rid).exec s = (.ok false, s) ∨
      ∃ s', (delete key rid).exec s = (.ok true, s') ∧ s'.allocated = s.allocated ∧
        s'.Stands inner (stored.erase (key, rid)) := by
  rcases stands.shape with ⟨empty, rfl⟩ | ⟨h, tree, skeleton, branching, perm⟩
  · refine .inr (.inl ?_)
    rw [BPlusTree.delete, exec_bind_ok (exec_get s)]
    simp [empty]
  · rcases deleted : Tree.delete key rid h tree true with _ | _ | ⟨tree', underflow⟩
    · refine .inl ⟨?_, skeleton.delete_undefined branching stands.room deleted⟩
      rcases Nat.eq_zero_or_pos inner with isZero | positive
      · exact isZero
      · obtain rfl : inner = 1 := by omega
        obtain ⟨result, exists_⟩ := delete_exists key rid true branching
        rw [deleted] at exists_
        cases exists_
    · exact .inr (.inl (skeleton.delete_absent branching stands.room deleted))
    · obtain ⟨s', done, allocated, collapses⟩ := skeleton.delete_present branching stands.room deleted
      have removes : (entries tree').Perm (stored.erase (key, rid)) := by
        have erased := ((delete_entries deleted).1.symm.trans perm).erase (key, rid)
        rwa [List.erase_cons_head] at erased
      refine .inr (.inr ⟨s', done, allocated, ?_⟩)
      exact collapses.stands (by rw [allocated]; exact stands.header) (by rw [allocated]; exact stands.room) small
        (delete_branching deleted small branching) removes

theorem Stands.rangeScanAll {inner : Nat} {stored : List (Int × RID)} (stands : s.Stands inner stored) :
    (s.leafCount ≤ kMaxTraversalSteps ∧ s.levels ≤ kMaxTraversalSteps ∧
        ∃ listed, s.rangeScanAll = .ok listed ∧ listed.Perm stored) ∨
      (¬ (s.leafCount ≤ kMaxTraversalSteps ∧ s.levels ≤ kMaxTraversalSteps) ∧
        s.rangeScanAll = .error .traversalStepsExceeded) := by
  rcases stands.shape with ⟨empty, rfl⟩ | ⟨h, tree, skeleton, branching, perm⟩
  · refine .inl ⟨?_, ?_, [], ?_, List.Perm.refl _⟩
    · simp [leafCount, empty]
    · simp [levels, empty]
    · simp [BPlusTree.rangeScanAll, rangeScan, empty]
  · obtain ⟨levels_eq, leafCount_eq⟩ := skeleton.size branching stands.room
    have scanned := skeleton.rangeScan branching stands.room kMaxTraversalSteps
    rw [← leafCount_eq] at scanned
    rw [levels_eq]
    by_cases within : h ≤ kMaxTraversalSteps ∧ s.leafCount ≤ kMaxTraversalSteps
    · rw [if_pos within] at scanned
      exact .inl ⟨within.2, within.1, entries tree, scanned, perm⟩
    · rw [if_neg within] at scanned
      exact .inr ⟨fun both => within both.symm, scanned⟩

end BPlusTree

namespace TreeOp

/-- What has been inserted and not deleted since. A Delete that found nothing has deleted nothing. -/
def storedAfter : List TreeOp → List Bool → List (Int × RID) → List (Int × RID)
  | insert key rid :: ops, _ :: found, stored => storedAfter ops found ((key, rid) :: stored)
  | delete key rid :: ops, true :: found, stored => storedAfter ops found (stored.erase (key, rid))
  | delete _ _ :: ops, false :: found, stored => storedAfter ops found stored
  | _, _, stored => stored

theorem apply_keeps {n : Nat} (op : TreeOp) : Keeps (BPlusTree.AtLeast n) op.apply := by
  cases op with
  | insert key rid => exact Meets.bind (BPlusTree.insert_keeps key rid) fun _ => Meets.pure _ fun _ holds => holds
  | delete key rid => exact BPlusTree.delete_keeps key rid

theorem applyAll_keeps {n : Nat} (ops : List TreeOp) : Keeps (BPlusTree.AtLeast n) (applyAll ops) := by
  induction ops with
  | nil => exact Meets.pure _ fun _ holds => holds
  | cons op ops ih =>
    exact Meets.bind (apply_keeps op) fun _ => Meets.bind ih fun _ => Meets.pure _ fun _ holds => holds

theorem applyAll_stands {s tree : BPlusTree} {stored : List (Int × RID)} (stands : s.Stands 0 stored)
    {ops : List TreeOp} {found : List Bool} (returned : (applyAll ops).exec s = (.ok found, tree))
    (room : tree.allocated < invalidPageId) : tree.Stands 0 (storedAfter ops found stored) := by
  induction ops generalizing s stored found with
  | nil =>
    obtain ⟨rfl, rfl⟩ : [] = found ∧ s = tree := by simpa [applyAll] using returned
    exact stands
  | cons op ops ih =>
    obtain ⟨first, s₁, done, onward⟩ := exec_bind_eq_ok returned
    obtain ⟨rest, s₂, doneRest, ended⟩ := exec_bind_eq_ok onward
    obtain ⟨rfl, rfl⟩ : first :: rest = found ∧ s₂ = tree := by simpa using ended
    have roomThen : s₁.allocated < invalidPageId := by
      have grown := applyAll_keeps ops s₁ (Nat.le_refl s₁.allocated)
      rw [doneRest] at grown
      exact Nat.lt_of_le_of_lt grown room
    cases op with
    | insert key rid =>
      obtain ⟨s', inserted, after⟩ := stands.insert_any key rid
      rw [apply, exec_bind_ok inserted] at done
      obtain ⟨-, rfl⟩ : true = first ∧ s' = s₁ := by simpa using done
      exact ih (after roomThen) doneRest
    | delete key rid =>
      rw [apply] at done
      rcases stands.delete (Nat.zero_le 1) key rid with ⟨-, s', undefined⟩ | absent | ⟨s', present, -, after⟩
      · rw [undefined] at done
        cases done
      · rw [absent] at done
        cases done
        exact ih stands doneRest
      · rw [present] at done
        cases done
        exact ih after doneRest

/-- RangeScanAll after any run that got to its end. It lists what is stored, up to 10,000 leaves; on a larger tree it throws
the error that is meant for corrupted pages. -/
theorem rangeScanAll_complete_iff (ops : List TreeOp) (found : List Bool) (tree : BPlusTree)
    (returned : (applyAll ops).exec {} = (.ok found, tree)) (room : tree.allocated < 2 ^ 32 - 1) :
    ((∃ listed, tree.rangeScanAll = .ok listed ∧ listed.Perm (storedAfter ops found [])) ↔
        tree.leafCount ≤ kMaxTraversalSteps ∧ tree.levels ≤ kMaxTraversalSteps) ∧
      (¬ (tree.leafCount ≤ kMaxTraversalSteps ∧ tree.levels ≤ kMaxTraversalSteps) →
        tree.rangeScanAll = .error .traversalStepsExceeded) := by
  have stands := applyAll_stands (BPlusTree.stands_empty 0) returned room
  rcases stands.rangeScanAll with ⟨leaves, levels, scanned⟩ | ⟨large, thrown⟩
  · exact ⟨⟨fun _ => ⟨leaves, levels⟩, fun _ => scanned⟩, fun large => absurd ⟨leaves, levels⟩ large⟩
  · refine ⟨⟨fun ⟨listed, scanned, _⟩ => ?_, fun within => absurd within large⟩, fun _ => thrown⟩
    rw [thrown] at scanned
    cases scanned

theorem rangeScanAll_complete_deleted : ∃ listed,
    ((applyAll [insert 5 ⟨1, 0⟩, insert 3 ⟨1, 1⟩, delete 5 ⟨1, 0⟩, delete 5 ⟨1, 0⟩]).exec {}).2.rangeScanAll = .ok listed ∧
      listed.Perm [(3, ⟨1, 1⟩)] := by
  have complete := rangeScanAll_complete_iff [insert 5 ⟨1, 0⟩, insert 3 ⟨1, 1⟩, delete 5 ⟨1, 0⟩, delete 5 ⟨1, 0⟩]
    [true, true, true, false] _ rfl (by decide)
  exact complete.1.mpr (by decide)

end TreeOp

namespace BPlusTree

theorem LeavesFit.entries_le {s : BPlusTree} (fit : s.LeavesFit) {h : Nat} {tree : Tree h} (held : Held s.pages h tree) :
    (entries tree).length ≤ (leaves h tree).length * kLeafMaxKeys := by
  have each : ∀ length ∈ (leaves h tree).map fun leaf => leaf.entries.length, length ≤ kLeafMaxKeys := by
    intro length member
    obtain ⟨leaf, isLeaf, rfl⟩ := List.mem_map.mp member
    exact fit _ leaf (leaves_held held leaf isLeaf).1
  have total := List.sum_le_card_nsmul _ _ each
  rw [List.length_map, Nat.nsmul_eq_mul] at total
  rw [entries, List.length_flatMap]
  exact total

theorem Represents.rangeScanAll_exceeded {s : BPlusTree} {stored : List (Int × RID)} (represents : s.Represents stored)
    (fit : s.LeavesFit) (many : kMaxTraversalSteps * kLeafMaxKeys < stored.length) :
    s.rangeScanAll = .error .traversalStepsExceeded := by
  rcases represents.shape with ⟨-, rfl⟩ | ⟨h, tree, shape, perm⟩
  · exact absurd many (Nat.not_lt_zero _)
  · have few := fit.entries_le shape.held
    rw [perm.length_eq] at few
    have scanned := shape.skeleton.rangeScan shape.branching represents.room kMaxTraversalSteps
    rw [if_neg fun within => ?_] at scanned
    · exact scanned
    · exact absurd (Nat.lt_of_lt_of_le many few) (Nat.not_lt.mpr (Nat.mul_le_mul_right _ within.2))

end BPlusTree

namespace TreeOp

theorem ascending_exceeds (n : Nat) (small : 33 * n + 1 < invalidPageId) (many : kMaxTraversalSteps * kLeafMaxKeys < n) :
    ∃ tree, (applyAll (ascending n)).exec {} = (.ok (List.replicate n true), tree) ∧ tree.allocated < invalidPageId ∧
      tree.rangeScanAll = .error .traversalStepsExceeded := by
  obtain ⟨tree, done, represents, fit, -⟩ := ascending_represents n small
  exact ⟨tree, done, represents.room, represents.rangeScanAll_exceeded fit (by rwa [ascending_length])⟩

/-- Nothing is corrupted here: these are Inserts of 2,910,001 different keys. -/
theorem rangeScanAll_many_leaves : ∃ tree,
    (applyAll (ascending 2910001)).exec {} = (.ok (List.replicate 2910001 true), tree) ∧
      tree.allocated < 2 ^ 32 - 1 ∧ tree.rangeScanAll = .error .traversalStepsExceeded :=
  ascending_exceeds 2910001 (by decide) (by decide)

end TreeOp

end FlintDB
