import FlintDB.Index.TreeHeight
import FlintDB.Index.TreeRuns

set_option autoImplicit false

-- FixUnderflow needs a sibling beside the node that underflowed. Whether there is one depends on where internal nodes
-- have been split: at the last separator, the right half is left with a single child.

namespace FlintDB

open Lib FlintDB.Tree Fallible

namespace Tree

theorem not_splitsAtLast {key : Int} {rid : RID} {h : Nat} {tree : Tree h} {allocated : Nat} {result : Inserted h}
    (inserted : insert key rid h tree allocated = some result)
    (halves : ∀ half ∈ result.trees, Branching 1 1 h half) : ¬ SplitsAtLast key rid h tree allocated := by
  induction h generalizing allocated with
  | zero => exact id
  | succ h ih =>
    obtain ⟨keys₁, keys₂, before, child, after, childResult, keys_eq, children_eq, aligned, position, childInserted,
      outcome⟩ := insert_internal inserted
    have childAt : tree.children[upperBound tree.keys key]? = some child := by
      rw [← position, children_eq, List.getElem?_append_right (Nat.le_refl _), Nat.sub_self, List.getElem?_cons_zero]
    -- the child's halves are children of the halves
    have childHalves : ∀ half ∈ childResult.trees, Branching 1 1 h half := by
      intro half isHalf
      have inside : half ∈ (grown tree keys₁ keys₂ before after childResult).children := by simp [grown, isHalf]
      rcases outcome with ⟨-, rfl⟩ | ⟨-, rfl⟩
      · exact (halves _ List.mem_cons_self).2.2 half inside
      · rw [← List.take_append_drop (findSplitBoundary (grown tree keys₁ keys₂ before after childResult).keys
          ((grown tree keys₁ keys₂ before after childResult).keys.length / 2) + 1)
          (grown tree keys₁ keys₂ before after childResult).children, List.mem_append] at inside
        rcases inside with isLeft | isRight
        · exact (halves _ List.mem_cons_self).2.2 half isLeft
        · exact (halves _ (List.mem_cons_of_mem _ (List.mem_singleton.mpr rfl))).2.2 half isRight
    rintro ⟨other, otherAt, uneven⟩
    obtain rfl : child = other := Option.some.inj (childAt.symm.trans otherAt)
    rcases uneven with unevenBelow | ⟨childTree, splitKey, right, allocated', otherInserted, cut⟩
    · exact ih childInserted childHalves unevenBelow
    · obtain rfl : childResult = ⟨childTree, some (splitKey, right), allocated'⟩ :=
        Option.some.inj (childInserted.symm.trans otherInserted)
      have keys_grown : tree.keys.insertIdx (upperBound tree.keys key) splitKey =
          (grown tree keys₁ keys₂ before after ⟨childTree, some (splitKey, right), allocated'⟩).keys := by
        rw [← position, ← aligned, keys_eq, insertIdx_length]
        rfl
      rw [keys_grown, cutAtLast, Bool.and_eq_true, decide_eq_true_iff, decide_eq_true_iff] at cut
      obtain ⟨overflow, atLast⟩ := cut
      rcases outcome with ⟨isWhole | fits, -⟩ | ⟨-, rfl⟩
      · cases isWhole
      · exact Nat.not_lt.mpr fits overflow
      · -- no separator is left for the right half
        have bare : 1 ≤ ((grown tree keys₁ keys₂ before after ⟨childTree, some (splitKey, right), allocated'⟩).keys.drop
            (findSplitBoundary (grown tree keys₁ keys₂ before after ⟨childTree, some (splitKey, right), allocated'⟩).keys
              ((grown tree keys₁ keys₂ before after ⟨childTree, some (splitKey, right), allocated'⟩).keys.length / 2) +
                1)).length := (halves _ (List.mem_cons_of_mem _ (List.mem_singleton.mpr rfl))).2.1
        rw [atLast, List.drop_length] at bare
        exact Nat.not_succ_le_zero 0 bare

theorem Branching.leaves_pos {least inner h : Nat} {tree : Tree h} (branching : Branching least inner h tree) :
    1 ≤ (leaves h tree).length := by
  induction h generalizing least with
  | zero => exact Nat.le_refl 1
  | succ h ih =>
    obtain ⟨first, others, children_eq⟩ := branching.first
    have some := ih (branching.2.2 first (by simp [children_eq]))
    rw [leaves, children_eq, List.flatMap_cons, List.length_append]
    omega

-- There are no fewer leaves below a node than it has children.
theorem SplitsAtLast.many {key : Int} {rid : RID} {least inner h : Nat} {tree : Tree h} {allocated : Nat}
    (splits : SplitsAtLast key rid h tree allocated) (branching : Branching least inner h tree) :
    kInternalMaxKeys < (leaves h tree).length := by
  induction h generalizing least with
  | zero => exact splits.elim
  | succ h ih =>
    obtain ⟨child, childAt, below | ⟨_, splitKey, _, _, -, atLast⟩⟩ := splits
    · have member := List.mem_of_getElem? childAt
      have many := ih below (branching.2.2 child member)
      rw [leaves, List.length_flatMap]
      exact Nat.lt_of_lt_of_le many (List.single_le_sum (by simp) _ (List.mem_map_of_mem member))
    · rw [cutAtLast, Bool.and_eq_true, decide_eq_true_eq, List.length_insertIdx_of_le_length (upperBound_le _ _)] at atLast
      have wide := leaves_length_ge (Nat.le_refl _) fun child member => (branching.2.2 child member).leaves_pos
      rw [branching.1] at wide
      omega

end Tree

namespace BPlusTree

variable {key : Int} {rid : RID} {s : BPlusTree} {h : Nat}

-- The pages that the tree consists of.
inductive Reaches (tree : BPlusTree) : Nat → Prop
  | root (valid : tree.rootPageId ≠ invalidPageId) : Reaches tree tree.rootPageId
  | child {pageId child : Nat} (above : Reaches tree pageId) (isChild : child ∈ tree.childPages pageId) :
    Reaches tree child

/-- Every internal node has two children or more, and a separator between each two of them. -/
def TwoChildren (tree : BPlusTree) : Prop :=
  ∀ pageId node, tree.Reaches pageId → tree.readInternal pageId = some node →
    2 ≤ node.children.length ∧ node.children.length = node.keys.length + 1

-- InsertRecursive from this page would split an internal node at its last separator.
def splitsAtLastFrom (tree : BPlusTree) (key : Int) (rid : RID) : Nat → Nat → Bool
  | 0, _ => false
  | fuel + 1, pageId =>
    match tree.readInternal pageId with
    | none => false
    | some node =>
      match node.children[upperBound node.keys key]? with
      | none => false
      | some child =>
        tree.splitsAtLastFrom key rid fuel child ||
          match ((insertRecursive key rid fuel child).exec tree).1 with
          | .ok (some childSplit) => cutAtLast (node.keys.insertIdx (upperBound node.keys key) childSplit.splitKey)
          | _ => false

def splitsAtLast (tree : BPlusTree) (key : Int) (rid : RID) : Bool :=
  tree.rootPageId ≠ invalidPageId && tree.splitsAtLastFrom key rid tree.allocated tree.rootPageId

theorem splitsAtLastFrom_held {least inner : Nat} {tree : Tree h} (held : Held s.pages h tree)
    (branching : Branching least inner h tree) {fuel : Nat} (deep : h < fuel) :
    s.splitsAtLastFrom key rid fuel (pageId h tree) ↔ Tree.SplitsAtLast key rid h tree s.allocated := by
  induction h generalizing least fuel with
  | zero =>
    obtain ⟨fuel, rfl⟩ : ∃ rest, fuel = rest + 1 := ⟨fuel - 1, by omega⟩
    have stored : s.pages (pageId 0 tree) = some (.leaf tree) := held
    simp [splitsAtLastFrom, readInternal, stored, Tree.SplitsAtLast]
  | succ h ih =>
    obtain ⟨fuel, rfl⟩ : ∃ rest, fuel = rest + 1 := ⟨fuel - 1, by omega⟩
    have stored : s.pages (pageId (h + 1) tree) = some (.internal (tree.map (pageId h))) := held.1
    have read : s.readInternal (pageId (h + 1) tree) = some (tree.map (pageId h)) := by rw [readInternal, stored]
    simp only [Tree.SplitsAtLast]
    rw [splitsAtLastFrom, read]
    cases childAt : tree.children[upperBound tree.keys key]? with
    | none => simp [InternalNode.map, childAt]
    | some child =>
      have member := List.mem_of_getElem? childAt
      have below := ih (held.2 child member) (branching.2.2 child member) (by omega : h < fuel)
      obtain ⟨⟨childTree, split, allocated'⟩, inserted⟩ := insert_exists key rid s.allocated (branching.2.2 child member)
      obtain ⟨s', inserts⟩ := insertRecursive_exec (held.2 child member) (by omega : h < fuel) inserted
      cases split with
      | none => simp [InternalNode.map, childAt, inserts.done, inserted, below, Inserted.splitResult]
      | some halves =>
        simp [InternalNode.map, childAt, inserts.done, inserted, below, Inserted.splitResult, Prod.ext_iff, ← and_assoc]

theorem Reaches.held {tree : Tree h} (skeleton : s.Skeleton tree) {least inner : Nat}
    (branching : Branching least inner h tree) (le : inner ≤ least) {page : Nat} (reaches : s.Reaches page) :
    ∃ (depth : Nat) (part : Tree depth), pageId depth part = page ∧ Held s.pages depth part ∧
      Branching inner inner depth part := by
  induction reaches with
  | root valid => exact ⟨h, tree, skeleton.root.symm, skeleton.held, branching.mono le⟩
  | child above isChild ih =>
    obtain ⟨depth, part, rfl, held, branching⟩ := ih
    cases depth with
    | zero =>
      have stored : s.pages (pageId 0 part) = some (.leaf part) := held
      simp [childPages, readInternal, stored] at isChild
    | succ depth =>
      rw [childPages_held held] at isChild
      obtain ⟨child, member, rfl⟩ := List.mem_map.mp isChild
      exact ⟨depth, child, rfl, held.2 child member, branching.2.2 child member⟩

theorem Branching.of_twoChildren {tree : Tree h} (two : s.TwoChildren) (held : Held s.pages h tree)
    (reaches : s.Reaches (pageId h tree)) : Branching 1 1 h tree := by
  induction h with
  | zero => trivial
  | succ h ih =>
    have stored : s.pages (pageId (h + 1) tree) = some (.internal (tree.map (pageId h))) := held.1
    obtain ⟨several, length⟩ := two _ (tree.map (pageId h)) reaches (by rw [readInternal, stored])
    simp only [InternalNode.map, List.length_map] at several length
    refine ⟨length, by omega, fun child member => ih (held.2 child member) (reaches.child ?_)⟩
    rw [childPages_held held]
    exact List.mem_map_of_mem member

theorem Skeleton.twoChildren_iff {tree : Tree h} (skeleton : s.Skeleton tree) (room : s.allocated < invalidPageId) :
    s.TwoChildren ↔ Branching 1 1 h tree := by
  constructor
  · intro two
    refine Branching.of_twoChildren two skeleton.held ?_
    rw [← skeleton.root]
    exact .root (skeleton.root_ne room)
  · intro both page node reaches read
    obtain ⟨depth, part, rfl, held, partBranching⟩ := reaches.held skeleton both (Nat.le_refl 1)
    cases depth with
    | zero =>
      have stored : s.pages (pageId 0 part) = some (.leaf part) := held
      simp [readInternal, stored] at read
    | succ depth =>
      have stored : s.pages (pageId (depth + 1) part) = some (.internal (part.map (pageId depth))) := held.1
      obtain rfl : part.map (pageId depth) = node := by simpa [readInternal, stored] using read
      have length := partBranching.1
      have several := partBranching.2.1
      simp only [InternalNode.map, List.length_map]
      omega

theorem Skeleton.splitsAtLast_iff {tree : Tree h} (skeleton : s.Skeleton tree) {least inner : Nat}
    (branching : Branching least inner h tree) (room : s.allocated < invalidPageId) :
    s.splitsAtLast key rid ↔ Tree.SplitsAtLast key rid h tree s.allocated := by
  rw [← splitsAtLastFrom_held skeleton.held branching (skeleton.height_lt branching), splitsAtLast, skeleton.root]
  simp [← skeleton.root, skeleton.root_ne room]

theorem twoChildren_of_noRoot (empty : s.rootPageId = invalidPageId) : s.TwoChildren := by
  have none : ∀ page, ¬ s.Reaches page := by
    intro page reaches
    induction reaches with
    | root valid => exact valid empty
    | child _ _ ih => exact ih
  exact fun page _ reaches => absurd reaches (none page)

theorem Stands.twoChildren {stored : List (Int × RID)} (stands : s.Stands 1 stored) : s.TwoChildren := by
  rcases stands.shape with ⟨empty, -⟩ | ⟨h, tree, skeleton, branching, -⟩
  · exact twoChildren_of_noRoot empty
  · exact (skeleton.twoChildren_iff stands.room).mpr branching

theorem Stands.delete_returns {stored : List (Int × RID)} (stands : s.Stands 1 stored) (key : Int) (rid : RID) :
    ∃ found s', (BPlusTree.delete key rid).exec s = (.ok found, s') ∧ ∃ stored', s'.Stands 1 stored' := by
  rcases stands.delete (Nat.le_refl 1) key rid with ⟨isZero, -⟩ | absent | ⟨s', present, -, after⟩
  · cases isZero
  · exact ⟨false, s, absent, stored, stands⟩
  · exact ⟨true, s', present, _, after⟩

theorem Stands.insert_returns {stored : List (Int × RID)} (stands : s.Stands 1 stored)
    (even : ¬ s.splitsAtLast key rid) :
    ∃ s', (BPlusTree.insert key rid).exec s = (.ok (), s') ∧
      (s'.allocated < invalidPageId → s'.Stands 1 ((key, rid) :: stored)) :=
  stands.insert (Nat.le_refl 1) fun _ _ _ skeleton branching uneven =>
    even ((skeleton.splitsAtLast_iff branching stands.room).mpr uneven)

theorem Represents.not_splitsAtLast {stored : List (Int × RID)} (represents : s.Represents stored)
    (few : stored.length ≤ kInternalMaxKeys) : ¬ s.splitsAtLast key rid := by
  rcases represents.shape with ⟨empty, -⟩ | ⟨h, tree, shape, perm⟩
  · simp [splitsAtLast, empty]
  · rw [shape.skeleton.splitsAtLast_iff shape.branching represents.room]
    intro splits
    have leaves := splits.many shape.branching
    have entries := leaves_le_entries shape.fits
    rw [perm.length_eq] at entries
    omega

theorem Stands.not_splitsAtLast {stored : List (Int × RID)} (stands : s.Stands 0 stored) {s' : BPlusTree}
    (inserted : (BPlusTree.insert key rid).exec s = (.ok (), s')) (room : s'.allocated < invalidPageId)
    (before : s.TwoChildren) (after : s'.TwoChildren) : ¬ s.splitsAtLast key rid := by
  rcases stands.shape with ⟨empty, -⟩ | ⟨h, tree, skeleton, -, -⟩
  · simp [splitsAtLast, empty]
  · have branching := (skeleton.twoChildren_iff stands.room).mp before
    obtain ⟨result, treeInserted⟩ := insert_exists key rid s.allocated branching
    obtain ⟨s₁, done, -, -, leaves⟩ := skeleton.insert branching stands.room treeInserted
    obtain rfl : s₁ = s' := (Prod.ext_iff.mp (done.symm.trans inserted)).2
    obtain ⟨kept, doubled⟩ := leaves room
    rw [skeleton.splitsAtLast_iff branching stands.room]
    refine Tree.not_splitsAtLast treeInserted ?_
    cases split : result.split with
    | none =>
      simpa [Inserted.trees, split] using ((kept split).twoChildren_iff room).mp after
    | some halves =>
      obtain ⟨root, rootSkeleton, -, children_eq⟩ := doubled halves.1 halves.2 split
      have both := ((rootSkeleton.twoChildren_iff room).mp after).2.2
      rw [children_eq] at both
      simpa [Inserted.trees, split] using both

end BPlusTree

namespace TreeOp

theorem applyAll_branches {s : BPlusTree} {stored : List (Int × RID)} (stands : s.Stands 1 stored) (ops : List TreeOp)
    (room : ∀ ops', ops' <+: ops → ((applyAll ops').exec s).2.allocated < invalidPageId)
    (even : ∀ ops' key rid, ops' ++ [insert key rid] <+: ops → ¬ ((applyAll ops').exec s).2.splitsAtLast key rid) :
    ∃ found tree stored', (applyAll ops).exec s = (.ok found, tree) ∧ tree.Stands 1 stored' := by
  induction ops generalizing s stored with
  | nil => exact ⟨[], s, stored, rfl, stands⟩
  | cons op ops ih =>
    have applied : ∃ here s₁, op.apply.exec s = (.ok here, s₁) ∧
        (s₁.allocated < invalidPageId → ∃ stored₁, s₁.Stands 1 stored₁) := by
      cases op with
      | insert key rid =>
        obtain ⟨s₁, inserted, after⟩ := stands.insert_returns (even [] key rid ⟨ops, rfl⟩)
        exact ⟨true, s₁, exec_bind_ok inserted, fun room => ⟨_, after room⟩⟩
      | delete key rid =>
        obtain ⟨here, s₁, deleted, after⟩ := stands.delete_returns key rid
        exact ⟨here, s₁, deleted, fun _ => after⟩
    obtain ⟨here, s₁, done, after⟩ := applied
    have onward : ∀ ops', ((applyAll (op :: ops')).exec s).2 = ((applyAll ops').exec s₁).2 := by
      intro ops'
      rw [applyAll, exec_bind_ok done, exec_bind]
      rcases (applyAll ops').exec s₁ with ⟨_ | _, _⟩ <;> rfl
    obtain ⟨stored₁, stands₁⟩ := after (by
      have roomFirst := room [op] ⟨ops, rfl⟩
      rwa [onward] at roomFirst)
    obtain ⟨found, tree, stored', doneRest, stands'⟩ := ih stands₁
      (fun ops' isPrefix => by
        rw [← onward]
        exact room (op :: ops') (List.cons_prefix_cons.mpr ⟨rfl, isPrefix⟩))
      (fun ops' key rid isPrefix => by
        rw [← onward]
        exact even (op :: ops') key rid (List.cons_prefix_cons.mpr ⟨rfl, isPrefix⟩))
    refine ⟨here :: found, tree, stored', ?_, stands'⟩
    rw [applyAll, exec_bind_ok done, exec_bind_ok doneRest]
    rfl

/-- In every state of a run every internal node has two children or more and every Delete returns, if and only if no Insert
of the run splits an internal node at its last separator. -/
theorem siblings_exist_iff (ops : List TreeOp)
    (room : ∀ ops', ops' <+: ops → ((applyAll ops').exec {}).2.allocated < 2 ^ 32 - 1) :
    (∀ ops', ops' <+: ops → ∃ found tree, (applyAll ops').exec {} = (.ok found, tree) ∧ tree.TwoChildren ∧
        ∀ key rid, ∃ deleted tree', (BPlusTree.delete key rid).exec tree = (.ok deleted, tree')) ↔
      ∀ ops' key rid, ops' ++ [insert key rid] <+: ops → ¬ ((applyAll ops').exec {}).2.splitsAtLast key rid := by
  constructor
  · intro sound ops' key rid isPrefix
    have earlier : ops' <+: ops := (List.prefix_append ops' _).trans isPrefix
    obtain ⟨found, tree, returned, before, -⟩ := sound ops' earlier
    obtain ⟨found', tree', returned', after, -⟩ := sound _ isPrefix
    have roomBefore := room ops' earlier
    have roomAfter := room _ isPrefix
    rw [returned] at roomBefore
    rw [returned'] at roomAfter
    have stands := applyAll_stands (BPlusTree.stands_empty 0) returned roomBefore
    obtain ⟨s', inserted, -⟩ := stands.insert_any key rid
    have together := applyAll_append returned (applyAll_insert inserted)
    rw [returned'] at together
    obtain rfl : tree' = s' := (Prod.ext_iff.mp together).2
    rw [returned]
    exact stands.not_splitsAtLast inserted roomAfter before after
  · intro even ops' isPrefix
    obtain ⟨found, tree, stored, returned, stands⟩ := applyAll_branches (BPlusTree.stands_empty 1) ops'
      (fun earlier isEarlier => room earlier (isEarlier.trans isPrefix))
      (fun earlier key rid isEarlier => even earlier key rid (isEarlier.trans isPrefix))
    refine ⟨found, tree, returned, stands.twoChildren, fun key rid => ?_⟩
    obtain ⟨deleted, tree', done, -⟩ := stands.delete_returns key rid
    exact ⟨deleted, tree', done⟩

theorem ascending_even {n : Nat} (small : 33 * n + 1 < invalidPageId) (few : n ≤ kInternalMaxKeys) {ops : List TreeOp}
    {key : Int} {rid : RID} (isPrefix : ops ++ [insert key rid] <+: ascending n) :
    ¬ ((applyAll ops).exec {}).2.splitsAtLast key rid := by
  obtain ⟨m, le, rfl⟩ := prefix_ascending ((List.prefix_append ops _).trans isPrefix)
  obtain ⟨tree, done, represents, -⟩ := ascending_represents m (by omega)
  rw [done]
  exact represents.not_splitsAtLast (by rw [ascending_length]; omega)

theorem siblings_exist_ascending : ∃ tree node,
    (applyAll (ascending 292)).exec {} = (.ok (List.replicate 292 true), tree) ∧
      tree.readInternal tree.rootPageId = some node ∧ 2 ≤ node.children.length := by
  obtain ⟨tree, done, represents, -⟩ := ascending_represents 292 (by decide)
  obtain ⟨found, tree', returned, two, -⟩ := (siblings_exist_iff (ascending 292) fun _ => ascending_room (by decide)).mpr
    (fun _ _ _ => ascending_even (by decide) (by decide)) _ (List.prefix_refl _)
  obtain rfl : tree = tree' := by
    rw [done] at returned
    exact (Prod.ext_iff.mp returned).2
  obtain ⟨valid, node, isRoot⟩ := represents.exists_internal (by rw [ascending_length]; decide)
  have read : tree.readInternal tree.rootPageId = some node := by rw [BPlusTree.readInternal, isRoot]
  exact ⟨tree, node, done, read, (two _ _ (.root valid) read).1⟩

end TreeOp

def fives (rids : List RID) : List (Int × RID) := rids.map fun rid => (5, rid)

theorem fives_keys (rids : List RID) : (fives rids).map Prod.fst = List.replicate rids.length 5 := by
  simp [fives]

theorem upperBound_fives (n : Nat) {keys : List Int} (greater : ∀ key ∈ keys.head?, 5 < key) :
    upperBound (List.replicate n 5 ++ keys) 5 = n := by
  induction n with
  | zero =>
    cases keys with
    | nil => rfl
    | cons first keys => simp [upperBound_cons, greater first rfl]
  | succ n ih => rw [List.replicate_succ, List.cons_append, upperBound_cons, if_neg (Int.lt_irrefl 5), ih]

theorem findSplitBoundary_of_first {keys : List Int} {mid place : Nat} (le : mid ≤ place) (within : place < keys.length)
    (none : ∀ i, mid ≤ i → i < place → ¬ isBoundary keys i) (boundary : isBoundary keys place) :
    findSplitBoundary keys mid = place := by
  have found : (List.range' mid (keys.length - mid)).find? (isBoundary keys) = some place := by
    rw [List.find?_range'_eq_some]
    refine ⟨boundary, by rw [List.mem_range'_1]; omega, fun i mid_le lt => ?_⟩
    simpa using none i mid_le lt
  rw [findSplitBoundary, found]

theorem fives_no_boundary {n : Nat} {keys : List Int} {i : Nat} (positive : 0 < i) (within : i < n) :
    ¬ isBoundary (List.replicate n 5 ++ keys) i := by
  simp [isBoundary, List.getElem?_append, within, (by omega : i - 1 < n)]

theorem findSplitBoundary_fives {n mid : Nat} (positive : 0 < mid) (within : mid < n) :
    findSplitBoundary (List.replicate n 5) mid = mid := by
  refine findSplitBoundary_of_none positive (by simpa using within) fun i positive within => ?_
  have no : ¬ isBoundary (List.replicate n 5 ++ []) i := fives_no_boundary positive (by simpa using within)
  rwa [List.append_nil] at no

theorem fives_nine_boundary {n : Nat} (positive : 0 < n) : isBoundary (List.replicate n 5 ++ [9]) n := by
  simp [isBoundary, List.getElem?_append, (by omega : n - 1 < n)]

theorem insert_fives {leaf : LeafNode} {rids : List RID} {others : List (Int × RID)}
    (entries_eq : leaf.entries = fives rids ++ others) (greater : ∀ entry ∈ others.head?, 5 < entry.1) (rid : RID) :
    (leaf.insert 5 rid).entries = fives (rids ++ [rid]) ++ others := by
  have position : upperBound leaf.keys 5 = (fives rids).length := by
    rw [LeafNode.keys, entries_eq, List.map_append, fives_keys, upperBound_fives]
    · simp [fives]
    · simpa [List.head?_map] using greater
  rw [LeafNode.insert, position, entries_eq, insertIdx_length]
  simp [fives]

namespace Tree

structure Crowded (nine : RID) (many m : Nat) (tree : Tree 1) : Prop where
  keys : InternalNode.keys tree = List.replicate many 5 ++ [9]
  children : ∃ (olds : List LeafNode) (active last : LeafNode) (rids : List RID),
    InternalNode.children tree = olds ++ [active, last] ∧ olds.length = many ∧ active.entries = fives rids ∧
      rids.length = m ∧ last.entries = [(9, nine)]

variable {nine : RID} {many m : Nat} {tree : Tree 1}

theorem Crowded.branching (crowded : Crowded nine many m tree) (inner : Nat) : Branching 1 inner 1 tree := by
  obtain ⟨olds, active, last, rids, children_eq, rfl, -⟩ := crowded.children
  exact ⟨by simp [crowded.keys, children_eq], by simp [crowded.keys], fun _ _ => trivial⟩

theorem Crowded.insert_room (crowded : Crowded nine many m tree) (room : m < kLeafMaxKeys) (rid : RID) (allocated : Nat) :
    ∃ tree', insert 5 rid 1 tree allocated = some ⟨tree', none, allocated⟩ ∧ Crowded nine many (m + 1) tree' := by
  obtain ⟨olds, active, last, rids, children_eq, rfl, active_eq, rfl, last_eq⟩ := crowded.children
  have position : upperBound (InternalNode.keys tree) 5 = olds.length := by
    rw [crowded.keys, upperBound_fives _ (by simp)]
  have taken : (LeafNode.insert active 5 rid).entries = fives (rids ++ [rid]) := by
    simpa using insert_fives (by simpa using active_eq : _ = fives rids ++ []) (by simp) rid
  have fits : (LeafNode.insert active 5 rid).keys.length ≤ kLeafMaxKeys := by
    rw [LeafNode.keys, taken, fives_keys, List.length_replicate, List.length_append]
    exact room
  have done : insert 5 rid 0 active allocated = some ⟨LeafNode.insert active 5 rid, none, allocated⟩ := by
    simp [insert, fits]
  refine ⟨{ tree with children := olds ++ [LeafNode.insert active 5 rid, last] }, ?_, crowded.keys,
    olds, LeafNode.insert active 5 rid, last, rids ++ [rid], rfl, rfl, taken, by simp, last_eq⟩
  rw [insert]
  simp [position, children_eq, done]

theorem insert_fives_split {leaf : LeafNode} {rids : List RID} (entries_eq : leaf.entries = fives rids)
    (full : rids.length = kLeafMaxKeys) (rid : RID) (allocated : Nat) :
    ∃ (left right : LeafNode) (more : List RID),
      insert 5 rid 0 leaf allocated = some ⟨left, some (5, right), allocated + 1⟩ ∧ right.entries = fives more ∧
        more.length = 146 := by
  have taken : (leaf.insert 5 rid).entries = fives (rids ++ [rid]) := by
    simpa using insert_fives (by simpa using entries_eq : _ = fives rids ++ []) (by simp) rid
  generalize more_eq : rids ++ [rid] = more at taken
  have length : more.length = 292 := by rw [← more_eq, List.length_append, full, kLeafMaxKeys_eq]; rfl
  have keys_eq : (leaf.insert 5 rid).keys = List.replicate more.length 5 := by rw [LeafNode.keys, taken, fives_keys]
  have overflow : ¬ (leaf.insert 5 rid).keys.length ≤ kLeafMaxKeys := by
    rw [keys_eq, List.length_replicate, length, kLeafMaxKeys_eq]
    decide
  have place : findSplitBoundary (leaf.insert 5 rid).keys ((leaf.insert 5 rid).keys.length / 2) = 146 := by
    rw [keys_eq, List.length_replicate, findSplitBoundary_fives (by omega) (by omega), length]
  have first : ((leaf.insert 5 rid).keys.drop 146).headD 0 = 5 := by
    rw [keys_eq, List.drop_replicate, (by omega : more.length - 146 = 145 + 1), List.replicate_succ]
    rfl
  refine ⟨{ leaf.insert 5 rid with entries := (fives more).take 146, nextLeaf := BPlusTree.wrapPageId allocated },
    { pageId := BPlusTree.wrapPageId allocated, nextLeaf := leaf.nextLeaf, entries := fives (more.drop 146) },
    more.drop 146, ?_, rfl, by rw [List.length_drop, length]⟩
  rw [insert, if_neg overflow, splitLeaf, place, LeafNode.split]
  simp only [taken, first, fives, List.map_drop]
  rfl

theorem insert_fives_nine_split {leaf : LeafNode} {rids : List RID}
    (entries_eq : leaf.entries = fives rids ++ [(9, nine)]) (full : rids.length + 1 = kLeafMaxKeys) (rid : RID)
    (allocated : Nat) : ∃ left right : LeafNode,
      insert 5 rid 0 leaf allocated = some ⟨left, some (9, right), allocated + 1⟩ ∧
        left.entries = fives (rids ++ [rid]) ∧ right.entries = [(9, nine)] := by
  have taken := insert_fives entries_eq (by simp) rid
  have length : (rids ++ [rid]).length = 291 := by
    rw [List.length_append]
    exact full
  generalize rids ++ [rid] = more at taken length ⊢
  have keys_eq : (leaf.insert 5 rid).keys = List.replicate more.length 5 ++ [9] := by
    rw [LeafNode.keys, taken, List.map_append, fives_keys]
    rfl
  have keys_length : (leaf.insert 5 rid).keys.length = 292 := by
    rw [keys_eq, List.length_append, List.length_replicate, length]
    rfl
  have place : findSplitBoundary (leaf.insert 5 rid).keys ((leaf.insert 5 rid).keys.length / 2) = more.length := by
    rw [keys_length, keys_eq]
    exact findSplitBoundary_of_first (by omega) (by simp) (fun i le lt => fives_no_boundary (by omega) lt)
      (fives_nine_boundary (by omega))
  have fives_length : (fives more).length = more.length := by simp [fives]
  refine ⟨{ leaf.insert 5 rid with entries := fives more, nextLeaf := BPlusTree.wrapPageId allocated },
    { pageId := BPlusTree.wrapPageId allocated, nextLeaf := leaf.nextLeaf, entries := [(9, nine)] }, ?_, rfl, rfl⟩
  rw [insert, if_neg (by rw [keys_length, kLeafMaxKeys_eq]; decide), splitLeaf, place, LeafNode.split, keys_eq, taken,
    ← fives_length, List.take_left, List.drop_left, fives_length, List.drop_left' (by simp)]
  rfl

theorem insertChild_fives {node : InternalNode LeafNode} {olds : List LeafNode} {active last : LeafNode}
    (keys_eq : node.keys = List.replicate olds.length 5 ++ [9]) (children_eq : node.children = olds ++ [active, last])
    (left right : LeafNode) :
    InternalNode.insertChild { node with children := node.children.set olds.length left } olds.length 5 right =
      { node with keys := List.replicate (olds.length + 1) 5 ++ [9], children := olds ++ [left, right, last] } := by
  have keys : node.keys.insertIdx olds.length 5 = List.replicate (olds.length + 1) 5 ++ [9] := by
    have here := insertIdx_length (List.replicate olds.length (5 : Int)) [9] 5
    rw [List.length_replicate] at here
    rw [keys_eq, here, List.replicate_succ', List.append_assoc]
    rfl
  have children : (node.children.set olds.length left).insertIdx (olds.length + 1) right =
      olds ++ [left, right, last] := by
    have here := insertIdx_length (olds ++ [left]) [last] right
    simpa [children_eq] using here
  rw [InternalNode.insertChild, keys, children]

theorem Crowded.insert_full (crowded : Crowded nine many m tree) (full : m = kLeafMaxKeys)
    (room : many + 2 ≤ kInternalMaxKeys) (rid : RID) (allocated : Nat) : ∃ tree',
      insert 5 rid 1 tree allocated = some ⟨tree', none, allocated + 1⟩ ∧ Crowded nine (many + 1) 146 tree' := by
  obtain ⟨olds, active, last, rids, children_eq, rfl, active_eq, rfl, last_eq⟩ := crowded.children
  have position : upperBound (InternalNode.keys tree) 5 = olds.length := by
    rw [crowded.keys, upperBound_fives _ (by simp)]
  have childAt : (InternalNode.children tree)[olds.length]? = some active := by simp [children_eq]
  obtain ⟨left, right, more, done, right_eq, length⟩ := insert_fives_split active_eq full rid allocated
  refine ⟨{ tree with keys := List.replicate (olds.length + 1) 5 ++ [9], children := olds ++ [left, right, last] },
    ?_, rfl, olds ++ [left], right, last, more, by simp, by simp, right_eq, length, last_eq⟩
  rw [insert]
  simp only [position, childAt, done, Option.bind_eq_bind, Option.bind_some,
    insertChild_fives crowded.keys children_eq left right]
  rw [if_pos]
  rw [List.length_append, List.length_replicate]
  exact room

theorem Crowded.insert_last (crowded : Crowded nine many m tree) (full : m = kLeafMaxKeys)
    (noRoom : many + 1 = kInternalMaxKeys) (rid : RID) (allocated : Nat) :
    ∃ (left right : InternalNode LeafNode) (last : LeafNode),
      insert 5 rid 1 tree allocated = some ⟨left, some (9, right), allocated + 2⟩ ∧
        right.keys = [] ∧ right.children = [last] ∧ last.entries = [(9, nine)] := by
  obtain ⟨olds, active, last, rids, children_eq, rfl, active_eq, rfl, last_eq⟩ := crowded.children
  have position : upperBound (InternalNode.keys tree) 5 = olds.length := by
    rw [crowded.keys, upperBound_fives _ (by simp)]
  have childAt : (InternalNode.children tree)[olds.length]? = some active := by simp [children_eq]
  obtain ⟨left, right, more, done, right_eq, length⟩ := insert_fives_split active_eq full rid allocated
  have keys_length : (List.replicate (olds.length + 1) (5 : Int) ++ [9]).length = olds.length + 2 := by simp
  have place : findSplitBoundary (List.replicate (olds.length + 1) 5 ++ [9])
      ((List.replicate (olds.length + 1) (5 : Int) ++ [9]).length / 2) = olds.length + 1 := by
    rw [keys_length]
    rw [kInternalMaxKeys_eq] at noRoom
    exact findSplitBoundary_of_first (by omega) (by simp) (fun i le lt => fives_no_boundary (by omega) lt)
      (fives_nine_boundary (by omega))
  have keysLeft : (List.replicate (olds.length + 1) (5 : Int) ++ [9]).take (olds.length + 1) =
      List.replicate (olds.length + 1) 5 := List.take_left' List.length_replicate
  have pushedUp : (List.replicate (olds.length + 1) (5 : Int) ++ [9]).getD (olds.length + 1) 0 = 9 := by
    simp [List.getD_eq_getElem?_getD]
  have keysRight : (List.replicate (olds.length + 1) (5 : Int) ++ [9]).drop (olds.length + 1 + 1) = [] :=
    List.drop_eq_nil_of_le keys_length.le
  have cut : olds ++ [left, right, last] = (olds ++ [left, right]) ++ [last] := by simp
  have childrenLeft : (olds ++ [left, right, last]).take (olds.length + 1 + 1) = olds ++ [left, right] := by
    rw [cut, List.take_left' (by simp)]
  have childrenRight : (olds ++ [left, right, last]).drop (olds.length + 1 + 1) = [last] := by
    rw [cut, List.drop_left' (by simp)]
  refine ⟨{ tree with keys := List.replicate (olds.length + 1) 5, children := olds ++ [left, right] },
    { pageId := BPlusTree.wrapPageId (allocated + 1), keys := [], children := [last] }, last, ?_, rfl, rfl, last_eq⟩
  rw [insert]
  simp only [position, childAt, done, Option.bind_eq_bind, Option.bind_some,
    insertChild_fives crowded.keys children_eq left right]
  rw [if_neg (by rw [keys_length]; omega), splitInternal]
  simp only [place, InternalNode.split, keysLeft, pushedUp, keysRight, childrenLeft, childrenRight]

theorem delete_nine {root : InternalNode (Tree 1)} {left : Tree 1} {right : InternalNode LeafNode} {last : LeafNode}
    (keys_eq : root.keys = [9]) (children_eq : root.children = [left, right]) (noKeys : right.keys = [])
    (only : right.children = [last]) (entries_eq : last.entries = [(9, nine)]) :
    delete 9 nine 2 root true = none := by
  have position : last.position 9 nine = some 0 := by simp [LeafNode.position, entries_eq]
  have bare : (last.erase 0).keys = [] := by simp [LeafNode.erase, LeafNode.keys, entries_eq]
  have emptied : delete 9 nine 0 last false = some (some (last.erase 0, true)) := by
    simp [delete, position, bare, kLeafMinKeys_eq]
  have alone : fixUnderflow 0 { right with keys := [], children := [last.erase 0] } 0 = none := by
    simp [fixUnderflow, fixLeaf]
  have inside : delete 9 nine 1 right false = none := by
    rw [delete]
    simp [noKeys, only, emptied, alone]
  rw [delete]
  simp [keys_eq, children_eq, upperBound_cons, inside]

end Tree

namespace BPlusTree

variable {key : Int} {rid : RID} {s : BPlusTree} {h : Nat}

def Packed (nine : RID) (n : Nat) (s : BPlusTree) : Prop :=
  (n + 1 ≤ kLeafMaxKeys ∧ ∃ (leaf : LeafNode) (rids : List RID), s.Skeleton (h := 0) leaf ∧
      leaf.entries = fives rids ++ [(9, nine)] ∧ rids.length = n) ∨
    ∃ (many m : Nat) (tree : Tree 1), s.Skeleton tree ∧ Crowded nine many m tree ∧ n = 146 * many + m ∧ 146 ≤ m ∧
      m ≤ kLeafMaxKeys

theorem Skeleton.insert_kept {tree tree' : Tree h} (skeleton : s.Skeleton tree) {least inner allocated : Nat}
    (branching : Branching least inner h tree)
    (inserted : Tree.insert key rid h tree s.allocated = some ⟨tree', none, allocated⟩)
    (room : allocated + 1 < invalidPageId) :
    ∃ s', (BPlusTree.insert key rid).exec s = (.ok (), s') ∧ s'.allocated ≤ allocated + 1 ∧ s'.Skeleton tree' := by
  have grown := insert_allocated_le inserted
  obtain ⟨s', done, -, atMost, after⟩ := skeleton.insert branching (by simp only at grown; omega) inserted
  exact ⟨s', done, atMost, (after (Nat.lt_of_le_of_lt atMost room)).1 rfl⟩

theorem Packed.insert {nine : RID} {n : Nat} (packed : s.Packed nine n) (room : s.allocated + 3 < invalidPageId)
    (few : n < 49639) (rid : RID) :
    ∃ s', (BPlusTree.insert 5 rid).exec s = (.ok (), s') ∧ s'.allocated ≤ s.allocated + 3 ∧ s'.Packed nine (n + 1) := by
  rcases packed with ⟨fits, leaf, rids, skeleton, entries_eq, rfl⟩ |
    ⟨many, m, tree, skeleton, crowded, rfl, least, most⟩
  · have branching : Branching 1 1 0 leaf := trivial
    by_cases more : rids.length + 2 ≤ kLeafMaxKeys
    · -- the leaf has room
      have taken := insert_fives entries_eq (by simp) rid
      have inserted : Tree.insert 5 rid 0 leaf s.allocated = some ⟨leaf.insert 5 rid, none, s.allocated⟩ := by
        rw [Tree.insert, if_pos]
        rw [LeafNode.keys, taken, List.map_append, fives_keys, List.length_append, List.length_replicate,
          List.length_append]
        exact more
      obtain ⟨s', done, atMost, skeleton'⟩ := skeleton.insert_kept branching inserted (by omega)
      exact ⟨s', done, by omega, .inl ⟨more, leaf.insert 5 rid, rids ++ [rid], skeleton', taken, by simp⟩⟩
    · -- it splits, under a first root
      obtain ⟨left, right, inserted, left_eq, right_eq⟩ :=
        insert_fives_nine_split entries_eq (by omega : rids.length + 1 = kLeafMaxKeys) rid s.allocated
      obtain ⟨s', done, -, atMost, after⟩ := skeleton.insert branching (by omega) inserted
      simp only at atMost
      obtain ⟨root, skeleton', keys_eq, children_eq⟩ := (after (by omega)).2 9 right rfl
      refine ⟨s', done, by omega, .inr ⟨0, rids.length + 1, root, skeleton', ⟨keys_eq, [], left, right, rids ++ [rid],
        children_eq, rfl, left_eq, by simp, right_eq⟩, by omega, ?_, by omega⟩⟩
      rw [kLeafMaxKeys_eq] at more
      omega
  · rcases Nat.lt_or_eq_of_le most with more | full
    · obtain ⟨tree', inserted, crowded'⟩ := crowded.insert_room more rid s.allocated
      obtain ⟨s', done, atMost, skeleton'⟩ := skeleton.insert_kept (crowded.branching 1) inserted (by omega)
      exact ⟨s', done, by omega, .inr ⟨many, m + 1, tree', skeleton', crowded', by omega, by omega, more⟩⟩
    · -- the leaf splits, and the node above has room for it
      have kLeafMaxKeys_eq := kLeafMaxKeys_eq
      have kInternalMaxKeys_eq := kInternalMaxKeys_eq
      obtain ⟨tree', inserted, crowded'⟩ := crowded.insert_full full (by omega) rid s.allocated
      obtain ⟨s', done, atMost, skeleton'⟩ := skeleton.insert_kept (crowded.branching 1) inserted (by omega)
      exact ⟨s', done, by omega, .inr ⟨many + 1, 146, tree', skeleton', crowded', by omega, Nat.le_refl _, by omega⟩⟩

theorem Packed.insert_last {nine : RID} (packed : s.Packed nine 49639) (room : s.allocated + 3 < invalidPageId)
    (rid : RID) :
    ∃ s', (BPlusTree.insert 5 rid).exec s = (.ok (), s') ∧ s'.allocated < invalidPageId ∧ ¬ s'.TwoChildren ∧
      ∃ s'', (BPlusTree.delete 9 nine).exec s' = (.error .undefined, s'') := by
  have kLeafMaxKeys_eq := kLeafMaxKeys_eq
  have kInternalMaxKeys_eq := kInternalMaxKeys_eq
  rcases packed with ⟨fits, -⟩ | ⟨many, m, tree, skeleton, crowded, total, least, most⟩
  · omega
  · obtain ⟨left, right, last, inserted, noKeys, only, last_eq⟩ :=
      crowded.insert_last (by omega) (by omega) rid s.allocated
    obtain ⟨s', done, -, atMost, after⟩ := skeleton.insert (crowded.branching 0) (by omega) inserted
    simp only at atMost
    have room' : s'.allocated < invalidPageId := by omega
    obtain ⟨root, skeleton', keys_eq, children_eq⟩ := (after room').2 9 right rfl
    refine ⟨s', done, room', fun two => ?_, ?_⟩
    · have rightBranching := ((skeleton'.twoChildren_iff room').mp two).2.2 right (by simp [children_eq])
      have bare : 1 ≤ right.keys.length := rightBranching.2.1
      rw [noKeys] at bare
      exact Nat.not_succ_le_zero 0 bare
    · have halves := (insert_branching (crowded.branching 0) inserted (Nat.zero_le 1) (by simp)).2 (by simp)
      have rootBranching : Branching 0 0 2 root := by
        refine ⟨by simp [keys_eq, children_eq], Nat.zero_le _, ?_⟩
        rw [children_eq]
        simpa [Inserted.trees] using halves
      exact skeleton'.delete_undefined rootBranching room' (delete_nine keys_eq children_eq noKeys only last_eq)

end BPlusTree

namespace TreeOp

/-- One key, then another one `n` times. -/
def crowding (n : Nat) : List TreeOp :=
  insert 9 ⟨0, 0⟩ :: (List.range n).map fun i => insert 5 ⟨i + 1, 0⟩

theorem crowding_succ (n : Nat) : crowding (n + 1) = crowding n ++ [insert 5 ⟨n + 1, 0⟩] := by
  simp [crowding, List.range_succ]

theorem crowding_packed (n : Nat) (few : n ≤ 49639) :
    ∃ s, (applyAll (crowding n)).exec {} = (.ok (List.replicate (n + 1) true), s) ∧ s.allocated ≤ 3 * n + 2 ∧
      s.Packed ⟨0, 0⟩ n := by
  induction n with
  | zero =>
    obtain ⟨s, leaf, inserted, allocated, entries_eq, skeleton⟩ :=
      BPlusTree.insert_empty (s := {}) 9 ⟨0, 0⟩ (by decide) rfl
    have two : s.allocated = 2 := allocated
    refine ⟨s, applyAll_insert inserted, by omega, .inl ⟨by decide, leaf, [], skeleton ?_, entries_eq, rfl⟩⟩
    rw [two]
    decide
  | succ n ih =>
    obtain ⟨s, done, allocated, packed⟩ := ih (by omega)
    obtain ⟨s', inserted, atMost, packed'⟩ :=
      packed.insert (by simp only [invalidPageId]; omega) (by omega) ⟨n + 1, 0⟩
    refine ⟨s', ?_, by omega, packed'⟩
    rw [crowding_succ, applyAll_append done (applyAll_insert inserted), ← List.replicate_succ']

theorem crowding_lacks_sibling (n : Nat) (last : n = 49639) : ∃ tree,
    (applyAll (crowding (n + 1))).exec {} = (.ok (List.replicate (n + 2) true), tree) ∧
      tree.allocated < 2 ^ 32 - 1 ∧ ¬ tree.TwoChildren ∧
      ∃ tree', (BPlusTree.delete 9 ⟨0, 0⟩).exec tree = (.error .undefined, tree') := by
  obtain ⟨s, done, allocated, packed⟩ := crowding_packed n (by omega)
  rw [last] at packed
  obtain ⟨s', inserted, room, lacking, undefined⟩ :=
    packed.insert_last (by simp only [invalidPageId]; omega) ⟨n + 1, 0⟩
  refine ⟨s', ?_, room, lacking, undefined⟩
  rw [crowding_succ, applyAll_append done (applyAll_insert inserted), ← List.replicate_succ']

theorem delete_without_sibling : ∃ tree,
    (applyAll (crowding 49640)).exec {} = (.ok (List.replicate 49641 true), tree) ∧ tree.allocated < 2 ^ 32 - 1 ∧
      ¬ tree.TwoChildren ∧ ∃ tree', (BPlusTree.delete 9 ⟨0, 0⟩).exec tree = (.error .undefined, tree') :=
  crowding_lacks_sibling 49639 rfl

end TreeOp

end FlintDB
