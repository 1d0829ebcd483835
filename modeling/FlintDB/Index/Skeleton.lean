import FlintDB.Index.Branching
import FlintDB.Index.DeleteSimulation

set_option autoImplicit false

-- Insert and Delete on the pages do what they do on the tree, and keep the leaves in their chain. None of it needs
-- the keys to be in order.

namespace FlintDB

open Lib FlintDB.Tree Fallible

theorem length_le_of_nodup_lt {ids : List Nat} {bound : Nat} (nodup : ids.Nodup)
    (below : ∀ id ∈ ids, id < bound) : ids.length ≤ bound := by
  have inRange : ids ⊆ List.range bound := fun id member => List.mem_range.mpr (below id member)
  simpa using (nodup.subperm inRange).length_le

namespace BPlusTree

variable {key : Int} {rid : RID} {s : BPlusTree} {h : Nat}

structure Skeleton (s : BPlusTree) (tree : Tree h) : Prop where
  root : s.rootPageId = pageId h tree
  held : Held s.pages h tree
  nodup : (pageIds h tree).Nodup
  inFile : ∀ page ∈ pageIds h tree, 0 < page ∧ page < s.allocated
  linked : Linked LeafNode.pageId LeafNode.nextLeaf invalidPageId (leaves h tree)

theorem insert_empty (key : Int) (rid : RID) (header : 0 < s.allocated) (empty : s.rootPageId = invalidPageId) :
    ∃ (s' : BPlusTree) (leaf : LeafNode), (insert key rid).exec s = (.ok (), s') ∧ s'.allocated = s.allocated + 1 ∧
      leaf.entries = [(key, rid)] ∧ (s'.allocated < invalidPageId → s'.Skeleton (h := 0) leaf) := by
  have enter : (insert key rid).exec s = (.ok (), { s with
      pages := fun other => if other = wrapPageId s.allocated then
        some (.leaf { pageId := wrapPageId s.allocated, entries := [(key, rid)] }) else s.pages other
      rootPageId := wrapPageId s.allocated, allocated := s.allocated + 1 }) := by
    rw [insert, exec_bind_ok (exec_get s)]
    simp only [empty, if_true]
    rfl
  refine ⟨_, { pageId := wrapPageId s.allocated, entries := [(key, rid)] }, enter, rfl, rfl,
    fun room => ⟨rfl, ?_, ?_, ?_, ?_⟩⟩
  · simp [Held]
  · simp [pageIds]
  · have small : wrapPageId s.allocated = s.allocated := wrapPageId_of_lt (by
      simp only [invalidPageId] at room
      omega)
    simp [pageIds, small, header]
  · exact ⟨rfl, trivial⟩

namespace Skeleton

variable {tree : Tree h} (skeleton : s.Skeleton tree)
include skeleton

theorem root_ne (room : s.allocated < invalidPageId) : s.rootPageId ≠ invalidPageId := by
  have below := (skeleton.inFile _ (pageId_mem h tree)).2
  rw [skeleton.root]
  omega

theorem pageIds_le : (pageIds h tree).length ≤ s.allocated :=
  length_le_of_nodup_lt skeleton.nodup fun page member => (skeleton.inFile page member).2

theorem height_lt {least inner : Nat} (branching : Branching least inner h tree) : h < s.allocated :=
  Nat.lt_of_lt_of_le (height_lt_pageIds branching) skeleton.pageIds_le

theorem placed {result : Inserted h} (inserted : Tree.insert key rid h tree s.allocated = some result) {s₁ : BPlusTree}
    {fuel : Nat} (inserts : Inserts key rid fuel tree result s s₁) (room : result.allocated ≤ 2 ^ 32) :
    (∀ half ∈ result.trees, Held s₁.pages h half) ∧ (result.trees.flatMap (pageIds h)).Nodup ∧
      ∀ page ∈ result.trees.flatMap (pageIds h), 0 < page ∧ page < result.allocated := by
  have pages := insert_pageIds inserted room
  have le := insert_allocated_le inserted
  refine ⟨(inserts.stored room skeleton.nodup fun page member => (skeleton.inFile page member).2).1, ?_, ?_⟩
  · refine pages.nodup_iff.mpr (List.nodup_append.mpr ⟨skeleton.nodup, List.nodup_range', ?_⟩)
    intro page member other fresh
    have below := (skeleton.inFile page member).2
    rw [List.mem_range'_1] at fresh
    omega
  · intro page member
    have header := (skeleton.inFile _ (pageId_mem h tree)).1
    rcases List.mem_append.mp (pages.mem_iff.mp member) with old | fresh
    · exact ⟨(skeleton.inFile page old).1, Nat.lt_of_lt_of_le (skeleton.inFile page old).2 le⟩
    · have rootBelow := (skeleton.inFile _ (pageId_mem h tree)).2
      rw [List.mem_range'_1] at fresh
      omega

theorem exec_insert {least inner : Nat} (branching : Branching least inner h tree) (room : s.allocated < invalidPageId)
    {result : Inserted h} (inserted : Tree.insert key rid h tree s.allocated = some result) :
    ∃ s₁, Inserts key rid s.allocated tree result s s₁ ∧ (BPlusTree.insert key rid).exec s =
      result.splitResult.elim (.ok (), s₁) fun split => (.ok (), { s₁ with
        pages := fun other => if other = wrapPageId s₁.allocated then
          some (.internal { pageId := wrapPageId s₁.allocated, keys := [split.splitKey]
                            children := [s.rootPageId, split.newRightPageId] }) else s₁.pages other
        rootPageId := wrapPageId s₁.allocated, allocated := s₁.allocated + 1 }) := by
  obtain ⟨s₁, inserts⟩ := insertRecursive_exec skeleton.held (skeleton.height_lt branching) inserted
  have done := inserts.done
  rw [← skeleton.root] at done
  refine ⟨s₁, inserts, ?_⟩
  rw [BPlusTree.insert, exec_bind_ok (exec_get s)]
  simp only [skeleton.root_ne room, if_false]
  rw [exec_bind_ok done]
  cases result.splitResult <;> rfl

theorem insert_allocated {least inner : Nat} (branching : Branching least inner h tree)
    (room : s.allocated < invalidPageId) {result : Inserted h}
    (inserted : Tree.insert key rid h tree s.allocated = some result) :
    ((BPlusTree.insert key rid).exec s).2.allocated = result.allocated + result.split.toList.length := by
  obtain ⟨s₁, inserts, enter⟩ := skeleton.exec_insert branching room inserted
  rw [enter, Inserted.splitResult]
  cases result.split with
  | none => exact inserts.allocated
  | some halves => exact congrArg Nat.succ inserts.allocated

theorem insert {least inner : Nat} (branching : Branching least inner h tree) (room : s.allocated < invalidPageId)
    {result : Inserted h} (inserted : Tree.insert key rid h tree s.allocated = some result) :
    ∃ s', (insert key rid).exec s = (.ok (), s') ∧ result.allocated ≤ s'.allocated ∧
      s'.allocated ≤ result.allocated + 1 ∧
      (s'.allocated < invalidPageId → (result.split = none → s'.Skeleton result.tree) ∧
        ∀ splitKey right, result.split = some (splitKey, right) → ∃ root : InternalNode (Tree h),
          s'.Skeleton (h := h + 1) root ∧ root.keys = [splitKey] ∧ root.children = [result.tree, right]) := by
  obtain ⟨s₁, inserts, enter⟩ := skeleton.exec_insert branching room inserted
  have allocated₁ := inserts.allocated
  have placed := skeleton.placed inserted inserts
  have linked := (insert_relinks inserted).linked _ skeleton.linked
  have samePage := insert_pageId inserted
  cases split : result.split with
  | none =>
    simp only [Inserted.splitResult, split, Option.map_none] at enter
    refine ⟨s₁, enter, by omega, by omega, fun room => ⟨fun _ => ?_, fun _ _ isSome => absurd isSome (by simp)⟩⟩
    obtain ⟨held, nodup, inFile⟩ := placed (by simp only [invalidPageId] at room; omega)
    simp only [Inserted.trees, split, Option.toList_none, List.map_nil, List.flatMap_cons, List.flatMap_nil,
      List.append_nil, List.mem_singleton, forall_eq] at held nodup inFile linked
    exact ⟨by rw [inserts.root, skeleton.root, samePage], held, nodup, by rw [allocated₁]; exact inFile, linked⟩
  | some halvesOf =>
    obtain ⟨splitKey, right⟩ := halvesOf
    simp only [Inserted.splitResult, split, Option.map_some] at enter
    refine ⟨_, enter, by simp only; omega, by simp only; omega, fun room => ⟨fun isNone => absurd isNone (by simp), ?_⟩⟩
    intro _ _ isSplit
    cases isSplit
    have small : wrapPageId s₁.allocated = result.allocated := by
      simp only [invalidPageId] at room
      rw [allocated₁] at room ⊢
      exact wrapPageId_of_lt (by omega)
    obtain ⟨held, nodup, inFile⟩ := placed (by simp only [invalidPageId] at room; omega)
    have le := insert_allocated_le inserted
    have rootBelow := skeleton.inFile _ (pageId_mem h tree)
    simp only [Inserted.trees, split, Option.toList_some, List.map_cons, List.map_nil] at held nodup inFile linked
    refine ⟨{ pageId := wrapPageId s₁.allocated, keys := [splitKey], children := [result.tree, right] },
      ⟨rfl, ⟨?_, fun half isHalf => (held half isHalf).congr fun page inside => ?_⟩, ?_, ?_, linked⟩, rfl, rfl⟩
    · simp [InternalNode.map, samePage, skeleton.root]
    · have below := (inFile page (List.mem_flatMap.mpr ⟨half, isHalf, inside⟩)).2
      simp [small, Nat.ne_of_lt below]
    · refine List.nodup_cons.mpr ⟨fun inside => ?_, nodup⟩
      have below : wrapPageId s₁.allocated < result.allocated := (inFile _ inside).2
      omega
    · intro page member
      rcases List.mem_cons.mp member with rfl | inside
      · show 0 < wrapPageId s₁.allocated ∧ wrapPageId s₁.allocated < s₁.allocated + 1
        omega
      · have within := inFile page inside
        simp only [allocated₁]
        omega

end Skeleton

def Collapses (s : BPlusTree) : (h : Nat) → Tree h → Prop
  | 0, (leaf : LeafNode) =>
    (leaf.keys = [] ∧ s.rootPageId = invalidPageId) ∨ (leaf.keys ≠ [] ∧ s.Skeleton (h := 0) leaf)
  | h + 1, (node : InternalNode (Tree h)) =>
    (∃ only, node.children = [only] ∧ s.Skeleton only) ∨
      ((∀ only, node.children ≠ [only]) ∧ s.Skeleton (h := h + 1) node)

theorem Skeleton.collapseRoot {tree : Tree h} (skeleton : s.Skeleton tree) :
    ∃ s', (collapseRoot (pageId h tree)).exec s = (.ok (), s') ∧ s'.allocated = s.allocated ∧ s'.Collapses h tree := by
  cases h with
  | zero =>
    have onPage : s.pages (pageId 0 tree) = some (.leaf tree) := skeleton.held
    rw [BPlusTree.collapseRoot, exec_bind_ok (fetchPage_exec onPage)]
    by_cases empty : LeafNode.keys tree = []
    · simp only [empty, if_true]
      exact ⟨_, rfl, rfl, .inl ⟨empty, rfl⟩⟩
    · simp only [empty, if_false]
      exact ⟨s, rfl, rfl, .inr ⟨empty, skeleton⟩⟩
  | succ h =>
    have onPage : s.pages (pageId (h + 1) tree) = some (.internal (tree.map (pageId h))) := skeleton.held.1
    rw [BPlusTree.collapseRoot, exec_bind_ok (fetchPage_exec onPage)]
    match children_eq : tree.children with
    | [only] =>
      have mapped : (tree.map (pageId h)).children = [pageId h only] := by
        simp [InternalNode.map, children_eq]
      have nodup := skeleton.nodup
      have linked := skeleton.linked
      have inFile := skeleton.inFile
      simp only [pageIds, leaves, children_eq, List.flatMap_cons, List.flatMap_nil, List.append_nil]
        at nodup linked inFile
      simp only [mapped]
      exact ⟨_, rfl, rfl, .inl ⟨only, children_eq, rfl, skeleton.held.2 only (by simp [children_eq]), nodup.of_cons,
        fun page member => inFile page (List.mem_cons_of_mem _ member), linked⟩⟩
    | [] =>
      have mapped : (tree.map (pageId h)).children = [] := by simp [InternalNode.map, children_eq]
      simp only [mapped]
      exact ⟨s, rfl, rfl, .inr ⟨by simp [children_eq], skeleton⟩⟩
    | first :: second :: rest =>
      have mapped : (tree.map (pageId h)).children =
          pageId h first :: pageId h second :: rest.map (pageId h) := by
        simp [InternalNode.map, children_eq]
      simp only [mapped]
      exact ⟨s, rfl, rfl, .inr ⟨by simp [children_eq], skeleton⟩⟩

theorem Skeleton.exec_delete {tree : Tree h} (skeleton : s.Skeleton tree) (room : s.allocated < invalidPageId) :
    (delete key rid).exec s =
      (deleteRecursive key rid s.allocated (pageId h tree) true >>= fun result =>
        if result.found then BPlusTree.collapseRoot (pageId h tree) >>= fun _ => pure true else pure false :
          BTreeM Bool).exec s := by
  rw [BPlusTree.delete, exec_bind_ok (exec_get s)]
  simp only [skeleton.root_ne room, if_false]
  rw [skeleton.root]

namespace Skeleton

variable {tree : Tree h} (skeleton : s.Skeleton tree) {least inner : Nat} (branching : Branching least inner h tree)
  (room : s.allocated < invalidPageId)
include skeleton branching room

theorem delete_absent (deleted : Tree.delete key rid h tree true = some none) :
    (delete key rid).exec s = (.ok false, s) := by
  obtain ⟨s₁, deletes⟩ := deleteRecursive_exec skeleton.held skeleton.nodup (skeleton.height_lt branching) deleted
  rw [skeleton.exec_delete room, exec_bind_ok deletes.done, deletes.unchanged rfl]
  rfl

theorem delete_present {tree' : Tree h} {underflow : Bool}
    (deleted : Tree.delete key rid h tree true = some (some (tree', underflow))) :
    ∃ s', (delete key rid).exec s = (.ok true, s') ∧ s'.allocated = s.allocated ∧ s'.Collapses h tree' := by
  obtain ⟨s₁, deletes⟩ := deleteRecursive_exec skeleton.held skeleton.nodup (skeleton.height_lt branching) deleted
  obtain ⟨samePage, fewer⟩ := delete_pageIds deleted
  have after : s₁.Skeleton tree' := by
    refine ⟨by rw [deletes.root, skeleton.root, samePage], deletes.held _ _ rfl, ?_, fun page member => ?_,
      (delete_entries deleted).2.linked _ skeleton.linked⟩
    · obtain ⟨same, isPerm, isSublist⟩ := fewer
      exact isPerm.nodup (isSublist.nodup skeleton.nodup)
    · rw [deletes.allocated]
      exact skeleton.inFile page (fewer.subset member)
  obtain ⟨s₂, collapsed, allocated, collapses⟩ := after.collapseRoot
  refine ⟨s₂, ?_, allocated.trans deletes.allocated, collapses⟩
  rw [samePage] at collapsed
  rw [skeleton.exec_delete room, exec_bind_ok deletes.done]
  simp only [Option.isSome_some, if_true]
  rw [exec_bind_ok collapsed]
  rfl

end Skeleton

@[simp] theorem orUndefined_none_exec {α : Type} (s : BPlusTree) :
    (orUndefined (none : Option α)).exec s = (.error .undefined, s) := rfl

theorem fixUnderflow_undefined {parent : InternalNode (Tree h)} {idx : Nat}
    (missing : Tree.fixUnderflow h parent idx = none) (held : ∀ child ∈ parent.children, Held s.pages h child) :
    (fixUnderflow (parent.map (pageId h)) idx).exec s = (.error .undefined, s) := by
  cases isChild : parent.children[idx]? with
  | none =>
    have atIdx : (parent.map (pageId h)).children[idx]? = none := by simp [InternalNode.map, isChild]
    rw [fixUnderflow, atIdx, exec_bind_error (orUndefined_none_exec s)]
  | some child =>
    have member := List.mem_of_getElem? isChild
    have atIdx : (parent.map (pageId h)).children[idx]? = some (pageId h child) := by simp [InternalNode.map, isChild]
    rw [fixUnderflow, atIdx, exec_bind_ok (orUndefined_exec ..), exec_bind_ok (exec_get s)]
    cases h with
    | zero =>
      have stored : s.pages (pageId 0 child) = some (.leaf child) := held child member
      have readable : ∀ leaf ∈ parent.children, s.readLeaf leaf.pageId = some leaf := by
        intro leaf isLeaf
        have onPage : s.pages leaf.pageId = some (.leaf leaf) := held leaf isLeaf
        rw [readLeaf, onPage]
      have notFixed : fixLeaf (fun leaf : LeafNode => some leaf) parent idx = none := by
        cases found : fixLeaf (fun leaf : LeafNode => some leaf) parent idx with
        | none => rfl
        | some fixed =>
          simp only [Tree.fixUnderflow, found] at missing
          cases missing
      rw [exec_bind_ok (fetchPage_exec stored)]
      simp only [show pageId 0 = LeafNode.pageId from rfl, fixLeaf_read idx readable, notFixed]
      rw [exec_bind_error (orUndefined_none_exec s)]
    | succ h =>
      have readable : ∀ node ∈ parent.children, s.readInternal node.pageId = some (node.map (pageId h)) := by
        intro node isNode
        have onPage : s.pages (pageId (h + 1) node) = some (.internal (node.map (pageId h))) := (held node isNode).1
        rw [readInternal, onPage]
      have notFixed : fixInternal (fun node : InternalNode (Tree h) => some node) parent idx = none := by
        cases found : fixInternal (fun node : InternalNode (Tree h) => some node) parent idx with
        | none => rfl
        | some fixed =>
          simp only [Tree.fixUnderflow, found] at missing
          cases missing
      have stored : s.pages (pageId (h + 1) child) = some (.internal (child.map (pageId h))) := (held child member).1
      rw [exec_bind_ok (fetchPage_exec stored)]
      simp only [show pageId (h + 1) = InternalNode.pageId from rfl, fixInternal_read idx readable, notFixed,
        Option.map_none]
      rw [exec_bind_error (orUndefined_none_exec s)]

theorem deleteRecursive_undefined {tree : Tree h} {isRoot : Bool} {fuel : Nat} (held : Held s.pages h tree)
    (nodup : (pageIds h tree).Nodup) (deep : h < fuel) (missing : Tree.delete key rid h tree isRoot = none) :
    ∃ s', (deleteRecursive key rid fuel (pageId h tree) isRoot).exec s = (.error .undefined, s') := by
  induction h generalizing fuel isRoot with
  | zero =>
    simp only [Tree.delete] at missing
    split at missing <;> cases missing
  | succ h ih =>
    obtain ⟨fuel, rfl⟩ : ∃ rest, fuel = rest + 1 := ⟨fuel - 1, by omega⟩
    have stored : s.pages (pageId (h + 1) tree) = some (.internal (tree.map (pageId h))) := held.1
    rw [deleteRecursive, exec_bind_ok (fetchPage_exec stored)]
    simp only
    cases isChild : tree.children[upperBound tree.keys key]? with
    | none =>
      have atIdx : (tree.map (pageId h)).children[upperBound (tree.map (pageId h)).keys key]? = none := by
        simp [InternalNode.map, isChild]
      rw [atIdx, exec_bind_error (orUndefined_none_exec s)]
      exact ⟨s, rfl⟩
    | some child =>
      have member := List.mem_of_getElem? isChild
      have atIdx : (tree.map (pageId h)).children[upperBound (tree.map (pageId h)).keys key]? = some (pageId h child) := by
        simp [InternalNode.map, isChild]
      obtain ⟨before, after, children_eq, position⟩ := exists_split_of_getElem? isChild
      have childNodup : (pageIds h child).Nodup := by
        have below := (List.nodup_cons.mp nodup).2
        simp only [children_eq, List.flatMap_append, List.flatMap_cons, List.nodup_append] at below
        exact below.2.1.1
      rw [atIdx, exec_bind_ok (orUndefined_exec ..)]
      cases childDeleted : Tree.delete key rid h child false with
      | none =>
        obtain ⟨s', thrown⟩ := ih (held.2 child member) childNodup (by omega : h < fuel) childDeleted
        rw [exec_bind_error thrown]
        exact ⟨s', rfl⟩
      | some childResult =>
        obtain ⟨s₁, deletes⟩ := deleteRecursive_exec (held.2 child member) childNodup (by omega : h < fuel) childDeleted
        have isReplaced : ∀ child', ({ tree with children := tree.children.set (upperBound tree.keys key) child' } :
            InternalNode (Tree h)) = replaced tree before after child' := by
          intro child'
          rw [← position]
          simp [replaced, children_eq]
        simp only [Tree.delete, isChild, childDeleted, Option.bind_eq_bind, Option.bind_some, isReplaced] at missing
        rcases childResult with _ | ⟨child', _ | _⟩
        · cases missing
        · cases missing
        · simp only [if_true, Option.bind_eq_none_iff, reduceCtorEq, imp_false] at missing
          have unfixed : Tree.fixUnderflow h (replaced tree before after child') (upperBound tree.keys key) = none :=
            Option.eq_none_iff_forall_ne_some.mpr missing
          have heldNow := replaced_held children_eq (List.nodup_cons.mp nodup).2 held.2 deletes.framed
            (deletes.held _ _ rfl)
          have undefined := fixUnderflow_undefined unfixed heldNow
          have sameNode : (replaced tree before after child').map (pageId h) = tree.map (pageId h) := by
            simp [InternalNode.map, replaced, children_eq, (delete_pageIds childDeleted).1]
          rw [sameNode] at undefined
          rw [exec_bind_ok deletes.done]
          simp only [Option.isSome_some, if_true]
          exact ⟨s₁, exec_bind_error undefined⟩

theorem Skeleton.delete_undefined {tree : Tree h} (skeleton : s.Skeleton tree) {least inner : Nat}
    (branching : Branching least inner h tree) (room : s.allocated < invalidPageId)
    (missing : Tree.delete key rid h tree true = none) :
    ∃ s', (delete key rid).exec s = (.error .undefined, s') := by
  obtain ⟨s', thrown⟩ :=
    deleteRecursive_undefined skeleton.held skeleton.nodup (skeleton.height_lt branching) missing
  exact ⟨s', by rw [skeleton.exec_delete room, exec_bind_error thrown]⟩

end BPlusTree

end FlintDB
