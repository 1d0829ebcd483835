import FlintDB.Index.Tree
import Mathlib.Data.List.Perm.Basic
import Mathlib.Data.List.Flatten

set_option autoImplicit false

-- While the pages hold a tree, what btree.cpp does to the pages is what `Tree.insert` and `Tree.delete` do to the
-- tree. Nothing here asks for order or fill.

namespace FlintDB

open Lib

namespace Tree

theorem Held.congr {pages pages' : Nat → Option Node} {h : Nat} {tree : Tree h}
    (held : Held pages h tree) (same : ∀ pageId ∈ pageIds h tree, pages' pageId = pages pageId) :
    Held pages' h tree := by
  induction h with
  | zero =>
    have here := same _ List.mem_cons_self
    exact here.trans held
  | succ h ih =>
    refine ⟨(same _ List.mem_cons_self).trans held.1, fun child member => ?_⟩
    refine ih (held.2 child member) fun pageId inChild => same pageId ?_
    exact List.mem_cons_of_mem _ (List.mem_flatMap.mpr ⟨child, member, inChild⟩)

theorem pageId_mem : (h : Nat) → (tree : Tree h) → pageId h tree ∈ pageIds h tree
  | 0, _ => List.mem_cons_self
  | _ + 1, _ => List.mem_cons_self

theorem insert_pageId {key : Int} {rid : RID} {h : Nat} {tree : Tree h} {allocated : Nat}
    {result : Inserted h} (inserted : insert key rid h tree allocated = some result) :
    pageId h result.tree = pageId h tree := by
  cases h with
  | zero => rcases insert_leaf inserted with ⟨-, rfl⟩ | ⟨-, rfl⟩ <;> rfl
  | succ h =>
    obtain ⟨_, _, _, _, _, _, -, -, -, -, -, ⟨-, rfl⟩ | ⟨-, rfl⟩⟩ := insert_internal inserted <;> rfl

theorem insert_allocated_le {key : Int} {rid : RID} {h : Nat} {tree : Tree h} {allocated : Nat}
    {result : Inserted h} (inserted : insert key rid h tree allocated = some result) :
    allocated ≤ result.allocated := by
  induction h with
  | zero =>
    rcases insert_leaf inserted with ⟨-, rfl⟩ | ⟨-, rfl⟩
    · exact Nat.le_refl _
    · exact Nat.le_succ _
  | succ h ih =>
    obtain ⟨_, _, _, _, _, childResult, -, -, -, -, childInserted, ⟨-, rfl⟩ | ⟨-, rfl⟩⟩ :=
      insert_internal inserted
    · exact ih childInserted
    · exact Nat.le_succ_of_le (ih childInserted)

theorem insert_pageIds {key : Int} {rid : RID} {h : Nat} {tree : Tree h} {allocated : Nat}
    {result : Inserted h} (inserted : insert key rid h tree allocated = some result)
    (room : result.allocated ≤ 2 ^ 32) :
    (result.trees.flatMap (pageIds h)).Perm
      (pageIds h tree ++ List.range' allocated (result.allocated - allocated)) := by
  induction h with
  | zero =>
    rcases insert_leaf inserted with ⟨-, rfl⟩ | ⟨-, rfl⟩
    · simp [Inserted.trees, pageIds, LeafNode.insert]
    · have small := BPlusTree.wrapPageId_of_lt room
      simp [splitLeaf, Inserted.trees, pageIds, LeafNode.insert, LeafNode.split, small]
  | succ h ih =>
    obtain ⟨keys₁, keys₂, before, child, after, childResult, -, children_eq, -, -, childInserted, outcome⟩ :=
      insert_internal inserted
    have le := insert_allocated_le childInserted
    rcases outcome with ⟨-, rfl⟩ | ⟨-, rfl⟩
    · have step := ih childInserted room
      rw [List.perm_iff_count] at step ⊢
      intro pageId
      have counted := step pageId
      simp only [Inserted.trees, pageIds, grown, children_eq, List.flatMap_append, List.flatMap_cons,
        List.count_append, List.count_cons, Option.toList_none, List.map_nil, List.flatMap_nil,
        List.append_nil] at counted ⊢
      omega
    · have small := BPlusTree.wrapPageId_of_lt room
      have step := ih childInserted (Nat.le_of_succ_le room)
      rw [List.perm_iff_count] at step ⊢
      intro pageId
      have counted := step pageId
      simp only [splitInternal, InternalNode.split, small]
      generalize findSplitBoundary _ _ + 1 = cut
      have halves := congrArg (fun children => (children.flatMap (pageIds h)).count pageId)
        (List.take_append_drop cut (grown tree keys₁ keys₂ before after childResult).children)
      have grew : List.range' allocated (childResult.allocated + 1 - allocated) =
          List.range' allocated (childResult.allocated - allocated) ++ [childResult.allocated] := by
        rw [Nat.sub_add_comm le, List.range'_concat]
        simp [Nat.add_sub_cancel' le]
      simp only [Inserted.trees, pageIds, grown, children_eq, grew, List.flatMap_append, List.flatMap_cons,
        List.count_append, List.count_cons, Option.toList_some, List.map_nil, List.flatMap_nil,
        List.append_nil, List.map_cons, List.count_nil] at counted halves ⊢
      omega

theorem splitInternal_map {h : Nat} (node : InternalNode (Tree h)) (mid rightPid : Nat) :
    (node.map (pageId h)).split mid rightPid =
      (((node.split mid rightPid).1).map (pageId h), (node.split mid rightPid).2.1,
        ((node.split mid rightPid).2.2).map (pageId h)) := by
  simp [InternalNode.split, InternalNode.map, List.map_take, List.map_drop]

def Framed {h : Nat} (tree : Tree h) (before after : BPlusTree) : Prop :=
  ∀ pageId ∉ pageIds h tree, pageId < before.allocated → after.pages pageId = before.pages pageId

end Tree

open FlintDB.Tree Fallible

def Tree.Inserted.splitResult {h : Nat} (inserted : Inserted h) : Option SplitResult :=
  inserted.split.map fun halves => ⟨halves.1, pageId h halves.2⟩

namespace BPlusTree

variable {key : Int} {rid : RID} {h fuel : Nat} {s : BPlusTree}

-- InsertRecursive on the pages of `tree` comes to `s'` and does there what `result` says. Only that the new nodes are
-- where they should be needs page ids not to wrap.
structure Inserts (key : Int) (rid : RID) (fuel : Nat) (tree : Tree h) (result : Inserted h)
    (s s' : BPlusTree) : Prop where
  done : (insertRecursive key rid fuel (pageId h tree)).exec s = (.ok result.splitResult, s')
  allocated : s'.allocated = result.allocated
  root : s'.rootPageId = s.rootPageId
  stored : result.allocated ≤ 2 ^ 32 → (pageIds h tree).Nodup →
    (∀ pageId ∈ pageIds h tree, pageId < s.allocated) →
    (∀ half ∈ result.trees, Held s'.pages h half) ∧ Framed tree s s'

theorem insertRecursive_leaf {leaf : LeafNode} (stored : s.pages leaf.pageId = some (.leaf leaf))
    {result : Inserted 0} (inserted : Tree.insert key rid 0 leaf s.allocated = some result) :
    ∃ s', Inserts (h := 0) key rid (fuel + 1) leaf result s s' := by
  suffices ∃ s', (insertRecursive key rid (fuel + 1) leaf.pageId).exec s = (.ok result.splitResult, s') ∧
      s'.allocated = result.allocated ∧ s'.rootPageId = s.rootPageId ∧
      (result.allocated ≤ 2 ^ 32 → leaf.pageId < s.allocated →
        (∀ half ∈ result.trees, Held s'.pages 0 half) ∧ Framed (h := 0) leaf s s') by
    obtain ⟨s', done, allocated, root, stored⟩ := this
    exact ⟨s', done, allocated, root, fun room _ old => stored room (old _ List.mem_cons_self)⟩
  rw [insertRecursive, exec_bind_ok (fetchPage_exec stored)]
  rcases insert_leaf inserted with ⟨fits, rfl⟩ | ⟨overflow, rfl⟩
  · simp only [finishLeaf, fits, if_true]
    rw [exec_bind_ok (storePage_exec ..)]
    refine ⟨_, rfl, rfl, rfl, fun _ _ => ⟨?_, fun pageId outside _ => ?_⟩⟩
    · simp [Inserted.trees, Held, LeafNode.insert]
    · simp only [pageIds, List.mem_singleton] at outside
      simp [outside]
  · simp only [finishLeaf, Nat.not_le.mpr overflow, if_false]
    rw [exec_bind_ok (newPage_exec ..), exec_bind_ok (storePage_exec ..), exec_bind_ok (storePage_exec ..)]
    refine ⟨_, rfl, rfl, rfl, fun room within => ?_⟩
    have small := wrapPageId_of_lt room
    have other : leaf.pageId ≠ s.allocated := Nat.ne_of_lt within
    refine ⟨?_, fun pageId outside old => ?_⟩
    · simp [Inserted.trees, splitLeaf, Held, LeafNode.split, LeafNode.insert, small, other]
    · simp only [pageIds, List.mem_singleton] at outside
      simp [outside, small, Nat.ne_of_lt old]

theorem grown_held {node : InternalNode (Tree h)} {keys₁ keys₂ : List Int} {before after : List (Tree h)}
    {child : Tree h} {childResult : Inserted h} {s₁ : BPlusTree}
    (children_eq : node.children = before ++ child :: after) (held : Held s.pages (h + 1) node)
    (nodup : (pageIds (h + 1) node).Nodup) (old : ∀ pageId ∈ pageIds (h + 1) node, pageId < s.allocated)
    (inserted : Tree.insert key rid h child s.allocated = some childResult)
    (room : childResult.allocated ≤ 2 ^ 32) (halves : ∀ half ∈ childResult.trees, Held s₁.pages h half)
    (framed : Framed child s s₁) :
    s₁.pages node.pageId = s.pages node.pageId ∧
      ∀ other ∈ (grown node keys₁ keys₂ before after childResult).children,
        Held s₁.pages h other ∧
          ∀ pageId ∈ pageIds h other, pageId ≠ node.pageId ∧ pageId < childResult.allocated := by
  have le := insert_allocated_le inserted
  have perm := insert_pageIds inserted room
  simp only [pageIds, children_eq, List.flatMap_append, List.flatMap_cons, List.nodup_cons, List.mem_append,
    not_or, List.mem_cons, List.nodup_append] at nodup old
  obtain ⟨⟨notBefore, notChild, notAfter⟩, -, ⟨-, -, childAfter⟩, beforeRest⟩ := nodup
  refine ⟨framed _ notChild (old _ (.inl rfl)), fun other member => ?_⟩
  simp only [grown, List.mem_append] at member
  rcases member with inBefore | inHalves | inAfter
  · have here : ∀ pageId ∈ pageIds h other, pageId ∈ before.flatMap (pageIds h) := fun pageId inside =>
      List.mem_flatMap.mpr ⟨other, inBefore, inside⟩
    refine ⟨(held.2 other (by simp [children_eq, inBefore])).congr fun pageId inside => ?_,
      fun pageId inside => ⟨?_, ?_⟩⟩
    · refine framed _ (fun inChild => ?_) (old _ (.inr (.inl (here _ inside))))
      exact beforeRest _ (here _ inside) _ (.inl inChild) rfl
    · rintro rfl
      exact notBefore (here _ inside)
    · exact Nat.lt_of_lt_of_le (old _ (.inr (.inl (here _ inside)))) le
  · refine ⟨halves other inHalves, fun pageId inside => ?_⟩
    have counted := perm.mem_iff.mp (List.mem_flatMap.mpr ⟨other, inHalves, inside⟩)
    rcases List.mem_append.mp counted with inChild | fresh
    · refine ⟨?_, Nat.lt_of_lt_of_le (old _ (.inr (.inr (.inl inChild)))) le⟩
      rintro rfl
      exact notChild inChild
    · have nodeOld := old _ (.inl rfl)
      rw [List.mem_range'_1] at fresh
      omega
  · have here : ∀ pageId ∈ pageIds h other, pageId ∈ after.flatMap (pageIds h) := fun pageId inside =>
      List.mem_flatMap.mpr ⟨other, inAfter, inside⟩
    refine ⟨(held.2 other (by simp [children_eq, inAfter])).congr fun pageId inside => ?_,
      fun pageId inside => ⟨?_, ?_⟩⟩
    · refine framed _ (fun inChild => ?_) (old _ (.inr (.inr (.inr (here _ inside)))))
      exact childAfter _ inChild _ (here _ inside) rfl
    · rintro rfl
      exact notAfter (here _ inside)
    · exact Nat.lt_of_lt_of_le (old _ (.inr (.inr (.inr (here _ inside))))) le

theorem grown_map {node : InternalNode (Tree h)} {keys₁ keys₂ : List Int} {before after : List (Tree h)}
    {child : Tree h} {childResult : Inserted h} (keys_eq : node.keys = keys₁ ++ keys₂)
    (children_eq : node.children = before ++ child :: after) (aligned : keys₁.length = before.length)
    (samePage : pageId h childResult.tree = pageId h child) :
    (grown node keys₁ keys₂ before after childResult).map (pageId h) =
      match childResult.splitResult with
      | none => node.map (pageId h)
      | some split => (node.map (pageId h)).insertChild before.length split.splitKey split.newRightPageId := by
  obtain ⟨tree, split, allocated⟩ := childResult
  rcases split with _ | ⟨splitKey, right⟩
  · simp [grown, InternalNode.map, Inserted.splitResult, Inserted.trees, Inserted.separators, keys_eq,
      children_eq, samePage]
  · have position : before.length + 1 = (before.map (pageId h) ++ [pageId h child]).length := by simp
    simp only [grown, InternalNode.map, InternalNode.insertChild, Inserted.splitResult, Inserted.trees,
      Inserted.separators, keys_eq, children_eq, samePage, Option.map_some, Option.toList_some,
      List.map_cons, List.map_nil, List.map_append, ← aligned, insertIdx_length]
    rw [aligned, position, List.append_cons (before.map (pageId h)), insertIdx_length]
    simp

theorem insertRecursive_internal {node : InternalNode (Tree h)} {result : Inserted (h + 1)}
    (held : Held s.pages (h + 1) node)
    (inserted : Tree.insert key rid (h + 1) node s.allocated = some result)
    (descends : ∀ child ∈ node.children, ∀ childResult,
      Tree.insert key rid h child s.allocated = some childResult →
      ∃ s₁, Inserts key rid fuel child childResult s s₁) :
    ∃ s', Inserts (h := h + 1) key rid (fuel + 1) node result s s' := by
  obtain ⟨keys₁, keys₂, before, child, after, childResult, keys_eq, children_eq, aligned, position,
    childInserted, outcome⟩ := insert_internal inserted
  obtain ⟨s₁, childDone, allocated₁, root₁, childStored⟩ :=
    descends child (by simp [children_eq]) _ childInserted
  have mapped := grown_map keys_eq children_eq aligned (insert_pageId childInserted)
  -- what the child's insertion leaves, in terms of the node
  have after₁ : childResult.allocated ≤ 2 ^ 32 → (pageIds (h + 1) node).Nodup →
      (∀ pageId ∈ pageIds (h + 1) node, pageId < s.allocated) → Framed (h := h + 1) node s s₁ ∧
      s₁.pages node.pageId = s.pages node.pageId ∧
      ∀ other ∈ (grown node keys₁ keys₂ before after childResult).children, Held s₁.pages h other ∧
        ∀ pageId ∈ pageIds h other, pageId ≠ node.pageId ∧ pageId < childResult.allocated := by
    intro room nodup old
    have inTree : ∀ pageId ∈ pageIds h child, pageId ∈ pageIds (h + 1) node := fun pageId inside =>
      List.mem_cons_of_mem _ (List.mem_flatMap.mpr ⟨child, by simp [children_eq], inside⟩)
    have childNodup : (pageIds h child).Nodup := by
      simp only [pageIds, children_eq, List.flatMap_append, List.flatMap_cons, List.nodup_cons,
        List.nodup_append] at nodup
      exact nodup.2.2.1.1
    have stored := childStored room childNodup fun pageId inside => old _ (inTree _ inside)
    exact ⟨fun pageId outside isOld => stored.2 pageId (fun inside => outside (inTree _ inside)) isOld,
      grown_held children_eq held nodup old childInserted room stored.1 stored.2⟩
  have atChild : (node.map (pageId h)).children[upperBound node.keys key]? = some (pageId h child) := by
    rw [← position]
    simp [InternalNode.map, children_eq]
  have enter : (insertRecursive key rid (fuel + 1) (pageId (h + 1) node)).exec s =
      (match childResult.splitResult with
        | none => (.ok none, s₁)
        | some _ => (finishInternal node.pageId
            ((grown node keys₁ keys₂ before after childResult).map (pageId h))).exec s₁) := by
    rw [show pageId (h + 1) node = node.pageId from rfl, insertRecursive,
      exec_bind_ok (fetchPage_exec held.1), mapped]
    simp only [InternalNode.map] at atChild ⊢
    rw [atChild, exec_bind_ok (orUndefined_exec ..), exec_bind_ok childDone, position]
    cases childResult.splitResult <;> rfl
  rcases outcome with ⟨fits, rfl⟩ | ⟨⟨splits, overflow⟩, rfl⟩
  · -- the pages of the node and of its children, whether or not the node was written
    have holds : ∀ s' : BPlusTree,
        s'.pages node.pageId = some (.internal ((grown node keys₁ keys₂ before after childResult).map
          (pageId h))) → (∀ pageId, pageId ≠ node.pageId → s'.pages pageId = s₁.pages pageId) →
        childResult.allocated ≤ 2 ^ 32 → (pageIds (h + 1) node).Nodup →
        (∀ pageId ∈ pageIds (h + 1) node, pageId < s.allocated) →
        Held s'.pages (h + 1) (grown node keys₁ keys₂ before after childResult) ∧
          Framed (h := h + 1) node s s' := by
      intro s' top same room nodup old
      obtain ⟨framed, -, children⟩ := after₁ room nodup old
      refine ⟨⟨top, fun other member => ?_⟩, fun pageId outside isOld => ?_⟩
      · obtain ⟨childHeld, elsewhere⟩ := children other member
        exact childHeld.congr fun pageId inside => same pageId (elsewhere pageId inside).1
      · rw [same pageId (fun isNode => outside (isNode ▸ List.mem_cons_self)), framed pageId outside isOld]
    cases split : childResult.splitResult with
    | none =>
      rw [split] at enter mapped
      refine ⟨s₁, enter, allocated₁, root₁, fun room nodup old => ?_⟩
      have held₁ : s₁.pages node.pageId = some (.internal (node.map (pageId h))) :=
        (after₁ room nodup old).2.1.trans held.1
      obtain ⟨grownHeld, framed⟩ :=
        holds s₁ (held₁.trans (by rw [mapped])) (fun _ _ => rfl) room nodup old
      exact ⟨by simpa [Inserted.trees] using grownHeld, framed⟩
    | some childSplit =>
      have isFit : (grown node keys₁ keys₂ before after childResult).keys.length ≤ kInternalMaxKeys := by
        rcases fits with isNone | isFit
        · simp [Inserted.splitResult, isNone] at split
        · exact isFit
      have short : ((grown node keys₁ keys₂ before after childResult).map (pageId h)).keys.length ≤
        kInternalMaxKeys := isFit
      rw [split] at enter
      simp only [finishInternal, short, if_true] at enter
      refine ⟨_, enter.trans (exec_bind_ok (storePage_exec ..)), allocated₁, root₁, fun room nodup old => ?_⟩
      obtain ⟨grownHeld, framed⟩ := holds (s₁.writePage node.pageId (.internal _)) (by simp; rfl)
        (fun pageId other => by simp [other]) room nodup old
      exact ⟨by simpa [Inserted.trees] using grownHeld, framed⟩
  · obtain ⟨childSplit, split⟩ : ∃ childSplit, childResult.splitResult = some childSplit := by
      cases isSplit : childResult.split with
      | none => exact absurd isSplit splits
      | some halves => exact ⟨_, by simp [Inserted.splitResult, isSplit]; rfl⟩
    rw [split] at enter
    have tooLong : ¬((grown node keys₁ keys₂ before after childResult).map (pageId h)).keys.length ≤
      kInternalMaxKeys := Nat.not_le.mpr overflow
    simp only [finishInternal, tooLong, if_false, splitInternal_map] at enter
    rw [exec_bind_ok (newPage_exec ..), exec_bind_ok (storePage_exec ..), exec_bind_ok (storePage_exec ..),
      allocated₁] at enter
    refine ⟨_, enter, by simp [splitInternal], root₁, fun room nodup old => ?_⟩
    have small := wrapPageId_of_lt room
    obtain ⟨framed, -, children⟩ := after₁ (Nat.le_of_succ_le room) nodup old
    have le := insert_allocated_le childInserted
    have nodeOld : node.pageId < s.allocated := old _ List.mem_cons_self
    have different : node.pageId ≠ childResult.allocated := by omega
    have keeps : ∀ (left right : InternalNode Nat),
        ∀ other ∈ (grown node keys₁ keys₂ before after childResult).children,
        Held ((({ s₁ with allocated := childResult.allocated + 1 } : BPlusTree).writePage node.pageId
          (.internal left)).writePage (wrapPageId childResult.allocated) (.internal right)).pages h other := by
      intro left right other member
      obtain ⟨childHeld, elsewhere⟩ := children other member
      refine childHeld.congr fun pageId inside => ?_
      obtain ⟨notNode, isOld⟩ := elsewhere pageId inside
      simp [notNode, small, Nat.ne_of_lt isOld]
    refine ⟨fun half isHalf => ?_, fun pageId outside isOld => ?_⟩
    · simp only [Inserted.trees, splitInternal, Option.toList_some, List.map_cons, List.map_nil,
        List.mem_cons, List.not_mem_nil, or_false] at isHalf
      rcases isHalf with rfl | rfl
      · refine ⟨?_, fun other member => keeps _ _ other (List.mem_of_mem_take member)⟩
        simp [InternalNode.split, InternalNode.map, grown, small, different]
      · refine ⟨?_, fun other member => keeps _ _ other (List.mem_of_mem_drop member)⟩
        simp [InternalNode.split, InternalNode.map]
    · have notNode : pageId ≠ node.pageId := fun isNode => outside (isNode ▸ List.mem_cons_self)
      have notNew : pageId ≠ childResult.allocated := by omega
      simpa [notNode, small, notNew] using framed pageId outside isOld

theorem insertRecursive_exec {tree : Tree h} (held : Held s.pages h tree) (deep : h < fuel)
    {result : Inserted h} (inserted : Tree.insert key rid h tree s.allocated = some result) :
    ∃ s', Inserts key rid fuel tree result s s' := by
  induction h generalizing fuel with
  | zero =>
    obtain ⟨fuel, rfl⟩ : ∃ rest, fuel = rest + 1 := ⟨fuel - 1, by omega⟩
    exact insertRecursive_leaf held inserted
  | succ h ih =>
    obtain ⟨fuel, rfl⟩ : ∃ rest, fuel = rest + 1 := ⟨fuel - 1, by omega⟩
    exact insertRecursive_internal held inserted fun child member childResult childInserted =>
      ih (held.2 child member) (by omega) childInserted

end BPlusTree

end FlintDB
