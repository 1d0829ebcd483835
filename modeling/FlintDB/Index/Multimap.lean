import FlintDB.Index.Skeleton
import Mathlib.Algebra.Order.BigOperators.Group.List
import Mathlib.Data.List.Nodup

set_option autoImplicit false

-- From the empty tree on, whatever is inserted and deleted, a search finds what is stored under its key and the leaf
-- chain lists everything in key order.

namespace FlintDB

open Lib FlintDB.Tree Fallible

theorem two_pow_le_pageIds {leafLeast innerLeast h : Nat} {low high : Option Int} {tree : Tree h}
    (fits : WellFormed leafLeast innerLeast h low high tree) (notBare : 1 ≤ innerLeast) :
    2 ^ h ≤ (pageIds h tree).length := by
  induction h generalizing leafLeast innerLeast low high with
  | zero => simp [pageIds]
  | succ h ih =>
    obtain ⟨least_le, -, routed⟩ := fits
    have length := routed.length
    have childPages : ∀ child ∈ tree.children, 2 ^ h ≤ (pageIds h child).length := fun child member => by
      obtain ⟨_, _, childFits⟩ := routed.exists_fits member
      exact ih childFits (by decide)
    obtain ⟨first, second, rest, children_eq⟩ : ∃ first second rest, tree.children = first :: second :: rest := by
      rcases children : tree.children with _ | ⟨first, _ | ⟨second, rest⟩⟩
      · simp only [children, List.length_nil] at length
        omega
      · simp only [children, List.length_cons, List.length_nil] at length
        omega
      · exact ⟨first, second, rest, rfl⟩
    have firstPages := childPages first (by simp [children_eq])
    have secondPages := childPages second (by simp [children_eq])
    simp only [pageIds, children_eq, List.flatMap_cons, List.length_cons, List.length_append, pow_succ]
    omega

namespace BPlusTree

variable {key : Int} {rid : RID} {s : BPlusTree} {h : Nat}

structure Shape (s : BPlusTree) (tree : Tree h) : Prop where
  root : s.rootPageId = pageId h tree
  held : Held s.pages h tree
  nodup : (pageIds h tree).Nodup
  inFile : ∀ page ∈ pageIds h tree, 0 < page ∧ page < s.allocated
  fits : WellFormed 1 1 h none none tree
  linked : Linked LeafNode.pageId LeafNode.nextLeaf invalidPageId (leaves h tree)

theorem Shape.skeleton {tree : Tree h} (shape : s.Shape tree) : s.Skeleton tree :=
  ⟨shape.root, shape.held, shape.nodup, shape.inFile, shape.linked⟩

theorem Skeleton.shape {tree : Tree h} (skeleton : s.Skeleton tree) (fits : WellFormed 1 1 h none none tree) :
    s.Shape tree :=
  ⟨skeleton.root, skeleton.held, skeleton.nodup, skeleton.inFile, fits, skeleton.linked⟩

theorem Shape.branching {tree : Tree h} (shape : s.Shape tree) : Branching 1 1 h tree :=
  shape.fits.branching (by decide)

-- The tree stores these entries, in whatever order they came.
structure Represents (s : BPlusTree) (stored : List (Int × RID)) : Prop where
  header : 0 < s.allocated
  room : s.allocated < invalidPageId
  shape : (s.rootPageId = invalidPageId ∧ stored = []) ∨
    ∃ (h : Nat) (tree : Tree h), s.Shape tree ∧ (entries tree).Perm stored

theorem represents_empty : ({} : BPlusTree).Represents [] := ⟨by decide, by decide, .inl ⟨rfl, rfl⟩⟩

theorem Represents.perm {stored stored' : List (Int × RID)} (represents : s.Represents stored)
    (same : stored.Perm stored') : s.Represents stored' := by
  refine ⟨represents.header, represents.room, ?_⟩
  rcases represents.shape with ⟨empty, nothing⟩ | ⟨h, tree, shape, stores⟩
  · rw [nothing] at same
    exact .inl ⟨empty, same.nil_eq.symm⟩
  · exact .inr ⟨h, tree, shape, stores.trans same⟩

theorem Shape.two_pow_le {tree : Tree h} (shape : s.Shape tree) : 2 ^ h ≤ s.allocated :=
  Nat.le_trans (two_pow_le_pageIds shape.fits (Nat.le_refl 1)) shape.skeleton.pageIds_le

theorem Shape.height_lt {tree : Tree h} (shape : s.Shape tree) : h < s.allocated :=
  shape.skeleton.height_lt shape.branching

theorem Shape.height_lt_32 {tree : Tree h} (shape : s.Shape tree) (room : s.allocated < invalidPageId) : h < 32 := by
  have small : 2 ^ h < 2 ^ 32 := by
    have le := shape.two_pow_le
    simp only [invalidPageId] at room
    omega
  exact (Nat.pow_lt_pow_iff_right (by decide : 1 < 2)).mp small

theorem Shape.height_lt_steps {tree : Tree h} (shape : s.Shape tree) (room : s.allocated < invalidPageId) :
    h < kMaxTraversalSteps := by
  have shallow := shape.height_lt_32 room
  simp only [kMaxTraversalSteps]
  omega

theorem Shape.root_ne {tree : Tree h} (shape : s.Shape tree) (room : s.allocated < invalidPageId) :
    s.rootPageId ≠ invalidPageId := shape.skeleton.root_ne room

theorem inRange_none (key : Int) : InRange (none : Option Int) none key := ⟨by simp, by simp⟩

theorem descend_held {leafLeast innerLeast : Nat} {low high : Option Int} {tree : Tree h}
    (held : Held s.pages h tree) (fits : WellFormed leafLeast innerLeast h low high tree)
    (inRange : InRange low high key) {steps : Nat} (enough : h < steps) :
    ∃ leaf, s.descend key steps (pageId h tree) = .ok leaf ∧ leaf.entries.length ≤ kLeafMaxKeys ∧
      leaf.entries.filter (fun entry => entry.1 = key) =
        (entries tree).filter fun entry => entry.1 = key := by
  induction h generalizing leafLeast innerLeast low high steps with
  | zero =>
    obtain ⟨steps, rfl⟩ : ∃ rest, steps = rest + 1 := ⟨steps - 1, by omega⟩
    have stored : s.pages (pageId 0 tree) = some (.leaf tree) := held
    have small : (LeafNode.entries tree).length ≤ kLeafMaxKeys := by
      have atMost := LeafFits.le_max fits
      rwa [LeafNode.keys, List.length_map] at atMost
    exact ⟨tree, by rw [descend, stored], small, by rw [entries_leaf]⟩
  | succ h ih =>
    obtain ⟨steps, rfl⟩ : ∃ rest, steps = rest + 1 := ⟨steps - 1, by omega⟩
    obtain ⟨before, child, after, children_eq, position, ⟨l, hi, childFits, childRange⟩, outside⟩ :=
      routed_child fits.2.2 inRange
    obtain ⟨leaf, found, small, same⟩ :=
      ih (held.2 child (by simp [children_eq])) childFits childRange (by omega : h < steps)
    have stored : s.pages (pageId (h + 1) tree) = some (.internal (tree.map (pageId h))) := held.1
    refine ⟨leaf, ?_, small, same.trans (filter_entries_routed children_eq outside).symm⟩
    have atChild : (tree.map (pageId h)).children[upperBound (tree.map (pageId h)).keys key]? =
        some (pageId h child) := by
      simp [InternalNode.map, ← position, children_eq]
    rw [descend, stored]
    simp only [atChild, found]

theorem Represents.search {stored : List (Int × RID)} (represents : s.Represents stored) (key : Int) :
    ∃ rids, s.search key = .ok rids ∧
      rids.Perm ((stored.filter fun entry => entry.1 = key).map Prod.snd) := by
  rcases represents.shape with ⟨empty, rfl⟩ | ⟨h, tree, shape, perm⟩
  · exact ⟨[], by simp [BPlusTree.search, empty], by simp⟩
  · obtain ⟨leaf, found, -, same⟩ := descend_held shape.held shape.fits (inRange_none key)
      (shape.height_lt_steps represents.room)
    rw [← shape.root] at found
    refine ⟨(leaf.entries.filter fun entry => entry.1 = key).map Prod.snd, ?_, ?_⟩
    · rw [BPlusTree.search, if_neg (shape.root_ne represents.room), found]
      rfl
    · rw [same]
      exact (perm.filter _).map _

theorem Represents.few {stored : List (Int × RID)} (represents : s.Represents stored) (key : Int) :
    (stored.map Prod.fst).count key ≤ kLeafMaxKeys := by
  rcases represents.shape with ⟨-, rfl⟩ | ⟨h, tree, shape, perm⟩
  · exact Nat.zero_le _
  · obtain ⟨leaf, -, small, same⟩ := descend_held shape.held shape.fits (inRange_none key)
      (shape.height_lt_steps represents.room)
    have counted : (stored.map Prod.fst).count key = (leaf.entries.filter fun entry => entry.1 = key).length := by
      rw [same, ← (perm.map Prod.fst).count_eq, List.count_eq_length_filter, List.filter_map, List.length_map]
      rfl
    rw [counted]
    exact (List.length_filter_le _ _).trans small

theorem leftmostLeaf_held {least inner : Nat} {tree : Tree h} (held : Held s.pages h tree)
    (branching : Branching least inner h tree) {steps : Nat} (enough : h ≤ steps) :
    ∃ leaf rest, s.leftmostLeaf steps (pageId h tree) = .ok leaf ∧ leaves h tree = leaf :: rest := by
  induction h generalizing least steps with
  | zero =>
    have stored : s.pages (pageId 0 tree) = some (.leaf tree) := held
    refine ⟨tree, [], ?_, rfl⟩
    cases steps <;> rw [leftmostLeaf, stored]
  | succ h ih =>
    obtain ⟨steps, rfl⟩ : ∃ rest, steps = rest + 1 := ⟨steps - 1, by omega⟩
    have stored : s.pages (pageId (h + 1) tree) = some (.internal (tree.map (pageId h))) := held.1
    obtain ⟨first, others, children_eq⟩ := branching.first
    have member : first ∈ tree.children := by simp [children_eq]
    obtain ⟨leaf, rest, found, leaves_eq⟩ := ih (held.2 first member) (branching.2.2 first member) (by omega : h ≤ steps)
    refine ⟨leaf, rest ++ others.flatMap (leaves h), ?_, by simp [leaves, children_eq, leaves_eq]⟩
    rw [leftmostLeaf, stored]
    simpa [InternalNode.map, children_eq] using found

theorem walkChain_linked {leaf : LeafNode} {rest : List LeafNode} (steps : Nat)
    (linked : Linked LeafNode.pageId LeafNode.nextLeaf invalidPageId (leaf :: rest))
    (stored : ∀ other ∈ rest, s.pages other.pageId = some (.leaf other))
    (valid : ∀ other ∈ rest, other.pageId ≠ invalidPageId) (enough : rest.length < steps) :
    s.walkChain steps leaf = .ok ((leaf :: rest).flatMap LeafNode.entries) := by
  obtain ⟨steps, rfl⟩ : ∃ fewer, steps = fewer + 1 := ⟨steps - 1, by omega⟩
  induction rest generalizing leaf steps with
  | nil =>
    have last : leaf.nextLeaf = invalidPageId := linked.1
    simp [walkChain, last]
  | cons next rest ih =>
    obtain ⟨steps, rfl⟩ : ∃ fewer, steps = fewer + 1 := ⟨steps - 1, by simp at enough; omega⟩
    have isNext : leaf.nextLeaf = next.pageId := linked.1
    have readable : s.readLeaf leaf.nextLeaf = some next := by
      rw [isNext, readLeaf, stored next List.mem_cons_self]
    have onward := ih linked.2 (fun other member => stored other (List.mem_cons_of_mem _ member))
      (fun other member => valid other (List.mem_cons_of_mem _ member)) steps (by simpa using enough)
    rw [walkChain, if_neg (by rw [isNext]; exact valid next List.mem_cons_self), readable]
    simp only [onward]
    rfl

theorem leaves_held : {h : Nat} → {tree : Tree h} → Held s.pages h tree →
    ∀ leaf ∈ leaves h tree, s.pages leaf.pageId = some (.leaf leaf) ∧ leaf.pageId ∈ pageIds h tree
  | 0, tree, held, leaf, member => by
    obtain rfl := List.mem_singleton.mp member
    exact ⟨held, List.mem_cons_self⟩
  | h + 1, tree, held, leaf, member => by
    obtain ⟨child, isChild, inside⟩ := List.mem_flatMap.mp member
    obtain ⟨stored, isPage⟩ := leaves_held (held.2 child isChild) leaf inside
    exact ⟨stored, List.mem_cons_of_mem _ (List.mem_flatMap.mpr ⟨child, isChild, isPage⟩)⟩

theorem leaves_length_le : (h : Nat) → (tree : Tree h) → (leaves h tree).length ≤ (pageIds h tree).length
  | 0, _ => Nat.le_refl _
  | h + 1, tree => by
    simp only [leaves, pageIds, List.length_cons, List.length_flatMap]
    exact Nat.le_succ_of_le (List.sum_le_sum fun child _ => leaves_length_le h child)

theorem Represents.rangeScan {stored : List (Int × RID)} (represents : s.Represents stored) :
    ∃ listed, s.rangeScan s.allocated = .ok listed ∧ listed.Perm stored ∧
      (listed.map Prod.fst).Pairwise (· ≤ ·) := by
  rcases represents.shape with ⟨empty, rfl⟩ | ⟨h, tree, shape, perm⟩
  · exact ⟨[], by simp [BPlusTree.rangeScan, empty], by simp, by simp⟩
  · obtain ⟨leaf, rest, found, leaves_eq⟩ := leftmostLeaf_held shape.held shape.branching
      (Nat.le_of_lt shape.height_lt)
    have onPages := leaves_held shape.held
    have few : (leaves h tree).length ≤ s.allocated := Nat.le_trans (leaves_length_le h tree)
      (length_le_of_nodup_lt shape.nodup fun page member => (shape.inFile page member).2)
    have linked := shape.linked
    rw [leaves_eq] at onPages few linked
    have walked := walkChain_linked s.allocated linked
      (fun other member => (onPages other (List.mem_cons_of_mem _ member)).1)
      (fun other member => by
        have below := (shape.inFile _ (onPages other (List.mem_cons_of_mem _ member)).2).2
        have room := represents.room
        omega) few
    refine ⟨entries tree, ?_, perm, shape.fits.sorted.1⟩
    rw [← shape.root] at found
    rw [BPlusTree.rangeScan, if_neg (shape.root_ne represents.room), found, entries, leaves_eq]
    exact walked

theorem leafFits_single {leaf : LeafNode} (entries_eq : leaf.entries = [(key, rid)]) : LeafFits 1 none none leaf :=
  ⟨by simp [OpenRange], by simp [LeafNode.keys, entries_eq], fun _ _ => inRange_none _,
    by simp [LeafNode.keys, entries_eq], by simp [LeafNode.keys, entries_eq, kLeafMaxKeys_eq]⟩

theorem Shape.insert {tree : Tree h} (shape : s.Shape tree) (room : s.allocated < invalidPageId) (rid : RID)
    (few : ((entries tree).map Prod.fst).count key < kLeafMaxKeys) :
    ∃ s', (insert key rid).exec s = (.ok (), s') ∧
      (s.allocated ≤ s'.allocated ∧ s'.allocated ≤ s.allocated + 33) ∧
      (s'.allocated < invalidPageId → ∃ (h' : Nat) (tree' : Tree h'), s'.Shape tree' ∧
        (entries tree').Perm ((key, rid) :: entries tree) ∧
        (pageIds h' tree').length + s.allocated = (pageIds h tree).length + s'.allocated) := by
  obtain ⟨result, inserted, whole, halves⟩ := insert_wellFormed rid s.allocated shape.fits (inRange_none key) few
  obtain ⟨s', done, le, atMost, after⟩ := shape.skeleton.insert shape.branching room inserted
  have exactly := shape.skeleton.insert_allocated shape.branching room inserted
  rw [done] at exactly
  have grown := insert_allocated_le inserted
  have perLevel := insert_allocated_add inserted
  have shallow := shape.height_lt_32 room
  refine ⟨s', done, ⟨by omega, by omega⟩, fun room => ?_⟩
  have pages := (insert_pageIds inserted (by simp only [invalidPageId] at room; omega)).length_eq
  rw [List.length_append, List.length_range'] at pages
  have stores := insert_entries inserted
  obtain ⟨kept, doubled⟩ := after room
  cases split : result.split with
  | none =>
    simp only [Inserted.trees, split, Option.toList_none, List.map_nil, List.flatMap_cons, List.flatMap_nil,
      List.append_nil, List.length_nil] at pages exactly
    refine ⟨h, result.tree, (kept split).shape (whole split), by simpa [Inserted.trees, split] using stores, ?_⟩
    omega
  | some halvesOf =>
    obtain ⟨splitKey, right⟩ := halvesOf
    obtain ⟨root, skeleton, keys_eq, children_eq⟩ := doubled splitKey right split
    have routed := halves (by simp [split])
    simp only [Inserted.trees, Inserted.separators, split, Option.toList_some, List.map_cons, List.map_nil] at routed
    refine ⟨h + 1, root, skeleton.shape ⟨by simp [keys_eq], by simp [keys_eq, kInternalMaxKeys_eq], ?_⟩, ?_, ?_⟩
    · rw [keys_eq, children_eq]
      exact routed
    · simpa [Inserted.trees, split, entries, leaves, children_eq] using stores
    · simp only [Inserted.trees, split, Option.toList_some, List.map_cons, List.map_nil, List.length_cons,
        List.length_nil] at pages exactly
      simp only [pageIds, children_eq, List.length_cons]
      omega

theorem insert_exec {stored : List (Int × RID)} (represents : s.Represents stored) (rid : RID)
    (few : (stored.map Prod.fst).count key < kLeafMaxKeys) :
    ∃ s', (insert key rid).exec s = (.ok (), s') ∧
      (s.allocated ≤ s'.allocated ∧ s'.allocated ≤ s.allocated + 33) ∧
      (s'.allocated < invalidPageId → s'.Represents ((key, rid) :: stored)) := by
  have header := represents.header
  rcases represents.shape with ⟨empty, rfl⟩ | ⟨h, tree, shape, perm⟩
  · obtain ⟨s', leaf, done, allocated, entries_eq, skeleton⟩ := insert_empty key rid header empty
    refine ⟨s', done, ⟨by omega, by omega⟩, fun room => ⟨by omega, room, .inr ⟨0, leaf, (skeleton room).shape ?_, ?_⟩⟩⟩
    · exact leafFits_single entries_eq
    · rw [entries_leaf, entries_eq]
  · rw [← (perm.map Prod.fst).count_eq] at few
    obtain ⟨s', done, bounds, after⟩ := shape.insert represents.room rid few
    refine ⟨s', done, bounds, fun room => ⟨by omega, room, .inr ?_⟩⟩
    obtain ⟨h', tree', shape', stores, -⟩ := after room
    exact ⟨h', tree', shape', stores.trans (perm.cons (key, rid))⟩

theorem Collapses.represents {tree : Tree h} {stored : List (Int × RID)} (collapses : s.Collapses h tree)
    (header : 0 < s.allocated) (room : s.allocated < invalidPageId) (fits : WellFormed 0 0 h none none tree)
    (stores : (entries tree).Perm stored) : s.Represents stored := by
  refine ⟨header, room, ?_⟩
  cases h with
  | zero =>
    have fits : LeafFits 0 none none tree := fits
    rcases collapses with ⟨empty, root⟩ | ⟨notEmpty, skeleton⟩
    · have none : LeafNode.entries tree = [] := List.map_eq_nil_iff.mp empty
      rw [entries_leaf, none] at stores
      exact .inl ⟨root, stores.symm.eq_nil⟩
    · exact .inr ⟨0, tree, skeleton.shape { fits with least_le := List.length_pos_iff.mpr notEmpty }, stores⟩
  | succ h =>
    obtain ⟨-, le_max, routed⟩ := fits
    have length := routed.length
    rcases collapses with ⟨only, children_eq, skeleton⟩ | ⟨several, skeleton⟩
    · have noKeys : tree.keys = [] := List.length_eq_zero_iff.mp (by simpa [children_eq] using length)
      rw [noKeys, children_eq] at routed
      refine .inr ⟨h, only, skeleton.shape (WellFormed.mono routed (Nat.le_refl 1) (by decide)), ?_⟩
      simpa [children_eq] using stores
    · refine .inr ⟨h + 1, tree, skeleton.shape ⟨?_, le_max, routed⟩, stores⟩
      rcases Nat.eq_zero_or_pos tree.keys.length with bare | positive
      · rw [bare] at length
        obtain ⟨only, children_eq⟩ := List.length_eq_one_iff.mp length
        exact absurd children_eq (several only)
      · exact positive

theorem delete_exec {stored : List (Int × RID)} (represents : s.Represents stored) (key : Int) (rid : RID) :
    ∃ s', (delete key rid).exec s = (.ok (decide ((key, rid) ∈ stored)), s') ∧
      s'.allocated = s.allocated ∧ ((key, rid) ∉ stored → s' = s) ∧
      s'.Represents (stored.erase (key, rid)) := by
  rcases represents.shape with ⟨empty, rfl⟩ | ⟨h, tree, shape, perm⟩
  · refine ⟨s, ?_, rfl, fun _ => rfl, by simpa using represents⟩
    rw [delete, exec_bind_ok (exec_get s)]
    simp [empty]
  · obtain ⟨result, deleted⟩ := delete_exists key rid true shape.branching
    rcases result with _ | ⟨tree', underflow⟩
    · have absent : (key, rid) ∉ stored := fun member =>
        delete_absent shape.fits (inRange_none key) deleted (perm.mem_iff.mpr member)
      refine ⟨s, ?_, rfl, fun _ => rfl, ?_⟩
      · rw [shape.skeleton.delete_absent shape.branching represents.room deleted, decide_eq_false absent]
      · rw [List.erase_of_not_mem absent]
        exact represents
    · obtain ⟨s', done, allocated, collapses⟩ :=
        shape.skeleton.delete_present shape.branching represents.room deleted
      have taken := (delete_entries deleted).1
      have removes : (entries tree').Perm (stored.erase (key, rid)) := by
        have erased := (taken.symm.trans perm).erase (key, rid)
        rwa [List.erase_cons_head] at erased
      have present : (key, rid) ∈ stored := perm.mem_iff.mp (taken.mem_iff.mpr List.mem_cons_self)
      refine ⟨s', by rw [done, decide_eq_true present], allocated, fun absent => absurd present absent, ?_⟩
      exact collapses.represents (by rw [allocated]; exact represents.header) (by rw [allocated]; exact represents.room)
        (delete_wellFormed deleted shape.fits) removes

/-- What a reader of the tree gets, if it stores these entries. -/
structure Shows (tree : BPlusTree) (stored : List (Int × RID)) : Prop where
  search : ∀ key, ∃ rids, tree.search key = .ok rids ∧
    rids.Perm ((stored.filter fun entry => entry.1 = key).map Prod.snd)
  -- the leaves along next_leaf, from the leftmost one on
  chain : ∃ listed, tree.rangeScan tree.allocated = .ok listed ∧ listed.Perm stored ∧
    (listed.map Prod.fst).Pairwise (· ≤ ·)

theorem Represents.shows {stored : List (Int × RID)} (represents : s.Represents stored) : s.Shows stored :=
  ⟨represents.search, represents.rangeScan⟩

end BPlusTree

inductive TreeOp
  | insert (key : Int) (rid : RID)
  | delete (key : Int) (rid : RID)

namespace TreeOp

/-- The operation on the tree; Insert returns nothing, which reads as `true`. -/
def apply : TreeOp → BTreeM Bool
  | insert key rid => do
    BPlusTree.insert key rid
    return true
  | delete key rid => BPlusTree.delete key rid

-- The operation on a multimap.
def store (stored : List (Int × RID)) : TreeOp → List (Int × RID)
  | insert key rid => (key, rid) :: stored
  | delete key rid => stored.erase (key, rid)

def answer (stored : List (Int × RID)) : TreeOp → Bool
  | insert _ _ => true
  | delete key rid => (key, rid) ∈ stored

def applyAll : List TreeOp → BTreeM (List Bool)
  | [] => return []
  | op :: ops => do
    let found ← op.apply
    return found :: (← applyAll ops)

def storeAll : List TreeOp → List (Int × RID) → List (Int × RID)
  | [], stored => stored
  | op :: ops, stored => storeAll ops (op.store stored)

def answers : List TreeOp → List (Int × RID) → List Bool
  | [], _ => []
  | op :: ops, stored => op.answer stored :: answers ops (op.store stored)

theorem apply_exec {s : BPlusTree} {stored : List (Int × RID)} (represents : s.Represents stored) (op : TreeOp)
    (few : ∀ key, ((op.store stored).map Prod.fst).count key ≤ kLeafMaxKeys) :
    ∃ s', op.apply.exec s = (.ok (op.answer stored), s') ∧
      (s'.allocated < invalidPageId → s'.Represents (op.store stored)) := by
  cases op with
  | insert key rid =>
    have fewBefore := few key
    simp only [store, List.map_cons, List.count_cons_self] at fewBefore
    obtain ⟨s', done, -, stores⟩ := BPlusTree.insert_exec represents rid fewBefore
    exact ⟨s', exec_bind_ok done, stores⟩
  | delete key rid =>
    obtain ⟨s', done, -, -, stores⟩ := BPlusTree.delete_exec represents key rid
    exact ⟨s', done, fun _ => stores⟩

theorem applyAll_exec {s : BPlusTree} {stored : List (Int × RID)} (represents : s.Represents stored)
    (ops : List TreeOp)
    (few : ∀ ops', ops' <+: ops → ∀ key, ((storeAll ops' stored).map Prod.fst).count key ≤ kLeafMaxKeys)
    (room : ∀ ops', ops' <+: ops → ((applyAll ops').exec s).2.allocated < invalidPageId) :
    ∃ s', (applyAll ops).exec s = (.ok (answers ops stored), s') ∧ s'.Represents (storeAll ops stored) := by
  induction ops generalizing s stored with
  | nil => exact ⟨s, rfl, represents⟩
  | cons op ops ih =>
    have first : [op] <+: op :: ops := ⟨ops, rfl⟩
    obtain ⟨s₁, done, stores⟩ := apply_exec represents op (few [op] first)
    have onward : ∀ ops', (applyAll (op :: ops')).exec s =
        (applyAll ops' >>= fun rest => pure (op.answer stored :: rest) : BTreeM (List Bool)).exec s₁ :=
      fun ops' => exec_bind_ok done
    have represents₁ := stores (by
      have roomFirst := room [op] first
      rwa [onward] at roomFirst)
    obtain ⟨s', doneRest, represents'⟩ := ih represents₁
      (fun ops' isPrefix => few (op :: ops') (List.cons_prefix_cons.mpr ⟨rfl, isPrefix⟩))
      (fun ops' isPrefix => by
        have roomRest := room (op :: ops') (List.cons_prefix_cons.mpr ⟨rfl, isPrefix⟩)
        rw [onward, exec_bind] at roomRest
        revert roomRest
        rcases (applyAll ops').exec s₁ with ⟨outcome, s₂⟩
        cases outcome <;> exact id)
    exact ⟨s', by rw [onward, exec_bind_ok doneRest]; rfl, represents'⟩

/-- From the empty tree, at every point of every run that never stores more entries under one key than a
leaf has room for. -/
theorem refines_multimap (ops : List TreeOp)
    (few : ∀ ops', ops' <+: ops → ∀ key, ((storeAll ops' []).map Prod.fst).count key ≤ kLeafMaxKeys)
    (room : ∀ ops', ops' <+: ops → ((applyAll ops').exec {}).2.allocated < 2 ^ 32 - 1) :
    ∀ ops', ops' <+: ops → ∃ tree, (applyAll ops').exec {} = (.ok (answers ops' []), tree) ∧
      tree.Shows (storeAll ops' []) ∧
      ∀ key rid, ∃ tree',
        (BPlusTree.delete key rid).exec tree = (.ok (decide ((key, rid) ∈ storeAll ops' [])), tree') ∧
        ((key, rid) ∉ storeAll ops' [] → tree' = tree) ∧
        tree'.Shows ((storeAll ops' []).erase (key, rid)) := by
  intro ops' isPrefix
  obtain ⟨tree, done, represents⟩ := applyAll_exec BPlusTree.represents_empty ops'
    (fun earlier isEarlier => few earlier (isEarlier.trans isPrefix))
    (fun earlier isEarlier => room earlier (isEarlier.trans isPrefix))
  refine ⟨tree, done, represents.shows, fun key rid => ?_⟩
  obtain ⟨tree', deleted, -, unchanged, represents'⟩ := BPlusTree.delete_exec represents key rid
  exact ⟨tree', deleted, unchanged, represents'.shows⟩

theorem refines_multimap_duplicate : ∃ tree,
    (applyAll [insert 5 ⟨1, 0⟩, insert 3 ⟨1, 1⟩, insert 5 ⟨1, 0⟩, delete 5 ⟨1, 0⟩]).exec {} =
      (.ok [true, true, true, true], tree) ∧ tree.search 5 = .ok [⟨1, 0⟩] := by
  have small : ∀ ops', ops' <+: [insert 5 ⟨1, 0⟩, insert 3 ⟨1, 1⟩, insert 5 ⟨1, 0⟩, delete 5 ⟨1, 0⟩] →
      (storeAll ops' []).length ≤ kLeafMaxKeys ∧ ((applyAll ops').exec {}).2.allocated < 2 ^ 32 - 1 := by
    intro ops' isPrefix
    simp only [List.prefix_cons_iff, List.prefix_nil] at isPrefix
    rcases isPrefix with rfl | ⟨_, rfl, rfl | ⟨_, rfl, rfl | ⟨_, rfl, rfl | ⟨_, rfl, rfl⟩⟩⟩⟩ <;> decide
  obtain ⟨tree, done, shows, -⟩ := refines_multimap
    [insert 5 ⟨1, 0⟩, insert 3 ⟨1, 1⟩, insert 5 ⟨1, 0⟩, delete 5 ⟨1, 0⟩]
    (fun ops' isPrefix key => Nat.le_trans List.count_le_length (by simpa using (small ops' isPrefix).1))
    (fun ops' isPrefix => (small ops' isPrefix).2) _ (List.prefix_refl _)
  obtain ⟨rids, found, perm⟩ := shows.search 5
  refine ⟨tree, done, ?_⟩
  rw [found, List.perm_singleton.mp perm]

theorem applyAll_append {s s₁ s₂ : BPlusTree} {ops later : List TreeOp} {found foundLater : List Bool}
    (first : (applyAll ops).exec s = (.ok found, s₁)) (second : (applyAll later).exec s₁ = (.ok foundLater, s₂)) :
    (applyAll (ops ++ later)).exec s = (.ok (found ++ foundLater), s₂) := by
  induction ops generalizing s found with
  | nil =>
    obtain ⟨rfl, rfl⟩ : [] = found ∧ s = s₁ := by simpa [applyAll] using first
    exact second
  | cons op ops ih =>
    obtain ⟨here, t, done, onward⟩ := exec_bind_eq_ok first
    obtain ⟨rest, t', doneRest, ended⟩ := exec_bind_eq_ok onward
    obtain ⟨rfl, rfl⟩ : here :: rest = found ∧ t' = s₁ := by simpa using ended
    rw [List.cons_append, applyAll, exec_bind_ok done, exec_bind_ok (ih doneRest)]
    rfl

theorem applyAll_insert {key : Int} {rid : RID} {s s' : BPlusTree}
    (inserted : (BPlusTree.insert key rid).exec s = (.ok (), s')) :
    (applyAll [insert key rid]).exec s = (.ok [true], s') := by
  rw [applyAll, apply, bind_assoc, exec_bind_ok inserted]
  rfl

def ascending (n : Nat) : List TreeOp := (List.range n).map fun i => insert (i : Nat) ⟨i, 0⟩

theorem ascending_succ (n : Nat) : ascending (n + 1) = ascending n ++ [insert n ⟨n, 0⟩] := by
  simp [ascending, List.range_succ]

theorem storeAll_append (ops later : List TreeOp) (stored : List (Int × RID)) :
    storeAll (ops ++ later) stored = storeAll later (storeAll ops stored) := by
  induction ops generalizing stored with
  | nil => rfl
  | cons op ops ih => exact ih (op.store stored)

theorem ascending_stored (n : Nat) :
    storeAll (ascending (n + 1)) [] = ((n : Int), ⟨n, 0⟩) :: storeAll (ascending n) [] := by
  rw [ascending_succ, storeAll_append]
  rfl

theorem ascending_length (n : Nat) : (storeAll (ascending n) []).length = n := by
  induction n with
  | zero => rfl
  | succ n ih => rw [ascending_stored, List.length_cons, ih]

theorem ascending_lt {n : Nat} {key : Int} (member : key ∈ (storeAll (ascending n) []).map Prod.fst) : key < n := by
  induction n with
  | zero => simp [ascending, storeAll] at member
  | succ n ih =>
    rw [ascending_stored, List.map_cons, List.mem_cons] at member
    rcases member with rfl | older
    · simp
    · have less := ih older
      omega

theorem ascending_nodup (n : Nat) : ((storeAll (ascending n) []).map Prod.fst).Nodup := by
  induction n with
  | zero => exact List.nodup_nil
  | succ n ih =>
    rw [ascending_stored, List.map_cons, List.nodup_cons]
    exact ⟨fun again => Int.lt_irrefl _ (ascending_lt again), ih⟩

theorem ascending_count (n : Nat) (key : Int) : ((storeAll (ascending n) []).map Prod.fst).count key ≤ kLeafMaxKeys :=
  (List.nodup_iff_count_le_one.mp (ascending_nodup n) key).trans (by decide)

theorem ascending_represents (n : Nat) (small : 33 * n + 1 < invalidPageId) :
    ∃ tree, (applyAll (ascending n)).exec {} = (.ok (List.replicate n true), tree) ∧
      tree.Represents (storeAll (ascending n) []) ∧ tree.LeavesFit ∧ tree.allocated ≤ 33 * n + 1 := by
  induction n with
  | zero => exact ⟨{}, rfl, BPlusTree.represents_empty, BPlusTree.leavesFit_empty, by decide⟩
  | succ n ih =>
    obtain ⟨tree, done, represents, fit, allocated⟩ := ih (by omega)
    have few := ascending_count (n + 1) n
    rw [ascending_stored, List.map_cons, List.count_cons_self] at few
    obtain ⟨tree', inserted, ⟨-, atMost⟩, after⟩ := BPlusTree.insert_exec represents ⟨n, 0⟩ few
    have fit' := BPlusTree.insert_fits (n : Int) ⟨n, 0⟩ tree fit
    rw [inserted] at fit'
    refine ⟨tree', ?_, ?_, fit', by omega⟩
    · rw [ascending_succ, applyAll_append done (applyAll_insert inserted), List.replicate_succ']
    · rw [ascending_stored]
      exact after (by omega)

theorem prefix_ascending {n : Nat} {ops : List TreeOp} (isPrefix : ops <+: ascending n) : ∃ m ≤ n, ops = ascending m := by
  refine ⟨min ops.length n, Nat.min_le_right _ _, ?_⟩
  rw [List.prefix_iff_eq_take.mp isPrefix, ascending, ascending, ← List.map_take, List.take_range, List.length_map,
    List.length_range, Nat.min_assoc, Nat.min_self]

theorem ascending_room {n : Nat} (small : 33 * n + 1 < invalidPageId) {ops : List TreeOp}
    (isPrefix : ops <+: ascending n) : ((applyAll ops).exec {}).2.allocated < invalidPageId := by
  obtain ⟨m, le, rfl⟩ := prefix_ascending isPrefix
  obtain ⟨tree, done, represents, -⟩ := ascending_represents m (by omega)
  rw [done]
  exact represents.room

theorem ascending_few {n : Nat} {ops : List TreeOp} (isPrefix : ops <+: ascending n) (key : Int) :
    ((storeAll ops []).map Prod.fst).count key ≤ kLeafMaxKeys := by
  obtain ⟨m, -, rfl⟩ := prefix_ascending isPrefix
  exact ascending_count m key

end TreeOp

end FlintDB
