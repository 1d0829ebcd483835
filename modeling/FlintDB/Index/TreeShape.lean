import FlintDB.Index.Multimap

set_option autoImplicit false

-- What the pages look like from the root's page id down, said without the tree values the proofs carry.

namespace FlintDB

open Lib FlintDB.Tree

namespace BPlusTree

def heightFrom (tree : BPlusTree) : Nat → Nat → Except BTreeError Nat
  | 0, cur =>
    match tree.pages cur with
    | some (.leaf _) => .ok 1
    | some (.internal _) => .error .traversalStepsExceeded
    | none => .error .undefined
  | steps + 1, cur =>
    match tree.pages cur with
    | some (.leaf _) => .ok 1
    | some (.internal node) =>
      match node.children.head? with
      | some child => do return (← tree.heightFrom steps child) + 1
      | none => .error .undefined
    | none => .error .undefined

def height (tree : BPlusTree) : Except BTreeError Nat :=
  if tree.rootPageId = invalidPageId then .ok 0 else tree.heightFrom kMaxTraversalSteps tree.rootPageId

-- The leaf on this page. Its keys may repeat; leaves below kLeafMinKeys are legal.
structure LeafAt (tree : BPlusTree) (low high : Option Int) (pageId : Nat) (leaf : LeafNode) : Prop where
  stored : tree.pages pageId = some (.leaf leaf)
  nonempty : leaf.keys ≠ []
  le_max : leaf.keys.length ≤ kLeafMaxKeys
  sorted : leaf.keys.Pairwise (· ≤ ·)
  inRange : ∀ key ∈ leaf.keys, InRange low high key

structure InternalAt (tree : BPlusTree) (isRoot : Bool) (low high : Option Int) (pageId : Nat)
    (node : InternalNode Nat) : Prop where
  stored : tree.pages pageId = some (.internal node)
  children_length : node.children.length = node.keys.length + 1
  increasing : node.keys.Pairwise (· < ·)
  le_max : node.keys.length ≤ kInternalMaxKeys
  least_le : isRoot = false → kInternalMinKeys ≤ node.keys.length
  -- no separator leaves the inherited bounds, so a child's bounds are never wider than an ancestor's
  inRange : ∀ key ∈ node.keys, InRange low high key

-- The page and all pages below it, with every leaf `depth` levels down.
def NodeAt (tree : BPlusTree) : Nat → Bool → Option Int → Option Int → Nat → Prop
  | 0, _, low, high, pageId => ∃ leaf, tree.LeafAt low high pageId leaf
  | depth + 1, isRoot, low, high, pageId => ∃ node, tree.InternalAt isRoot low high pageId node ∧
      ∀ i child, node.children[i]? = some child →
        tree.NodeAt depth false (childLow node.keys low i) (childHigh node.keys high i) child

def childPages (tree : BPlusTree) (pageId : Nat) : List Nat :=
  (tree.readInternal pageId).elim [] InternalNode.children

def pagesBelow (tree : BPlusTree) : Nat → Nat → List Nat
  | 0, pageId => [pageId]
  | depth + 1, pageId => pageId :: (tree.childPages pageId).flatMap (tree.pagesBelow depth)

def leavesBelow (tree : BPlusTree) : Nat → Nat → List Nat
  | 0, pageId => [pageId]
  | depth + 1, pageId => (tree.childPages pageId).flatMap (tree.leavesBelow depth)

-- The first `steps` pages along next_leaf.
def chainFrom (tree : BPlusTree) : Nat → Nat → List Nat
  | 0, _ => []
  | steps + 1, pageId =>
    if pageId = invalidPageId then []
    else pageId :: ((tree.readLeaf pageId).elim [] fun leaf => tree.chainFrom steps leaf.nextLeaf)

structure WellShaped (tree : BPlusTree) (depth : Nat) : Prop where
  nodes : tree.NodeAt depth true none none tree.rootPageId
  distinct : (tree.pagesBelow depth tree.rootPageId).Nodup
  notHeader : 0 ∉ tree.pagesBelow depth tree.rootPageId
  -- the chain from the leftmost leaf is the leaves from left to right, and ends there
  chain : ∃ first rest, tree.leavesBelow depth tree.rootPageId = first :: rest ∧
    ∀ steps, tree.chainFrom steps first = (first :: rest).take steps

variable {s : BPlusTree} {h : Nat}

theorem childPages_held {tree : Tree (h + 1)} (held : Held s.pages (h + 1) tree) :
    s.childPages (pageId (h + 1) tree) = tree.children.map (pageId h) := by
  have stored : s.pages (pageId (h + 1) tree) = some (.internal (tree.map (pageId h))) := held.1
  simp [childPages, readInternal, stored, InternalNode.map]

theorem pagesBelow_held {tree : Tree h} (held : Held s.pages h tree) :
    s.pagesBelow h (pageId h tree) = pageIds h tree := by
  induction h with
  | zero => rfl
  | succ h ih =>
    rw [pagesBelow, childPages_held held, List.flatMap_map]
    exact congrArg _ (List.flatMap_congr fun child member => ih (held.2 child member))

theorem leavesBelow_held {tree : Tree h} (held : Held s.pages h tree) :
    s.leavesBelow h (pageId h tree) = (leaves h tree).map LeafNode.pageId := by
  induction h with
  | zero => rfl
  | succ h ih =>
    rw [leavesBelow, childPages_held held, List.flatMap_map, leaves, List.map_flatMap]
    exact List.flatMap_congr fun child member => ih (held.2 child member)

theorem chainFrom_linked {leaf : LeafNode} {rest : List LeafNode}
    (linked : Linked LeafNode.pageId LeafNode.nextLeaf invalidPageId (leaf :: rest))
    (stored : ∀ other ∈ leaf :: rest, s.pages other.pageId = some (.leaf other))
    (valid : ∀ other ∈ leaf :: rest, other.pageId ≠ invalidPageId) (steps : Nat) :
    s.chainFrom steps leaf.pageId = ((leaf :: rest).map LeafNode.pageId).take steps := by
  induction rest generalizing leaf steps with
  | nil =>
    have last : leaf.nextLeaf = invalidPageId := linked.1
    cases steps with
    | zero => rfl
    | succ steps =>
      rw [chainFrom, if_neg (valid leaf List.mem_cons_self), readLeaf, stored leaf List.mem_cons_self]
      cases steps <;> simp [chainFrom, last]
  | cons next rest ih =>
    have isNext : leaf.nextLeaf = next.pageId := linked.1
    cases steps with
    | zero => rfl
    | succ steps =>
      have onward := ih linked.2 (fun other member => stored other (List.mem_cons_of_mem _ member))
        (fun other member => valid other (List.mem_cons_of_mem _ member)) steps
      rw [chainFrom, if_neg (valid leaf List.mem_cons_self), readLeaf, stored leaf List.mem_cons_self]
      simp [isNext, onward]

theorem nodeAt_held {leafLeast innerLeast : Nat} {low high : Option Int} {tree : Tree h} {isRoot : Bool}
    (held : Held s.pages h tree) (fits : WellFormed leafLeast innerLeast h low high tree)
    (notEmpty : 1 ≤ leafLeast) (filled : isRoot = false → kInternalMinKeys ≤ innerLeast) :
    s.NodeAt h isRoot low high (pageId h tree) := by
  induction h generalizing leafLeast innerLeast low high isRoot with
  | zero =>
    have fits : LeafFits leafLeast low high tree := fits
    exact ⟨tree, held, List.length_pos_iff.mp (Nat.le_trans notEmpty fits.least_le), fits.le_max,
      fits.sorted, fits.inRange⟩
  | succ h ih =>
    obtain ⟨least_le, le_max, routed⟩ := fits
    refine ⟨tree.map (pageId h), ⟨held.1, ?_, ?_, le_max, ?_, ?_⟩, fun i page here => ?_⟩
    · simpa [InternalNode.map] using routed.length
    · exact (routed.pairwise (filled_room h)).1
    · exact fun notRoot => Nat.le_trans (filled notRoot) least_le
    · exact fun key member => routed.inRange (filled_room h) member
    · simp only [InternalNode.map, List.getElem?_map, Option.map_eq_some_iff] at here
      obtain ⟨child, isChild, rfl⟩ := here
      exact ih (held.2 child (List.mem_of_getElem? isChild)) (routed.fits_child isChild) (Nat.le_refl 1)
        fun _ => Nat.le_refl _

theorem heightFrom_held {leafLeast innerLeast : Nat} {low high : Option Int} {tree : Tree h}
    (held : Held s.pages h tree) (fits : WellFormed leafLeast innerLeast h low high tree) {steps : Nat}
    (enough : h ≤ steps) : s.heightFrom steps (pageId h tree) = .ok (h + 1) := by
  induction h generalizing leafLeast innerLeast low high steps with
  | zero =>
    have stored : s.pages (pageId 0 tree) = some (.leaf tree) := held
    cases steps <;> rw [heightFrom, stored]
  | succ h ih =>
    obtain ⟨steps, rfl⟩ : ∃ rest, steps = rest + 1 := ⟨steps - 1, by omega⟩
    have stored : s.pages (pageId (h + 1) tree) = some (.internal (tree.map (pageId h))) := held.1
    have length := fits.2.2.length
    obtain ⟨first, others, children_eq⟩ : ∃ first others, tree.children = first :: others :=
      List.exists_cons_of_length_pos (by omega)
    have member : first ∈ tree.children := by simp [children_eq]
    obtain ⟨_, _, firstFits⟩ := fits.2.2.exists_fits member
    have below := ih (held.2 first member) firstFits (by omega : h ≤ steps)
    have atFirst : (tree.map (pageId h)).children.head? = some (pageId h first) := by
      simp [InternalNode.map, children_eq]
    rw [heightFrom, stored]
    simp only [atFirst, below]
    rfl

theorem Shape.wellShaped {tree : Tree h} (shape : s.Shape tree) (room : s.allocated < invalidPageId) :
    s.WellShaped h := by
  have pages := pagesBelow_held shape.held
  have onPages := leaves_held shape.held
  have below := leavesBelow_held shape.held
  rw [← shape.root] at pages below
  obtain ⟨leaf, rest, -, leaves_eq⟩ := leftmostLeaf_held shape.held shape.branching (Nat.le_refl h)
  have linked := shape.linked
  rw [leaves_eq] at onPages below linked
  refine ⟨?_, by rw [pages]; exact shape.nodup, ?_, leaf.pageId, rest.map LeafNode.pageId, below, ?_⟩
  · rw [shape.root]
    exact nodeAt_held shape.held shape.fits (Nat.le_refl 1) (by simp)
  · rw [pages]
    exact fun member => Nat.lt_irrefl 0 (shape.inFile 0 member).1
  · refine chainFrom_linked linked (fun other member => (onPages other member).1) fun other member => ?_
    have inFile := (shape.inFile _ (onPages other member).2).2
    omega

theorem Represents.wellShaped {stored : List (Int × RID)} (represents : s.Represents stored) :
    (s.rootPageId = invalidPageId ∧ stored = [] ∧ s.height = .ok 0) ∨
      ∃ depth, s.WellShaped depth ∧ s.height = .ok (depth + 1) := by
  rcases represents.shape with ⟨empty, rfl⟩ | ⟨h, tree, shape, -⟩
  · exact .inl ⟨empty, rfl, by simp [height, empty]⟩
  · refine .inr ⟨h, shape.wellShaped represents.room, ?_⟩
    rw [height, if_neg (shape.root_ne represents.room), shape.root]
    exact heightFrom_held shape.held shape.fits (Nat.le_of_lt (shape.height_lt_steps represents.room))

theorem Represents.exists_internal {stored : List (Int × RID)} (represents : s.Represents stored)
    (many : kLeafMaxKeys < stored.length) :
    s.rootPageId ≠ invalidPageId ∧ ∃ node, s.pages s.rootPageId = some (.internal node) := by
  rcases represents.shape with ⟨-, rfl⟩ | ⟨h, tree, shape, perm⟩
  · exact absurd many (Nat.not_lt_zero _)
  refine ⟨shape.root_ne represents.room, ?_⟩
  cases h with
  | zero =>
    have fits : LeafFits 1 none none tree := shape.fits
    have few := fits.le_max
    rw [LeafNode.keys, List.length_map] at few
    rw [← perm.length_eq, entries_leaf] at many
    exact absurd many (Nat.not_lt.mpr few)
  | succ h => exact ⟨tree.map (pageId h), by rw [shape.root]; exact shape.held.1⟩

theorem Represents.two_le_levels {stored : List (Int × RID)} (represents : s.Represents stored)
    (many : kLeafMaxKeys < stored.length) {levels : Nat} (isHeight : s.height = .ok levels) : 2 ≤ levels := by
  rcases represents.wellShaped with ⟨-, rfl, -⟩ | ⟨depth, shaped, height_eq⟩
  · exact absurd many (Nat.not_lt_zero _)
  rw [height_eq] at isHeight
  cases isHeight
  cases depth with
  | zero =>
    obtain ⟨leaf, isLeaf⟩ := shaped.nodes
    obtain ⟨-, node, isInternal⟩ := represents.exists_internal many
    rw [isLeaf.stored] at isInternal
    cases isInternal
  | succ depth => omega

end BPlusTree

namespace TreeOp

/-- From the empty tree, at every point of every run that never stores more entries under one key than a
leaf has room for. Search, Height and Delete return: no traversal runs into kMaxTraversalSteps, and no
FixUnderflow is without a sibling. -/
theorem tree_wellShaped (ops : List TreeOp)
    (few : ∀ ops', ops' <+: ops → ∀ key, ((storeAll ops' []).map Prod.fst).count key ≤ kLeafMaxKeys)
    (room : ∀ ops', ops' <+: ops → ((applyAll ops').exec {}).2.allocated < 2 ^ 32 - 1) :
    ∀ ops', ops' <+: ops → ∃ tree, (applyAll ops').exec {} = (.ok (answers ops' []), tree) ∧
      ((tree.rootPageId = invalidPageId ∧ storeAll ops' [] = [] ∧ tree.height = .ok 0) ∨
        ∃ depth, tree.WellShaped depth ∧ tree.height = .ok (depth + 1)) ∧
      (∀ key, ∃ rids, tree.search key = .ok rids) ∧
      ∀ key rid, ∃ tree',
        (BPlusTree.delete key rid).exec tree = (.ok (decide ((key, rid) ∈ storeAll ops' [])), tree') := by
  intro ops' isPrefix
  obtain ⟨tree, done, represents⟩ := applyAll_exec BPlusTree.represents_empty ops'
    (fun earlier isEarlier => few earlier (isEarlier.trans isPrefix))
    (fun earlier isEarlier => room earlier (isEarlier.trans isPrefix))
  refine ⟨tree, done, represents.wellShaped, fun key => ?_, fun key rid => ?_⟩
  · obtain ⟨rids, found, -⟩ := represents.search key
    exact ⟨rids, found⟩
  · obtain ⟨tree', deleted, -⟩ := BPlusTree.delete_exec represents key rid
    exact ⟨tree', deleted⟩

-- one key more than a leaf has room for
theorem tree_wellShaped_ascending : ∃ tree depth,
    (applyAll (ascending 292)).exec {} = (.ok (List.replicate 292 true), tree) ∧ tree.WellShaped (depth + 1) := by
  obtain ⟨tree, done, represents, -⟩ := ascending_represents 292 (by decide)
  obtain ⟨tree', done', shape, -⟩ := tree_wellShaped (ascending 292) (fun _ => ascending_few)
    (fun _ => ascending_room (by decide)) _ (List.prefix_refl _)
  have many := ascending_length 292
  obtain rfl : tree' = tree := by
    rw [done] at done'
    exact (Prod.ext_iff.mp done').2.symm
  rcases shape with ⟨-, none, -⟩ | ⟨depth, shaped, isHeight⟩
  · simp [none] at many
  have levels := represents.two_le_levels (by rw [many]; decide) isHeight
  obtain ⟨depth, rfl⟩ : ∃ above, depth = above + 1 := ⟨depth - 1, by omega⟩
  exact ⟨tree', depth, done, shaped⟩

end TreeOp

end FlintDB
