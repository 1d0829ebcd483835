import FlintDB.Index.TreeShape
import FlintDB.Index.Validation

set_option autoImplicit false

-- Every internal node below the root is half full, so the height is logarithmic in the number of entries; the trees
-- that Insert and Delete build are far from kMaxValidateDepth, and ValidateInvariants has nothing to say about them.

namespace FlintDB

open Lib FlintDB.Tree

variable {h : Nat} {low high : Option Int}

theorem leaves_length_ge {node : Tree (h + 1)} {n leaves : Nat} (wide : n ≤ node.children.length)
    (each : ∀ child ∈ node.children, leaves ≤ (Tree.leaves h child).length) :
    n * leaves ≤ (Tree.leaves (h + 1) node).length := by
  have least : ∀ size ∈ node.children.map fun child => (Tree.leaves h child).length, leaves ≤ size := by
    intro size member
    obtain ⟨child, isChild, rfl⟩ := List.mem_map.mp member
    exact each child isChild
  have sum := List.card_nsmul_le_sum _ leaves least
  rw [List.length_map, Nat.nsmul_eq_mul] at sum
  rw [Tree.leaves, List.length_flatMap]
  exact Nat.le_trans (Nat.mul_le_mul_right leaves wide) sum

theorem pow_le_leaves {tree : Tree h} (filled : Filled h low high tree) :
    (kInternalMinKeys + 1) ^ h ≤ (leaves h tree).length := by
  induction h generalizing low high with
  | zero => simp [leaves]
  | succ h ih =>
    obtain ⟨least_le, -, routed⟩ := filled
    rw [Nat.pow_succ, Nat.mul_comm]
    refine leaves_length_ge (by rw [routed.length]; exact Nat.succ_le_succ least_le) fun child member => ?_
    obtain ⟨_, _, fits⟩ := routed.exists_fits member
    exact ih fits

theorem two_mul_pow_le_leaves {tree : Tree (h + 1)} (fits : WellFormed 1 1 (h + 1) low high tree) :
    2 * (kInternalMinKeys + 1) ^ h ≤ (leaves (h + 1) tree).length := by
  obtain ⟨least_le, -, routed⟩ := fits
  refine leaves_length_ge (by rw [routed.length]; exact Nat.succ_le_succ least_le) fun child member => ?_
  obtain ⟨_, _, childFits⟩ := routed.exists_fits member
  exact pow_le_leaves childFits

theorem leaves_le_pageIds (tree : Tree h) : (leaves h tree).length ≤ (pageIds h tree).length := by
  induction h with
  | zero => simp [leaves, pageIds]
  | succ h ih =>
    rw [leaves, pageIds, List.length_flatMap, List.length_cons, List.length_flatMap]
    exact Nat.le_succ_of_le (List.sum_le_sum fun child _ => ih child)

theorem leaves_le_entries {innerLeast : Nat} {tree : Tree h} (fits : WellFormed 1 innerLeast h low high tree) :
    (leaves h tree).length ≤ (entries tree).length := by
  induction h generalizing innerLeast low high with
  | zero =>
    have fits : LeafFits 1 low high tree := fits
    have nonempty := fits.least_le
    rw [LeafNode.keys, List.length_map] at nonempty
    rw [entries_leaf]
    exact nonempty
  | succ h ih =>
    rw [leaves, List.length_flatMap, entries_internal, List.length_flatMap]
    refine List.sum_le_sum fun child member => ?_
    obtain ⟨_, _, childFits⟩ := fits.2.2.exists_fits member
    exact ih childFits

namespace BPlusTree

variable {s : BPlusTree}

theorem Shape.height_le {tree : Tree h} (shape : s.Shape tree) (room : s.allocated < invalidPageId) : h ≤ 5 := by
  match h, tree, shape with
  | 0, _, _ => omega
  | h + 1, tree, shape =>
    have leavesLe := Nat.le_trans (leaves_le_pageIds tree) shape.skeleton.pageIds_le
    have powLe := Nat.le_trans (two_mul_pow_le_leaves shape.fits) leavesLe
    have small : (kInternalMinKeys + 1) ^ h < (kInternalMinKeys + 1) ^ 5 := by
      simp only [kInternalMinKeys_eq, invalidPageId] at powLe room ⊢
      omega
    have less := (Nat.pow_lt_pow_iff_right (by decide : 1 < kInternalMinKeys + 1)).mp small
    omega

theorem validateLeafKeys_passes {pageId : Nat} {lower upper previous : Option Int} {keys : List Int} (i : Nat)
    (sorted : keys.Pairwise (· ≤ ·)) (after : ∀ before ∈ previous, ∀ key ∈ keys, before ≤ key)
    (inRange : ∀ key ∈ keys, InRange lower upper key) :
    validateLeafKeys pageId lower upper i previous keys = none := by
  induction keys generalizing i previous with
  | nil => rfl
  | cons key keys ih =>
    obtain ⟨least, rest⟩ := List.pairwise_cons.mp sorted
    obtain ⟨notBelow, notAbove⟩ := inRange key List.mem_cons_self
    have afterPrevious : ¬ previous.any (fun before => key < before) = true := by
      simpa [Option.any_eq_true] using fun before isPrevious => after before isPrevious key List.mem_cons_self
    have atLeast : ¬ lower.any (fun bound => key < bound) = true := by simpa [Option.any_eq_true] using notBelow
    have below : ¬ upper.any (fun bound => bound ≤ key) = true := by simpa [Option.any_eq_true] using notAbove
    rw [validateLeafKeys, if_neg afterPrevious, if_neg atLeast, if_neg below]
    refine ih (i + 1) rest ?_ fun other member => inRange other (List.mem_cons_of_mem _ member)
    rintro _ ⟨⟩
    exact least

theorem validateSorted_passes {pageId : Nat} {before : Int} {keys : List Int} (i : Nat)
    (increasing : (before :: keys).Pairwise (· < ·)) : validateSorted pageId i before keys = none := by
  induction keys generalizing i before with
  | nil => rfl
  | cons key keys ih =>
    obtain ⟨greater, rest⟩ := List.pairwise_cons.mp increasing
    have after := greater key List.mem_cons_self
    rw [validateSorted, if_neg (Int.not_lt.mpr (Int.le_of_lt after))]
    exact ih (i + 1) rest

theorem validateLeaf_passes {pageId : Nat} {leaf : LeafNode} (here : s.LeafAt low high pageId leaf) :
    validateLeaf pageId leaf low high = none := by
  rw [validateLeaf, if_neg (Nat.not_lt.mpr here.le_max)]
  exact validateLeafKeys_passes 0 here.sorted nofun here.inRange

theorem validateInternal_passes {pageId : Nat} {isRoot : Bool} {node : InternalNode Nat}
    (here : s.InternalAt isRoot low high pageId node) : validateInternal pageId node = none := by
  rw [validateInternal, if_neg (Nat.not_lt.mpr here.le_max), if_neg (Decidable.not_not.mpr here.children_length)]
  cases keys : node.keys with
  | nil => rfl
  | cons first rest => exact validateSorted_passes 1 (keys ▸ here.increasing)

theorem firstError_passes {α : Type} {check : α → Except BTreeError (Option String)} {list : List α}
    (each : ∀ a ∈ list, check a = .ok none) : firstError check list = .ok none := by
  induction list with
  | nil => rfl
  | cons a rest ih =>
    obtain ⟨first, others⟩ := List.forall_mem_cons.mp each
    rw [firstError, first]
    exact ih others

theorem validateSubtree_passes {depth levels pageId : Nat} {isRoot : Bool} (node : s.NodeAt depth isRoot low high pageId)
    (enough : depth < levels) : s.validateSubtree levels pageId low high = .ok none := by
  induction depth generalizing levels pageId isRoot low high with
  | zero =>
    obtain ⟨levels, rfl⟩ : ∃ fewer, levels = fewer + 1 := ⟨levels - 1, by omega⟩
    obtain ⟨leaf, here⟩ := node
    rw [validateSubtree, here.stored]
    exact congrArg Except.ok (validateLeaf_passes here)
  | succ depth ih =>
    obtain ⟨levels, rfl⟩ : ∃ fewer, levels = fewer + 1 := ⟨levels - 1, by omega⟩
    obtain ⟨node, here, below⟩ := node
    rw [validateSubtree, here.stored]
    simp only [validateInternal_passes here]
    refine firstError_passes ?_
    rintro ⟨child, i⟩ member
    have isChild := List.mem_zipIdx_iff_getElem?.mp member
    obtain ⟨within, -⟩ := List.getElem?_eq_some_iff.mp isChild
    obtain ⟨lower, upper⟩ := childBounds_eq here.children_length low high within
    simp only [lower, upper]
    exact ih (below i child isChild) (by omega)

theorem Represents.validateInvariants {stored : List (Int × RID)} (represents : s.Represents stored) :
    s.validateInvariants = .ok none := by
  rcases represents.shape with ⟨empty, -⟩ | ⟨h, tree, shape, -⟩
  · rw [BPlusTree.validateInvariants, if_pos empty]
  · have low := shape.height_le represents.room
    rw [BPlusTree.validateInvariants, if_neg (shape.root_ne represents.room)]
    exact validateSubtree_passes (shape.wellShaped represents.room).nodes
      (Nat.lt_succ_of_le (Nat.le_trans low (by decide)))

theorem Represents.height {stored : List (Int × RID)} (represents : s.Represents stored) :
    ∃ levels, s.height = .ok levels ∧ levels ≤ 6 ∧ (levels = 0 ↔ stored = []) ∧
      (2 ≤ levels → 2 * (kInternalMinKeys + 1) ^ (levels - 2) ≤ stored.length) := by
  rcases represents.shape with ⟨empty, rfl⟩ | ⟨h, tree, shape, perm⟩
  · exact ⟨0, by simp [BPlusTree.height, empty], by omega, by simp, by omega⟩
  · have few := leaves_le_entries shape.fits
    rw [perm.length_eq] at few
    have some : 0 < stored.length := by
      obtain ⟨leaf, rest, -, leaves_eq⟩ := leftmostLeaf_held shape.held shape.branching (Nat.le_refl h)
      rw [leaves_eq] at few
      exact Nat.lt_of_lt_of_le (Nat.succ_pos _) few
    have low := shape.height_le represents.room
    refine ⟨h + 1, ?_, by omega, by simp [List.length_pos_iff.mp some], fun high => ?_⟩
    · rw [BPlusTree.height, if_neg (shape.root_ne represents.room), shape.root]
      exact heightFrom_held shape.held shape.fits (Nat.le_of_lt (shape.height_lt_steps represents.room))
    · cases h with
      | zero => exact absurd high (by decide)
      | succ h => exact Nat.le_trans (two_mul_pow_le_leaves shape.fits) few

end BPlusTree

namespace TreeOp

/-- At every point of every run that never stores more entries under one key than a leaf has room for: the check finds
nothing wrong, and the tree has six levels at most, and no more than a logarithm, to the base of the least fan-out, of the
number of entries. -/
theorem reachable_trees_pass (ops : List TreeOp)
    (few : ∀ ops', ops' <+: ops → ∀ key, ((storeAll ops' []).map Prod.fst).count key ≤ kLeafMaxKeys)
    (room : ∀ ops', ops' <+: ops → ((applyAll ops').exec {}).2.allocated < 2 ^ 32 - 1) :
    ∃ tree, (applyAll ops).exec {} = (.ok (answers ops []), tree) ∧ tree.validateInvariants = .ok none ∧
      ∃ levels, tree.height = .ok levels ∧ levels ≤ 6 ∧ (levels = 0 ↔ storeAll ops [] = []) ∧
        (2 ≤ levels → 2 * (kInternalMinKeys + 1) ^ (levels - 2) ≤ (storeAll ops []).length) := by
  obtain ⟨tree, done, represents⟩ := applyAll_exec BPlusTree.represents_empty ops few room
  exact ⟨tree, done, represents.validateInvariants, represents.height⟩

theorem reachable_trees_pass_ascending : ∃ tree,
    (applyAll (ascending 292)).exec {} = (.ok (List.replicate 292 true), tree) ∧
      tree.validateInvariants = .ok none ∧ tree.height = .ok 2 := by
  obtain ⟨tree, done, represents, -⟩ := ascending_represents 292 (by decide)
  obtain ⟨tree', done', passes, levels, isHeight, -, -, logarithmic⟩ := reachable_trees_pass (ascending 292)
    (fun _ => ascending_few) fun _ => ascending_room (by decide)
  have length := ascending_length 292
  obtain rfl : tree' = tree := by
    rw [done] at done'
    exact (Prod.ext_iff.mp done').2.symm
  have atLeast := represents.two_le_levels (by rw [length]; decide) isHeight
  have low := logarithmic atLeast
  obtain ⟨more, rfl⟩ : ∃ more, levels = more + 2 := ⟨levels - 2, by omega⟩
  refine ⟨tree', done, passes, ?_⟩
  cases more with
  | zero => exact isHeight
  | succ more =>
    -- a third level stands on 340 leaves
    have wide := Nat.pow_le_pow_right (show 0 < kInternalMinKeys + 1 by decide) (show 1 ≤ more + 1 by omega)
    rw [length, Nat.add_sub_cancel] at low
    rw [kInternalMinKeys_eq] at wide low
    omega

end TreeOp

end FlintDB
