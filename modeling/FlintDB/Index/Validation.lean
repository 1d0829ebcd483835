import FlintDB.Index.BTree

set_option autoImplicit false

-- The check walks the tree with the bounds its separators give each child. It is a check of whatever is in the pages:
-- what it has passed need not have been built by Insert and Delete.

namespace FlintDB

open Lib

def kMaxValidateDepth : Nat := 500

namespace BPlusTree

def validateLeafKeys (pageId : Nat) (lower upper : Option Int) : Nat → Option Int → List Int → Option String
  | _, _, [] => none
  | i, previous, key :: keys =>
    if previous.any fun before => key < before then
      some ("leaf " ++ toString pageId ++ " keys not sorted at index " ++ toString i)
    else if lower.any fun bound => key < bound then
      some ("leaf " ++ toString pageId ++ " key " ++ toString key ++ " at index " ++ toString i ++
        " violates lower bound " ++ toString (lower.getD 0))
    else if upper.any fun bound => bound ≤ key then
      some ("leaf " ++ toString pageId ++ " key " ++ toString key ++ " at index " ++ toString i ++
        " violates upper bound " ++ toString (upper.getD 0))
    else validateLeafKeys pageId lower upper (i + 1) (some key) keys

def validateLeaf (pageId : Nat) (leaf : LeafNode) (lower upper : Option Int) : Option String :=
  if leaf.keys.length > kLeafMaxKeys then
    some ("leaf " ++ toString pageId ++ " overflowed: " ++ toString leaf.keys.length ++ " keys > max " ++
      toString kLeafMaxKeys)
  else validateLeafKeys pageId lower upper 0 none leaf.keys

def validateSorted (pageId : Nat) : Nat → Int → List Int → Option String
  | _, _, [] => none
  | i, before, key :: keys =>
    if key < before then some ("internal " ++ toString pageId ++ " keys not sorted at index " ++ toString i)
    else validateSorted pageId (i + 1) key keys

def validateInternal (pageId : Nat) (node : InternalNode Nat) : Option String :=
  if node.keys.length > kInternalMaxKeys then
    some ("internal " ++ toString pageId ++ " overflowed: " ++ toString node.keys.length ++ " keys > max " ++
      toString kInternalMaxKeys)
  else if node.children.length ≠ node.keys.length + 1 then
    some ("internal " ++ toString pageId ++ " has " ++ toString node.children.length ++ " children but " ++
      toString node.keys.length ++ " keys")
  else
    match node.keys with
    | [] => none
    | first :: keys => validateSorted pageId 1 first keys

def firstError {α : Type} (check : α → Except BTreeError (Option String)) : List α → Except BTreeError (Option String)
  | [] => .ok none
  | a :: rest => do
    match ← check a with
    | some error => return some error
    | none => firstError check rest

-- `levels` more levels are within kMaxValidateDepth. A bound that is not there is `has_lower` or `has_upper` false.
def validateSubtree (tree : BPlusTree) : Nat → Nat → Option Int → Option Int → Except BTreeError (Option String)
  | 0, pageId, _, _ =>
    return some ("subtree rooted at " ++ toString pageId ++ " exceeded the maximum validation depth -- " ++
      "this can only mean a corrupted child pointer has formed a cycle")
  | levels + 1, pageId, lower, upper =>
    match tree.pages pageId with
    | some (.leaf leaf) => return validateLeaf pageId leaf lower upper
    | some (.internal node) =>
      match validateInternal pageId node with
      | some error => return some error
      | none =>
        firstError (fun (child, i) =>
          let childLower := if i = 0 then lower else node.keys[i - 1]?
          let childUpper := if i = node.children.length - 1 then upper else node.keys[i]?
          tree.validateSubtree levels child childLower childUpper) node.children.zipIdx
    | none => throw .undefined

def validateInvariants (tree : BPlusTree) : Except BTreeError (Option String) :=
  if tree.rootPageId = invalidPageId then .ok none
  else tree.validateSubtree (kMaxValidateDepth + 1) tree.rootPageId none none

-- Child pointers lead from the page to the leaf.
inductive LeafUnder (tree : BPlusTree) : Nat → LeafNode → Prop
  | leaf {pageId : Nat} {leaf : LeafNode} (stored : tree.pages pageId = some (.leaf leaf)) : LeafUnder tree pageId leaf
  | child {pageId child : Nat} {node : InternalNode Nat} {leaf : LeafNode}
    (stored : tree.pages pageId = some (.internal node)) (isChild : child ∈ node.children)
    (under : LeafUnder tree child leaf) : LeafUnder tree pageId leaf

/-- Child pointers lead from the page to the leaf, and the key is on the right side of every separator they pass. -/
inductive Admits (tree : BPlusTree) (key : Int) : Nat → LeafNode → Prop
  | leaf {pageId : Nat} {leaf : LeafNode} (stored : tree.pages pageId = some (.leaf leaf)) : Admits tree key pageId leaf
  | child {pageId i child : Nat} {node : InternalNode Nat} {leaf : LeafNode}
    (stored : tree.pages pageId = some (.internal node)) (isChild : node.children[i]? = some child)
    (between : InRange (childLow node.keys none i) (childHigh node.keys none i) key)
    (admits : Admits tree key child leaf) : Admits tree key pageId leaf

/-- An empty tree has no leaves, whatever its pages hold. -/
def HasLeaf (tree : BPlusTree) (leaf : LeafNode) : Prop :=
  tree.rootPageId ≠ invalidPageId ∧ tree.LeafUnder tree.rootPageId leaf

theorem validateSorted_none {pageId i : Nat} {before : Int} {keys : List Int}
    (passed : validateSorted pageId i before keys = none) : (before :: keys).Pairwise (· ≤ ·) := by
  induction keys generalizing i before with
  | nil => simp
  | cons key keys ih =>
    rw [validateSorted] at passed
    split at passed
    · cases passed
    · rename_i notLess
      have sorted := ih passed
      have least := (List.pairwise_cons.mp sorted).1
      refine List.pairwise_cons.mpr ⟨List.forall_mem_cons.mpr ⟨Int.not_lt.mp notLess, fun other member => ?_⟩, sorted⟩
      exact Int.le_trans (Int.not_lt.mp notLess) (least other member)

theorem validateInternal_none {pageId : Nat} {node : InternalNode Nat} (passed : validateInternal pageId node = none) :
    node.children.length = node.keys.length + 1 ∧ node.keys.Pairwise (· ≤ ·) := by
  rw [validateInternal] at passed
  split at passed
  · cases passed
  split at passed
  · cases passed
  · rename_i aligned
    refine ⟨Decidable.not_not.mp aligned, ?_⟩
    cases keys : node.keys with
    | nil => exact List.Pairwise.nil
    | cons first rest =>
      rw [keys] at passed
      exact validateSorted_none passed

theorem firstError_none {α : Type} {check : α → Except BTreeError (Option String)} {list : List α}
    (passed : firstError check list = .ok none) : ∀ a ∈ list, check a = .ok none := by
  induction list with
  | nil => simp
  | cons a rest ih =>
    rw [firstError] at passed
    cases checked : check a with
    | error e =>
      rw [checked] at passed
      cases passed
    | ok found =>
      rw [checked] at passed
      cases found with
      | some error => cases passed
      | none => exact List.forall_mem_cons.mpr ⟨checked, ih passed⟩

theorem childBounds_eq {node : InternalNode Nat} (aligned : node.children.length = node.keys.length + 1)
    (lower upper : Option Int) {i : Nat} (within : i < node.children.length) :
    (if i = 0 then lower else node.keys[i - 1]?) = childLow node.keys lower i ∧
      (if i = node.children.length - 1 then upper else node.keys[i]?) = childHigh node.keys upper i := by
  constructor
  · cases i <;> rfl
  · rw [childHigh]
    by_cases last : i = node.children.length - 1
    · rw [if_pos last, List.getElem?_eq_none (by omega), Option.none_or]
    · rw [if_neg last, List.getElem?_eq_getElem (by omega), Option.some_or]

theorem validateSubtree_internal {tree : BPlusTree} {levels pageId : Nat} {lower upper : Option Int}
    {node : InternalNode Nat} (passed : tree.validateSubtree (levels + 1) pageId lower upper = .ok none)
    (stored : tree.pages pageId = some (.internal node)) :
    node.children.length = node.keys.length + 1 ∧ node.keys.Pairwise (· ≤ ·) ∧
      ∀ i child, node.children[i]? = some child →
        tree.validateSubtree levels child (childLow node.keys lower i) (childHigh node.keys upper i) = .ok none := by
  rw [validateSubtree, stored] at passed
  simp only at passed
  cases shape : validateInternal pageId node with
  | some error =>
    rw [shape] at passed
    cases passed
  | none =>
    rw [shape] at passed
    obtain ⟨aligned, sorted⟩ := validateInternal_none shape
    refine ⟨aligned, sorted, fun i child isChild => ?_⟩
    have here := firstError_none passed (child, i) (List.mem_zipIdx_iff_getElem?.mpr isChild)
    obtain ⟨within, -⟩ := List.getElem?_eq_some_iff.mp isChild
    obtain ⟨low, high⟩ := childBounds_eq aligned lower upper within
    simpa only [low, high] using here

theorem upperBound_eq_of_inRange {keys : List Int} (sorted : keys.Pairwise (· ≤ ·)) {lower upper : Option Int} {i : Nat}
    (within : i ≤ keys.length) {key : Int} (inRange : InRange (childLow keys lower i) (childHigh keys upper i) key) :
    upperBound keys key = i := by
  obtain ⟨atMost, greater⟩ := upperBound_cut sorted key
  have most := upperBound_le keys key
  rcases Nat.lt_trichotomy (upperBound keys key) i with less | same | more
  · -- the separator in front of the child is not greater than the key
    exfalso
    obtain ⟨j, rfl⟩ : ∃ j, i = j + 1 := ⟨i - 1, by omega⟩
    have low := inRange.low_le keys[j] (List.getElem?_eq_getElem (by omega))
    have later := greater keys[j] (List.mem_drop_iff_getElem.mpr ⟨j - upperBound keys key, by omega, by
      congr 1; omega⟩)
    omega
  · exact same
  · -- the one behind it is
    exfalso
    have high := inRange.lt_high keys[i] (by
      rw [childHigh, List.getElem?_eq_getElem (by omega)]
      rfl)
    have earlier := atMost keys[i] (List.mem_take_iff_getElem.mpr ⟨i, by omega, rfl⟩)
    omega

theorem inRange_upperBound {keys : List Int} (sorted : keys.Pairwise (· ≤ ·)) (key : Int) :
    InRange (childLow keys none (upperBound keys key)) (childHigh keys none (upperBound keys key)) key := by
  obtain ⟨atMost, greater⟩ := upperBound_cut sorted key
  refine ⟨fun bound isLow => ?_, fun bound isHigh => ?_⟩
  · cases position : upperBound keys key with
    | zero =>
      rw [position] at isLow
      cases isLow
    | succ i =>
      rw [position] at isLow atMost
      obtain ⟨within, rfl⟩ := List.getElem?_eq_some_iff.mp isLow
      exact atMost _ (List.mem_take_iff_getElem.mpr ⟨i, by omega, rfl⟩)
  · rw [childHigh, Option.or_none] at isHigh
    obtain ⟨within, rfl⟩ := List.getElem?_eq_some_iff.mp isHigh
    exact greater _ (List.mem_drop_iff_getElem.mpr ⟨0, by omega, rfl⟩)

section Passed

variable {tree : BPlusTree} {levels pageId : Nat} {lower upper : Option Int} {key : Int} {leaf : LeafNode}

theorem Admits.descend (admits : tree.Admits key pageId leaf)
    (passed : tree.validateSubtree levels pageId lower upper = .ok none) {steps : Nat} (enough : levels ≤ steps) :
    tree.descend key steps pageId = .ok leaf := by
  induction admits generalizing levels lower upper steps with
  | leaf stored =>
    cases levels with
    | zero => cases passed
    | succ levels =>
      obtain ⟨steps, rfl⟩ : ∃ fewer, steps = fewer + 1 := ⟨steps - 1, by omega⟩
      rw [BPlusTree.descend, stored]
  | @child _ i child node _ stored isChild between _ ih =>
    cases levels with
    | zero => cases passed
    | succ levels =>
      obtain ⟨steps, rfl⟩ : ∃ fewer, steps = fewer + 1 := ⟨steps - 1, by omega⟩
      obtain ⟨aligned, sorted, below⟩ := validateSubtree_internal passed stored
      obtain ⟨within, -⟩ := List.getElem?_eq_some_iff.mp isChild
      have position := upperBound_eq_of_inRange sorted (by omega) between
      rw [BPlusTree.descend, stored]
      simp only [position, isChild]
      exact ih (below i child isChild) (by omega)

theorem admits_of_descend {steps : Nat} (reached : tree.descend key steps pageId = .ok leaf)
    (passed : tree.validateSubtree levels pageId lower upper = .ok none) : tree.Admits key pageId leaf := by
  induction steps generalizing levels pageId lower upper with
  | zero => cases reached
  | succ steps ih =>
    cases levels with
    | zero => cases passed
    | succ levels =>
      rw [BPlusTree.descend] at reached
      cases stored : tree.pages pageId with
      | none => simp [stored] at reached
      | some node =>
        cases node with
        | leaf found =>
          simp only [stored, Except.ok.injEq] at reached
          exact .leaf (reached ▸ stored)
        | internal node =>
          obtain ⟨-, sorted, below⟩ := validateSubtree_internal passed stored
          simp only [stored] at reached
          split at reached
          · rename_i child isChild
            exact .child stored isChild (inRange_upperBound sorted key) (ih reached (below _ child isChild))
          · cases reached

end Passed

/-- The entry is found: the descent for its key ends in a leaf that holds it, and Search returns its RID. -/
def Finds (tree : BPlusTree) (key : Int) (rid : RID) : Prop :=
  ∃ leaf rids, tree.descend key kMaxTraversalSteps tree.rootPageId = .ok leaf ∧ (key, rid) ∈ leaf.entries ∧
    tree.search key = .ok rids ∧ rid ∈ rids

theorem finds_of_descend {tree : BPlusTree} (nonempty : tree.rootPageId ≠ invalidPageId) {key : Int} {rid : RID}
    {leaf : LeafNode} (reached : tree.descend key kMaxTraversalSteps tree.rootPageId = .ok leaf)
    (stored : (key, rid) ∈ leaf.entries) : tree.Finds key rid := by
  refine ⟨leaf, _, reached, stored, by rw [search, if_neg nonempty, reached]; rfl, ?_⟩
  exact List.mem_map.mpr ⟨(key, rid), List.mem_filter.mpr ⟨stored, by simp⟩, rfl⟩

/-- A tree that passed the check has every stored entry found if and only if every entry is stored in a leaf where all
the separators above admit it. The check itself looks at the last separator on each side only. -/
theorem validateInvariants_sound_iff (tree : BPlusTree) (passed : tree.validateInvariants = .ok none) :
    (∀ leaf, tree.HasLeaf leaf → ∀ key rid, (key, rid) ∈ leaf.entries → tree.Finds key rid) ↔
      ∀ leaf, tree.HasLeaf leaf → ∀ key rid, (key, rid) ∈ leaf.entries →
        ∃ other, tree.Admits key tree.rootPageId other ∧ (key, rid) ∈ other.entries := by
  by_cases empty : tree.rootPageId = invalidPageId
  · exact ⟨fun _ leaf hasLeaf => absurd empty hasLeaf.1, fun _ leaf hasLeaf => absurd empty hasLeaf.1⟩
  · rw [validateInvariants, if_neg empty] at passed
    constructor
    · intro sound leaf hasLeaf key rid stored
      obtain ⟨found, _, reached, inFound, -⟩ := sound leaf hasLeaf key rid stored
      exact ⟨found, admits_of_descend reached passed, inFound⟩
    · intro admitted leaf hasLeaf key rid stored
      obtain ⟨other, admits, inOther⟩ := admitted leaf hasLeaf key rid stored
      exact finds_of_descend empty (admits.descend passed (by decide)) inOther

def validTree : BPlusTree where
  pages := fun pageId =>
    match pageId with
    | 1 => some (.internal { pageId := 1, keys := [10], children := [2, 3] })
    | 2 => some (.leaf { pageId := 2, nextLeaf := 3, entries := [(5, ⟨0, 0⟩)] })
    | 3 => some (.leaf { pageId := 3 })
    | _ => none
  rootPageId := 1
  allocated := 4

theorem validateInvariants_sound_iff_one_entry :
    validTree.validateInvariants = .ok none ∧ validTree.Finds 5 ⟨0, 0⟩ := by
  have passed : validTree.validateInvariants = .ok none := by decide
  have stored : validTree.pages 2 = some (.leaf { pageId := 2, nextLeaf := 3, entries := [(5, ⟨0, 0⟩)] }) := rfl
  refine ⟨passed, (validateInvariants_sound_iff validTree passed).mpr ?_ _
    ⟨by decide, .child rfl (show 2 ∈ [2, 3] by decide) (.leaf stored)⟩ 5 ⟨0, 0⟩ List.mem_cons_self⟩
  rintro leaf ⟨-, under⟩ key rid isEntry
  cases under with
  | leaf root => cases root
  | child root isChild under =>
    cases root
    obtain rfl | rfl : _ = 2 ∨ _ = 3 := by simpa using isChild
    · cases under with
      | leaf here =>
        cases here
        obtain ⟨rfl, rfl⟩ : key = 5 ∧ rid = ⟨0, 0⟩ := by simpa using isEntry
        exact ⟨_, .child (i := 0) rfl rfl ⟨by simp [childLow], by simp [childHigh]⟩ (.leaf stored), List.mem_cons_self⟩
      | child here => cases here
    · cases under with
      | leaf here =>
        cases here
        cases isEntry
      | child here => cases here

/-- The separator of page 2 is beyond that of the root, and so is the key under it. -/
def strandingTree : BPlusTree where
  pages := fun pageId =>
    match pageId with
    | 1 => some (.internal { pageId := 1, keys := [10], children := [2, 3] })
    | 2 => some (.internal { pageId := 2, keys := [20], children := [4, 5] })
    | 3 => some (.leaf { pageId := 3 })
    | 4 => some (.leaf { pageId := 4, nextLeaf := 5, entries := [(15, ⟨0, 0⟩)] })
    | 5 => some (.leaf { pageId := 5, nextLeaf := 3 })
    | _ => none
  rootPageId := 1
  allocated := 6

/-- The check passes, and the key is not found. -/
theorem validateInvariants_passes_stranded_key :
    strandingTree.validateInvariants = .ok none ∧
      strandingTree.HasLeaf { pageId := 4, nextLeaf := 5, entries := [(15, ⟨0, 0⟩)] } ∧
      strandingTree.search 15 = .ok [] := by
  refine ⟨by decide, ⟨by decide, ?_⟩, by decide⟩
  exact .child rfl (show 2 ∈ [2, 3] by decide) (.child rfl (show 4 ∈ [4, 5] by decide) (.leaf rfl))

end BPlusTree

end FlintDB
