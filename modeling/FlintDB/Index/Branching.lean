import FlintDB.Index.TreeBounds
import FlintDB.Index.TreeInvariant

set_option autoImplicit false

-- Whatever the keys are, and however often they repeat, every internal node has one child more than keys. That there
-- are two of them is another matter: a split at the last separator leaves a right half with one child.

namespace FlintDB

open Lib

namespace Tree

def Branching (least inner : Nat) : (h : Nat) → Tree h → Prop
  | 0, _ => True
  | h + 1, (node : InternalNode (Tree h)) =>
    node.children.length = node.keys.length + 1 ∧ least ≤ node.keys.length ∧
      ∀ child ∈ node.children, Branching inner inner h child

theorem Branching.mono {least least' inner h : Nat} {tree : Tree h} (branching : Branching least inner h tree)
    (le : least' ≤ least) : Branching least' inner h tree := by
  cases h with
  | zero => trivial
  | succ h => exact ⟨branching.1, Nat.le_trans le branching.2.1, branching.2.2⟩

theorem WellFormed.branching {leafLeast innerLeast h : Nat} {low high : Option Int} {tree : Tree h}
    (fits : WellFormed leafLeast innerLeast h low high tree) {inner : Nat} (le : inner ≤ kInternalMinKeys) :
    Branching innerLeast inner h tree := by
  induction h generalizing leafLeast innerLeast low high with
  | zero => trivial
  | succ h ih =>
    refine ⟨fits.2.2.length, fits.1, fun child member => ?_⟩
    obtain ⟨_, _, childFits⟩ := fits.2.2.exists_fits member
    exact (ih childFits).mono le

theorem Branching.first {least inner h : Nat} {node : InternalNode (Tree h)}
    (branching : Branching least inner (h + 1) node) : ∃ first others, node.children = first :: others := by
  have length := branching.1
  exact List.exists_cons_of_length_pos (by omega)

theorem height_lt_pageIds {least inner h : Nat} {tree : Tree h} (branching : Branching least inner h tree) :
    h < (pageIds h tree).length := by
  induction h generalizing least with
  | zero => exact Nat.one_pos
  | succ h ih =>
    obtain ⟨first, others, children_eq⟩ := branching.first
    have deep := ih (branching.2.2 first (by simp [children_eq]))
    simp only [pageIds, children_eq, List.flatMap_cons, List.length_cons, List.length_append]
    omega

def cutAtLast (keys : List Int) : Bool :=
  kInternalMaxKeys < keys.length && findSplitBoundary keys (keys.length / 2) + 1 = keys.length

def SplitsAtLast (key : Int) (rid : RID) : (h : Nat) → Tree h → Nat → Prop
  | 0, _, _ => False
  | h + 1, (node : InternalNode (Tree h)), allocated =>
    ∃ child, node.children[upperBound node.keys key]? = some child ∧
      (SplitsAtLast key rid h child allocated ∨
        ∃ tree splitKey right allocated', insert key rid h child allocated =
            some ⟨tree, some (splitKey, right), allocated'⟩ ∧
          cutAtLast (node.keys.insertIdx (upperBound node.keys key) splitKey))

theorem insert_exists (key : Int) (rid : RID) {least inner h : Nat} {tree : Tree h} (allocated : Nat)
    (branching : Branching least inner h tree) : ∃ result, insert key rid h tree allocated = some result := by
  induction h generalizing least with
  | zero =>
    simp only [insert]
    split <;> exact ⟨_, rfl⟩
  | succ h ih =>
    obtain ⟨length, -, below⟩ := branching
    have idx_le := upperBound_le tree.keys key
    have within : upperBound tree.keys key < tree.children.length := by omega
    obtain ⟨childResult, childInserted⟩ := ih (below _ (List.getElem_mem within))
    simp only [insert, List.getElem?_eq_getElem within, Option.bind_eq_bind, Option.bind_some, childInserted]
    split
    · exact ⟨_, rfl⟩
    · split <;> exact ⟨_, rfl⟩

theorem insert_allocated_add {key : Int} {rid : RID} {h : Nat} {tree : Tree h} {allocated : Nat}
    {result : Inserted h} (inserted : insert key rid h tree allocated = some result) :
    result.allocated ≤ allocated + h + 1 := by
  induction h with
  | zero =>
    rcases insert_leaf inserted with ⟨-, rfl⟩ | ⟨-, rfl⟩
    · exact Nat.le_succ _
    · exact Nat.le_refl _
  | succ h ih =>
    obtain ⟨_, _, _, _, _, childResult, -, -, -, -, childInserted, ⟨-, rfl⟩ | ⟨-, rfl⟩⟩ :=
      insert_internal inserted
    · exact Nat.le_succ_of_le (ih childInserted)
    · exact Nat.succ_le_succ (ih childInserted)

theorem grown_branching {least inner h : Nat} {node : InternalNode (Tree h)} {keys₁ keys₂ : List Int}
    {before after : List (Tree h)} {child : Tree h} {childResult : Inserted h}
    (branching : Branching least inner (h + 1) node) (keys_eq : node.keys = keys₁ ++ keys₂)
    (children_eq : node.children = before ++ child :: after)
    (halves : ∀ half ∈ childResult.trees, Branching inner inner h half) :
    Branching least inner (h + 1) (grown node keys₁ keys₂ before after childResult) := by
  obtain ⟨length, least_le, below⟩ := branching
  have more : childResult.trees.length = childResult.separators.length + 1 := by
    simp [Inserted.trees, Inserted.separators]
  simp only [keys_eq, children_eq, List.length_append, List.length_cons] at length least_le
  refine ⟨?_, ?_, fun other member => ?_⟩
  · simp only [grown, List.length_append]
    omega
  · simp only [grown, List.length_append]
    omega
  · simp only [grown, List.mem_append] at member
    rcases member with isBefore | isHalf | isAfter
    · exact below other (by simp [children_eq, isBefore])
    · exact halves other isHalf
    · exact below other (by simp [children_eq, isAfter])

theorem splitInternal_branching {least inner h : Nat} {node : InternalNode (Tree h)} (allocated : Nat)
    (branching : Branching least inner (h + 1) node) (overflow : kInternalMaxKeys < node.keys.length)
    (small : inner ≤ 1)
    (even : inner = 1 → findSplitBoundary node.keys (node.keys.length / 2) + 1 ≠ node.keys.length) :
    ∀ half ∈ (splitInternal node allocated).trees, Branching inner inner (h + 1) half := by
  obtain ⟨length, -, below⟩ := branching
  simp only [kInternalMaxKeys_eq] at overflow
  obtain ⟨positive, within⟩ := BPlusTree.findSplitBoundary_within (show 0 < node.keys.length / 2 by omega)
    (show node.keys.length / 2 < node.keys.length by omega)
  intro half isHalf
  simp only [splitInternal, Inserted.trees, InternalNode.split, Option.toList_some, List.map_cons, List.map_nil,
    List.mem_cons, List.not_mem_nil, or_false] at isHalf
  generalize findSplitBoundary node.keys (node.keys.length / 2) = place at *
  rcases isHalf with rfl | rfl
  · refine ⟨?_, ?_, fun child member => below child (List.mem_of_mem_take member)⟩
    · simp only [List.length_take]
      omega
    · simp only [List.length_take]
      omega
  · refine ⟨?_, ?_, fun child member => below child (List.mem_of_mem_drop member)⟩
    · simp only [List.length_drop]
      omega
    · simp only [List.length_drop]
      rcases Nat.le_one_iff_eq_zero_or_eq_one.mp small with rfl | rfl
      · exact Nat.zero_le _
      · have notLast := even rfl
        omega

theorem insert_branching {key : Int} {rid : RID} {least inner h : Nat} {tree : Tree h} {allocated : Nat}
    {result : Inserted h} (branching : Branching least inner h tree)
    (inserted : insert key rid h tree allocated = some result) (small : inner ≤ 1)
    (even : inner = 1 → ¬ SplitsAtLast key rid h tree allocated) :
    (result.split = none → Branching least inner h result.tree) ∧
      (result.split ≠ none → ∀ half ∈ result.trees, Branching inner inner h half) := by
  induction h generalizing least with
  | zero => exact ⟨fun _ => trivial, fun _ _ _ => trivial⟩
  | succ h ih =>
    obtain ⟨keys₁, keys₂, before, child, after, childResult, keys_eq, children_eq, aligned, position, childInserted,
      outcome⟩ := insert_internal inserted
    have childAt : tree.children[upperBound tree.keys key]? = some child := by
      rw [← position, children_eq, List.getElem?_append_right (Nat.le_refl _), Nat.sub_self, List.getElem?_cons_zero]
    obtain ⟨whole, split⟩ := ih (branching.2.2 child (by simp [children_eq])) childInserted
      fun isOne unevenBelow => even isOne ⟨child, childAt, .inl unevenBelow⟩
    have halves : ∀ half ∈ childResult.trees, Branching inner inner h half := by
      by_cases isWhole : childResult.split = none
      · intro half isHalf
        simp only [Inserted.trees, isWhole, Option.toList_none, List.map_nil, List.mem_singleton] at isHalf
        rw [isHalf]
        exact whole isWhole
      · exact split isWhole
    have grownBranching := grown_branching branching keys_eq children_eq halves
    rcases outcome with ⟨-, rfl⟩ | ⟨⟨isSplit, overflow⟩, rfl⟩
    · exact ⟨fun _ => grownBranching, fun isSplit => absurd rfl isSplit⟩
    · refine ⟨fun isWhole => (nomatch isWhole), fun _ => ?_⟩
      refine splitInternal_branching childResult.allocated grownBranching overflow small fun isOne atLast => ?_
      obtain ⟨childTree, childSplit, allocated'⟩ := childResult
      obtain ⟨⟨splitKey, right⟩, rfl⟩ := Option.ne_none_iff_exists'.mp isSplit
      have keys_grown : tree.keys.insertIdx (upperBound tree.keys key) splitKey =
          (grown tree keys₁ keys₂ before after ⟨childTree, some (splitKey, right), allocated'⟩).keys := by
        rw [← position, ← aligned, keys_eq, insertIdx_length]
        rfl
      refine even isOne ⟨child, childAt, .inr ⟨childTree, splitKey, right, allocated', childInserted, ?_⟩⟩
      rw [keys_grown, cutAtLast, Bool.and_eq_true, decide_eq_true_iff, decide_eq_true_iff]
      exact ⟨overflow, atLast⟩

theorem mendsInternal_branching {inner h : Nat} {left right : InternalNode (Tree h)} {separator : Int}
    {childIsRight : Bool} {mended : Mended (InternalNode (Tree h))}
    (mends : MendsInternal left separator right childIsRight mended) (small : inner ≤ 1)
    (leftBranching : Branching 0 inner (h + 1) left) (rightBranching : Branching 0 inner (h + 1) right) :
    ∀ node ∈ mended.nodes, Branching inner inner (h + 1) node := by
  obtain ⟨leftLength, -, leftBelow⟩ := leftBranching
  obtain ⟨rightLength, -, rightBelow⟩ := rightBranching
  cases mends with
  | fromLeft spare keys_eq children_eq =>
    simp only [keys_eq, children_eq, List.length_append, List.length_cons, List.length_nil, kInternalMinKeys_eq]
      at leftLength spare
    simp only [children_eq, List.mem_append, List.mem_singleton] at leftBelow
    simp only [Mended.nodes, List.mem_cons, List.not_mem_nil, or_false]
    rintro node (rfl | rfl)
    · refine ⟨?_, ?_, fun child member => leftBelow child (.inl member)⟩
      · simp only
        omega
      · simp only
        omega
    · refine ⟨?_, ?_, fun child member => ?_⟩
      · simp only [List.length_cons]
        omega
      · simp only [List.length_cons]
        omega
      · rcases List.mem_cons.mp member with rfl | older
        · exact leftBelow _ (.inr rfl)
        · exact rightBelow child older
  | fromRight spare keys_eq children_eq =>
    simp only [keys_eq, children_eq, List.length_cons, kInternalMinKeys_eq] at rightLength spare
    simp only [children_eq, List.mem_cons] at rightBelow
    simp only [Mended.nodes, List.mem_cons, List.not_mem_nil, or_false]
    rintro node (rfl | rfl)
    · refine ⟨?_, ?_, fun child member => ?_⟩
      · simp only [List.length_append, List.length_cons, List.length_nil]
        omega
      · simp only [List.length_append, List.length_cons, List.length_nil]
        omega
      · rcases List.mem_append.mp member with older | moved
        · exact leftBelow child older
        · exact rightBelow child (.inl (List.mem_singleton.mp moved))
    · refine ⟨?_, ?_, fun child member => rightBelow child (.inr member)⟩
      · simp only
        omega
      · simp only
        omega
  | mergeLeft tight | mergeRight tight =>
    simp only [Mended.nodes, List.mem_singleton, forall_eq, InternalNode.merge]
    refine ⟨?_, ?_, fun child member => ?_⟩
    · simp only [List.length_append, List.length_cons]
      omega
    · simp only [List.length_append, List.length_cons]
      omega
    · rcases List.mem_append.mp member with inLeft | inRight
      · exact leftBelow child inLeft
      · exact rightBelow child inRight

theorem fixUnderflow_window {h : Nat} {parent parent' : InternalNode (Tree h)} {idx : Nat}
    (fixed : fixUnderflow h parent idx = some parent') {inner : Nat} (small : inner ≤ 1) :
    ∃ before left right after mended, parent.children = before ++ left :: right :: after ∧
      (idx = before.length ∨ idx = before.length + 1) ∧ parent' = install parent before.length mended ∧
      (Branching 0 inner h left → Branching 0 inner h right → ∀ node ∈ mended.nodes, Branching inner inner h node) := by
  cases h with
  | zero =>
    simp only [fixUnderflow, Option.bind_eq_bind, Option.bind_eq_some_iff, Option.pure_def, Option.some.injEq] at fixed
    obtain ⟨⟨pos, mended⟩, found, rfl⟩ := fixed
    obtain ⟨before, left, right, after, ideal, children_eq, rfl, side, rfl⟩ := fixLeaf_window found
    exact ⟨before, left, right, after, _, children_eq, side, rfl, fun _ _ _ _ => trivial⟩
  | succ h =>
    simp only [fixUnderflow, Option.bind_eq_bind, Option.bind_eq_some_iff, Option.pure_def, Option.some.injEq] at fixed
    obtain ⟨⟨pos, mended⟩, found, rfl⟩ := fixed
    obtain ⟨before, left, right, after, separator, childIsRight, children_eq, rfl, side, -, mends⟩ :=
      fixInternal_window found
    refine ⟨before, left, right, after, mended, children_eq, ?_, rfl, mendsInternal_branching mends small⟩
    cases childIsRight with
    | false => exact .inl side
    | true => exact .inr side

theorem fixUnderflow_branching {inner h : Nat} {parent parent' : InternalNode (Tree h)} {before after : List (Tree h)}
    {child : Tree h} (fixed : fixUnderflow h parent before.length = some parent') (small : inner ≤ 1)
    (length : parent.children.length = parent.keys.length + 1) (children_eq : parent.children = before ++ child :: after)
    (others : ∀ other, other ∈ before ∨ other ∈ after → Branching inner inner h other)
    (childBranching : Branching 0 inner h child) :
    Branching (parent.keys.length - 1) inner (h + 1) parent' := by
  obtain ⟨before', left, right, after', mended, window, side, rfl, mends⟩ := fixUnderflow_window fixed small
  have keysAt : before'.length < parent.keys.length := by
    rw [window] at length
    simp only [List.length_append, List.length_cons] at length
    omega
  have keys_eq : parent.keys = parent.keys.take before'.length ++
      parent.keys[before'.length] :: parent.keys.drop (before'.length + 1) := by
    rw [← List.drop_eq_getElem_cons keysAt, List.take_append_drop]
  have keysLength : (parent.keys.take before'.length).length = before'.length := by
    rw [List.length_take]
    omega
  have keys' := install_keys keys_eq mended
  rw [keysLength] at keys'
  have children' := install_children window mended
  have more : mended.nodes.length = mended.separators.length + 1 := by
    cases mended <;> rfl
  rw [window] at length
  simp only [List.length_append, List.length_cons] at length
  -- the neighbours are the child and one of the others; the rest is where it was
  have sides : Branching 0 inner h left ∧ Branching 0 inner h right ∧
      ∀ other, other ∈ before' ∨ other ∈ after' → Branching inner inner h other := by
    rcases window_sides (children_eq.symm.trans window) side with ⟨rfl, rfl, rfl⟩ | ⟨rfl, rfl, rfl⟩
    · refine ⟨childBranching, (others right (.inr List.mem_cons_self)).mono (Nat.zero_le _), fun other member => ?_⟩
      exact others other (member.imp_right (List.mem_cons_of_mem _))
    · refine ⟨(others left (.inl (by simp))).mono (Nat.zero_le _), childBranching, fun other member => ?_⟩
      exact others other (member.imp_left (List.mem_append_left _))
  refine ⟨?_, ?_, fun other member => ?_⟩
  · rw [keys', children']
    simp only [List.length_append, keysLength, List.length_drop]
    omega
  · rw [keys']
    simp only [List.length_append, keysLength, List.length_drop]
    omega
  · rw [children', List.mem_append, List.mem_append] at member
    rcases member with isBefore | isNode | isAfter
    · exact sides.2.2 other (.inl isBefore)
    · exact mends sides.1 sides.2.1 other isNode
    · exact sides.2.2 other (.inr isAfter)

theorem delete_branching {key : Int} {rid : RID} {least inner h : Nat} {tree tree' : Tree h} {isRoot underflow : Bool}
    (deleted : delete key rid h tree isRoot = some (some (tree', underflow))) (small : inner ≤ 1)
    (branching : Branching least inner h tree) : Branching (least - 1) inner h tree' := by
  induction h generalizing least isRoot underflow with
  | zero => trivial
  | succ h ih =>
    obtain ⟨before, child, after, childResult, children_eq, -, childDeleted, outcome⟩ := delete_internal deleted
    obtain ⟨length, least_le, below⟩ := branching
    rcases outcome with ⟨-, isNone⟩ | ⟨child', childUnderflow, node', rfl, fixed, isSome⟩
    · cases isNone
    · cases isSome
      have childBranching := ih childDeleted (below child (by simp [children_eq]))
      have others : ∀ other, other ∈ before ∨ other ∈ after → Branching inner inner h other := by
        intro other member
        refine below other ?_
        rw [children_eq, List.mem_append, List.mem_cons]
        exact member.imp_right .inr
      have sameLength : (replaced tree before after child').children.length =
          (replaced tree before after child').keys.length + 1 := by
        rw [← show tree.children.length = (replaced tree before after child').children.length by
          simp [replaced, children_eq]]
        exact length
      cases childUnderflow with
      | true =>
        simp only [if_true] at fixed
        exact (fixUnderflow_branching fixed small sameLength rfl others (childBranching.mono (Nat.zero_le _))).mono
          (Nat.sub_le_sub_right least_le 1)
      | false =>
        simp only [Bool.false_eq_true, if_false] at fixed
        subst fixed
        refine ⟨sameLength, (Nat.sub_le _ _).trans least_le, fun other member => ?_⟩
        simp only [replaced, List.mem_append, List.mem_cons] at member
        rcases member with isBefore | rfl | isAfter
        · exact others other (.inl isBefore)
        · -- it does not underflow, so it has a key
          have full : ¬ Underflows h other := fun thin => by
            have flagged := (delete_underflow childDeleted).mpr ⟨rfl, thin⟩
            cases flagged
          cases h with
          | zero => trivial
          | succ h =>
            have enough := Nat.not_lt.mp full
            rw [kInternalMinKeys_eq] at enough
            exact ⟨childBranching.1, by omega, childBranching.2.2⟩
        · exact others other (.inr isAfter)

theorem fixUnderflow_exists {h : Nat} (parent : InternalNode (Tree h)) (idx : Nat) {inner : Nat}
    (within : idx < parent.children.length) (branching : parent.children.length = parent.keys.length + 1)
    (two : 1 ≤ parent.keys.length) (below : ∀ child ∈ parent.children, Branching 0 inner h child) :
    ∃ parent', fixUnderflow h parent idx = some parent' := by
  cases h with
  | zero =>
    obtain ⟨fixed, found⟩ := fixLeaf_exists (by omega : 2 ≤ parent.children.length) within
    exact ⟨install _ fixed.1 fixed.2, by simp only [fixUnderflow, found]; rfl⟩
  | succ h =>
    obtain ⟨fixed, found⟩ := fixInternal_exists (by omega : 2 ≤ parent.children.length) within branching
      fun node member => (below node member).1
    exact ⟨install _ fixed.1 fixed.2, by simp only [fixUnderflow, found]; rfl⟩

theorem delete_exists (key : Int) (rid : RID) {h : Nat} {tree : Tree h} (isRoot : Bool)
    (branching : Branching 1 1 h tree) : ∃ result, delete key rid h tree isRoot = some result := by
  induction h generalizing isRoot with
  | zero =>
    simp only [delete]
    split <;> exact ⟨_, rfl⟩
  | succ h ih =>
    obtain ⟨length, two, below⟩ := branching
    have idx_le := upperBound_le tree.keys key
    have within : upperBound tree.keys key < tree.children.length := by omega
    obtain ⟨childResult, childDeleted⟩ := ih false (below _ (List.getElem_mem within))
    simp only [delete, List.getElem?_eq_getElem within, Option.bind_eq_bind, Option.bind_some, childDeleted]
    rcases childResult with _ | ⟨child', _ | _⟩
    · exact ⟨_, rfl⟩
    · exact ⟨_, rfl⟩
    · have childBranching := delete_branching childDeleted (Nat.le_refl 1) (below _ (List.getElem_mem within))
      have others : ∀ child ∈ tree.children.set (upperBound tree.keys key) child', Branching 0 1 h child := by
        intro child member
        rcases List.mem_or_eq_of_mem_set member with older | rfl
        · exact (below child older).mono (Nat.zero_le _)
        · exact childBranching
      obtain ⟨parent', fixed⟩ := fixUnderflow_exists
        { tree with children := tree.children.set (upperBound tree.keys key) child' } (upperBound tree.keys key)
        (by simpa using within) (by simpa using length) two others
      simp only [fixed, if_true, Option.bind_some]
      exact ⟨_, rfl⟩

end Tree

end FlintDB
