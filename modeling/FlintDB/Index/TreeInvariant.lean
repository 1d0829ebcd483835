import FlintDB.Index.Tree
import Mathlib.Data.List.Perm.Basic
import Mathlib.Data.List.Flatten
import Mathlib.Algebra.Order.Group.Unbundled.Int

set_option autoImplicit false

-- Every subtree answers for a range of keys and keeps to it; separators leave no range empty. Leaves may be small but
-- not empty, internal nodes are at least half full. An insertion keeps this as long as no key fills a leaf on its
-- own, a deletion always does.

namespace FlintDB

open Lib

structure LeafFits (least : Nat) (low high : Option Int) (leaf : LeafNode) : Prop where
  openRange : OpenRange low high
  sorted : leaf.keys.Pairwise (· ≤ ·)
  inRange : ∀ key ∈ leaf.keys, InRange low high key
  least_le : least ≤ leaf.keys.length
  le_max : leaf.keys.length ≤ kLeafMaxKeys

namespace Tree

/-- A tree over the range `low`, `high`: a leaf of at least `leafLeast` entries, or an internal node of
at least `innerLeast` keys. -/
def WellFormed (leafLeast innerLeast : Nat) : (h : Nat) → Option Int → Option Int → Tree h → Prop
  | 0, low, high, (leaf : LeafNode) => LeafFits leafLeast low high leaf
  | h + 1, low, high, (node : InternalNode (Tree h)) =>
    innerLeast ≤ node.keys.length ∧ node.keys.length ≤ kInternalMaxKeys ∧
      Routed (WellFormed 1 kInternalMinKeys h) high low node.keys node.children

abbrev Filled (h : Nat) : Option Int → Option Int → Tree h → Prop := WellFormed 1 kInternalMinKeys h

theorem WellFormed.openRange {leafLeast innerLeast h : Nat} {low high : Option Int} {tree : Tree h}
    (fits : WellFormed leafLeast innerLeast h low high tree) : OpenRange low high := by
  induction h generalizing leafLeast innerLeast low high with
  | zero => exact LeafFits.openRange fits
  | succ h ih => exact fits.2.2.openRange fun _ _ _ childFits => ih childFits

theorem filled_room (h : Nat) (low high : Option Int) (tree : Tree h) (fits : Filled h low high tree) :
    OpenRange low high := fits.openRange

theorem WellFormed.mono {leafLeast innerLeast leafLeast' innerLeast' h : Nat} {low high : Option Int}
    {tree : Tree h} (fits : WellFormed leafLeast innerLeast h low high tree) (leafLe : leafLeast' ≤ leafLeast)
    (innerLe : innerLeast' ≤ innerLeast) : WellFormed leafLeast' innerLeast' h low high tree := by
  cases h with
  | zero =>
    have fits : LeafFits leafLeast low high tree := fits
    exact { fits with least_le := Nat.le_trans leafLe fits.least_le }
  | succ h => exact ⟨Nat.le_trans innerLe fits.1, fits.2⟩

@[simp] theorem entries_leaf (leaf : LeafNode) : entries (h := 0) leaf = leaf.entries := by
  simp [entries, leaves]

@[simp] theorem entries_internal {h : Nat} (node : InternalNode (Tree h)) :
    entries (h := h + 1) node = node.children.flatMap entries := by
  simp only [entries, leaves, List.flatMap_assoc]
  rfl

theorem WellFormed.sorted {leafLeast innerLeast h : Nat} {low high : Option Int} {tree : Tree h}
    (fits : WellFormed leafLeast innerLeast h low high tree) :
    ((entries tree).map Prod.fst).Pairwise (· ≤ ·) ∧
      ∀ key ∈ (entries tree).map Prod.fst, InRange low high key := by
  induction h generalizing leafLeast innerLeast low high with
  | zero =>
    have fits : LeafFits leafLeast low high tree := fits
    rw [entries_leaf]
    exact ⟨fits.sorted, fits.inRange⟩
  | succ h ih =>
    rw [entries_internal, List.map_flatMap]
    exact fits.2.2.sorted (filled_room h) (fun child => (entries child).map Prod.fst)
      fun _ _ _ childFits => ih childFits

theorem fits_of_cut {low high : Option Int} {combined : List (Int × RID)}
    (sorted : (combined.map Prod.fst).Pairwise (· ≤ ·))
    (inRange : ∀ key ∈ combined.map Prod.fst, InRange low high key) {cut : Nat} (positive : 0 < cut)
    (within : cut < combined.length) (boundary : isBoundary (combined.map Prod.fst) cut)
    {left right : LeafNode} (isLeft : left.entries = combined.take cut)
    (isRight : right.entries = combined.drop cut) (leftFits : cut ≤ kLeafMaxKeys)
    (rightFits : combined.length - cut ≤ kLeafMaxKeys) :
    LeafFits 1 low (some (((combined.map Prod.fst).drop cut).headD 0)) left ∧
      LeafFits 1 (some (((combined.map Prod.fst).drop cut).headD 0)) high right := by
  have leftKeys : left.keys = (combined.map Prod.fst).take cut := by
    rw [LeafNode.keys, isLeft, List.map_take]
  have rightKeys : right.keys = (combined.map Prod.fst).drop cut := by
    rw [LeafNode.keys, isRight, List.map_drop]
  have length_eq : (combined.map Prod.fst).length = combined.length := List.length_map _
  generalize combined.map Prod.fst = keys at *
  have here : keys[cut]? = some ((keys.drop cut).headD 0) := by
    rw [List.drop_eq_getElem_cons (by omega), List.getElem?_eq_getElem (by omega)]
    rfl
  have before := lt_of_isBoundary sorted positive boundary here
  have isCut := List.take_append_drop cut keys
  have sortedParts := sorted
  rw [← isCut, List.pairwise_append] at sortedParts
  have after : ∀ key ∈ keys.drop cut, (keys.drop cut).headD 0 ≤ key := by
    intro key member
    cases rest : keys.drop cut with
    | nil => simp [rest] at member
    | cons first rest' =>
      have pairwise := sortedParts.2.1
      rw [rest] at pairwise member
      rcases List.mem_cons.mp member with rfl | later
      · exact le_refl _
      · exact (List.pairwise_cons.mp pairwise).1 key later
  have separatorIn := inRange _ (List.mem_of_getElem? here)
  generalize (keys.drop cut).headD 0 = separator at *
  refine ⟨⟨?_, ?_, fun key member => ?_, ?_, ?_⟩, ⟨?_, ?_, fun key member => ?_, ?_, ?_⟩⟩
  · -- the first key lies between the lower bound and the separator
    have first : keys[0] ∈ keys.take cut := List.mem_take_iff_getElem.mpr ⟨0, by omega, rfl⟩
    intro bound isLow key isSeparator
    cases isSeparator
    exact lt_of_le_of_lt ((inRange _ (List.getElem_mem _)).low_le bound isLow) (before _ first)
  · rw [leftKeys]
    exact sortedParts.1
  · rw [leftKeys] at member
    refine ⟨(inRange key (List.mem_of_mem_take member)).low_le, fun bound isSeparator => ?_⟩
    cases isSeparator
    exact before key member
  · rw [leftKeys, List.length_take]
    omega
  · rw [leftKeys, List.length_take]
    omega
  · intro bound isSeparator high isHigh
    cases isSeparator
    exact separatorIn.lt_high high isHigh
  · rw [rightKeys]
    exact sortedParts.2.1
  · rw [rightKeys] at member
    refine ⟨fun bound isSeparator => ?_, (inRange key (List.mem_of_mem_drop member)).lt_high⟩
    cases isSeparator
    exact after key member
  · rw [rightKeys, List.length_drop]
    omega
  · rw [rightKeys, List.length_drop]
    omega

theorem insert_entries_eq (leaf : LeafNode) (key : Int) (rid : RID) :
    (leaf.insert key rid).entries = leaf.entries.take (upperBound leaf.keys key) ++
      (key, rid) :: leaf.entries.drop (upperBound leaf.keys key) := by
  have le : upperBound leaf.keys key ≤ leaf.entries.length := by
    simpa [LeafNode.keys] using upperBound_le leaf.keys key
  have length_eq : (leaf.entries.take (upperBound leaf.keys key)).length = upperBound leaf.keys key := by
    simp [le]
  have inserted := insertIdx_length (leaf.entries.take (upperBound leaf.keys key))
    (leaf.entries.drop (upperBound leaf.keys key)) (key, rid)
  rw [List.take_append_drop, length_eq] at inserted
  exact inserted

theorem insert_keys_length (leaf : LeafNode) (key : Int) (rid : RID) :
    (leaf.insert key rid).keys.length = leaf.keys.length + 1 := by
  simp only [LeafNode.keys, insert_entries_eq, List.length_map, List.length_append, List.length_cons,
    List.length_take, List.length_drop]
  have le := upperBound_le (leaf.entries.map Prod.fst) key
  simp only [List.length_map] at le
  omega

theorem LeafFits.insert {least : Nat} {low high : Option Int} {leaf : LeafNode}
    (fits : LeafFits least low high leaf) {key : Int} (rid : RID) (inRange : InRange low high key) :
    (leaf.insert key rid).keys.Pairwise (· ≤ ·) ∧
      ∀ other ∈ (leaf.insert key rid).keys, InRange low high other := by
  have keys_eq : (leaf.insert key rid).keys = leaf.keys.take (upperBound leaf.keys key) ++
      key :: leaf.keys.drop (upperBound leaf.keys key) := by
    simp [LeafNode.keys, insert_entries_eq]
  obtain ⟨below, above⟩ := upperBound_cut fits.sorted key
  have parts := fits.sorted
  rw [← List.take_append_drop (upperBound leaf.keys key) leaf.keys, List.pairwise_append] at parts
  rw [keys_eq]
  refine ⟨List.pairwise_append.mpr ⟨parts.1, List.pairwise_cons.mpr ⟨fun other later => ?_, parts.2.1⟩,
    fun left isLeft right isRight => ?_⟩, fun other member => ?_⟩
  · exact le_of_lt (above other later)
  · rcases List.mem_cons.mp isRight with rfl | later
    · exact below left isLeft
    · exact parts.2.2 left isLeft right later
  · rcases List.mem_append.mp member with before | rest
    · exact fits.inRange other (List.mem_of_mem_take before)
    · rcases List.mem_cons.mp rest with rfl | later
      · exact inRange
      · exact fits.inRange other (List.mem_of_mem_drop later)

theorem exists_boundary {leaf : LeafNode} {key : Int} {rid : RID}
    (overflow : kLeafMaxKeys < (leaf.insert key rid).keys.length) (few : leaf.keys.count key < kLeafMaxKeys) :
    ∃ place, 0 < place ∧ place < (leaf.insert key rid).keys.length ∧
      isBoundary (leaf.insert key rid).keys place := by
  by_contra noBoundary
  have same : ∀ i < (leaf.insert key rid).keys.length,
      (leaf.insert key rid).keys[i]? = (leaf.insert key rid).keys[0]? := fun i within =>
    eq_of_no_boundary (fun j positive inside isBoundary => noBoundary ⟨j, positive, inside, isBoundary⟩) within
  have keys_eq : (leaf.insert key rid).keys = leaf.keys.take (upperBound leaf.keys key) ++
      key :: leaf.keys.drop (upperBound leaf.keys key) := by
    simp [LeafNode.keys, insert_entries_eq]
  have member : key ∈ (leaf.insert key rid).keys := by simp [keys_eq]
  obtain ⟨place, within, isKey⟩ := List.mem_iff_getElem.mp member
  have allKey : ∀ other ∈ (leaf.insert key rid).keys, key = other := by
    intro other isOther
    obtain ⟨i, inside, rfl⟩ := List.mem_iff_getElem.mp isOther
    have here := (same place within).trans (same i inside).symm
    rw [List.getElem?_eq_getElem within, List.getElem?_eq_getElem inside, isKey] at here
    exact Option.some.inj here
  have full : leaf.keys.count key = leaf.keys.length := List.count_eq_length.mpr fun other isOther =>
    allKey other (by
      rw [keys_eq, List.mem_append, List.mem_cons]
      rw [← List.take_append_drop (upperBound leaf.keys key) leaf.keys, List.mem_append] at isOther
      tauto)
  rw [insert_keys_length] at overflow
  omega

theorem insert_leaf_wellFormed {least : Nat} {low high : Option Int} {leaf : LeafNode} {key : Int} {rid : RID}
    {allocated : Nat} (fits : LeafFits least low high leaf) (inRange : InRange low high key)
    (few : leaf.keys.count key < kLeafMaxKeys) {result : Inserted 0}
    (inserted : insert key rid 0 leaf allocated = some result) :
    (result.split = none → LeafFits least low high result.tree) ∧
      (result.split ≠ none → Routed (Filled 0) high low result.separators result.trees) := by
  obtain ⟨sorted, within⟩ := LeafFits.insert fits rid inRange
  rcases insert_leaf inserted with ⟨short, rfl⟩ | ⟨overflow, rfl⟩
  · refine ⟨fun _ => ⟨fits.openRange, sorted, within, ?_, short⟩, fun splits => absurd rfl splits⟩
    have least_le := fits.least_le
    rw [insert_keys_length]
    omega
  · refine ⟨fun isNone => (nomatch isNone), fun _ => ?_⟩
    have length_eq := insert_keys_length leaf key rid
    have le_max := fits.le_max
    obtain ⟨place, place_pos, place_lt, boundary⟩ := exists_boundary overflow few
    have halfway : 0 < (leaf.insert key rid).keys.length / 2 ∧
        (leaf.insert key rid).keys.length / 2 < (leaf.insert key rid).keys.length := by
      simp only [kLeafMaxKeys_eq] at overflow
      omega
    obtain ⟨cut_pos, cut_lt, isCut⟩ :=
      findSplitBoundary_isBoundary halfway.1 halfway.2 place_pos place_lt boundary
    simp only [Inserted.separators, Inserted.trees, splitLeaf, LeafNode.split, Option.toList_some,
      List.map_cons, List.map_nil, Routed]
    generalize findSplitBoundary (leaf.insert key rid).keys ((leaf.insert key rid).keys.length / 2) = cut at *
    have entriesLength : (leaf.insert key rid).entries.length = (leaf.insert key rid).keys.length := by
      simp [LeafNode.keys]
    exact fits_of_cut sorted within cut_pos (by omega) isCut rfl rfl (by omega) (by omega)

theorem isBoundary_of_pairwise {keys : List Int} (increasing : keys.Pairwise (· < ·)) {i : Nat}
    (positive : 0 < i) (within : i < keys.length) : isBoundary keys i := by
  have less : keys[i - 1] < keys[i] := List.pairwise_iff_getElem.mp increasing _ _ _ _ (by omega)
  have previous : keys[i - 1]? = some keys[i - 1] := List.getElem?_eq_getElem _
  simp only [isBoundary, List.getElem?_eq_getElem within, previous, ne_eq, decide_eq_true_eq,
    Option.some.injEq]
  omega

theorem splitInternal_routed {h : Nat} {low high : Option Int} {node : InternalNode (Tree h)}
    (routed : Routed (Filled h) high low node.keys node.children)
    (length : node.keys.length = kInternalMaxKeys + 1) (allocated : Nat) :
    Routed (Filled (h + 1)) high low (splitInternal node allocated).separators
      (splitInternal node allocated).trees := by
  simp only [kInternalMaxKeys_eq, Nat.reduceAdd] at length
  have children_length := routed.length
  have cut : findSplitBoundary node.keys (node.keys.length / 2) = 170 := by
    rw [length]
    exact findSplitBoundary_of_isBoundary (by omega)
      (isBoundary_of_pairwise (routed.pairwise (filled_room h)).1 (by omega) (by omega))
  have here : node.keys[170]? = some (node.keys.getD 170 0) := by
    rw [List.getD_eq_getElem?_getD, List.getElem?_eq_getElem (by omega), Option.getD_some]
  obtain ⟨within, isHere⟩ := List.getElem?_eq_some_iff.mp here
  have keys_eq : node.keys = node.keys.take 170 ++ node.keys.getD 170 0 :: node.keys.drop 171 := by
    rw [← isHere, ← List.drop_eq_getElem_cons, List.take_append_drop]
  have children_eq : node.children = node.children.take 171 ++ node.children.drop 171 :=
    (List.take_append_drop ..).symm
  rw [keys_eq, children_eq, routed_append (by simp; omega)] at routed
  simp only [Inserted.separators, Inserted.trees, splitInternal, InternalNode.split, cut,
    Option.toList_some, List.map_cons, List.map_nil, Routed]
  refine ⟨⟨?_, ?_, routed.1⟩, ⟨?_, ?_, routed.2⟩⟩
  all_goals simp only [List.length_take, List.length_drop, kInternalMinKeys_eq, kInternalMaxKeys_eq]
  all_goals omega

theorem count_child_le {h : Nat} {node : InternalNode (Tree h)} {child : Tree h} {key : Int}
    (member : child ∈ node.children) :
    ((entries child).map Prod.fst).count key ≤ ((entries (h := h + 1) node).map Prod.fst).count key := by
  obtain ⟨before, after, children_eq⟩ := List.append_of_mem member
  simp only [entries_internal, children_eq, List.flatMap_append, List.flatMap_cons, List.map_append,
    List.count_append]
  omega

theorem insert_wellFormed {key : Int} (rid : RID) {leafLeast innerLeast h : Nat} {low high : Option Int}
    {tree : Tree h} (allocated : Nat) (fits : WellFormed leafLeast innerLeast h low high tree)
    (inRange : InRange low high key) (few : ((entries tree).map Prod.fst).count key < kLeafMaxKeys) :
    ∃ result, insert key rid h tree allocated = some result ∧
      (result.split = none → WellFormed leafLeast innerLeast h low high result.tree) ∧
      (result.split ≠ none → Routed (Filled h) high low result.separators result.trees) := by
  induction h generalizing leafLeast innerLeast low high with
  | zero =>
    obtain ⟨result, inserted⟩ : ∃ result, insert key rid 0 tree allocated = some result := by
      simp only [insert]
      split <;> exact ⟨_, rfl⟩
    rw [entries_leaf] at few
    exact ⟨result, inserted, insert_leaf_wellFormed fits inRange few inserted⟩
  | succ h ih =>
    obtain ⟨least_le, le_max, routed⟩ := fits
    have descend : ∀ {keys₁ keys₂ before after child}, tree.keys = keys₁ ++ keys₂ →
        tree.children = before ++ child :: after → keys₁.length = before.length →
        before.length = upperBound tree.keys key → ∃ l hi childResult,
          insert key rid h child allocated = some childResult ∧
          Routed (Filled h) hi l childResult.separators childResult.trees ∧
          ∀ keys' children', Routed (Filled h) hi l keys' children' →
            Routed (Filled h) high low (keys₁ ++ (keys' ++ keys₂)) (before ++ (children' ++ after)) := by
      intro keys₁ keys₂ before after child keys_eq children_eq aligned position
      obtain ⟨l, hi, childFits, childRange, -, -, replace⟩ :=
        routed.route (filled_room h) inRange keys_eq children_eq aligned position
      have childFew := Nat.lt_of_le_of_lt
        (count_child_le (by simp [children_eq] : child ∈ tree.children)) few
      obtain ⟨childResult, childInserted, whole, halves⟩ := ih childFits childRange childFew
      refine ⟨l, hi, childResult, childInserted, ?_, replace⟩
      cases split : childResult.split with
      | none => simpa [Inserted.separators, Inserted.trees, split, Routed] using whole split
      | some _ => exact halves (by simp [split])
    obtain ⟨result, inserted⟩ : ∃ result, insert key rid (h + 1) tree allocated = some result := by
      have idx_le := upperBound_le tree.keys key
      have within : upperBound tree.keys key < tree.children.length := by
        have length := routed.length
        omega
      obtain ⟨before, after, children_eq, position⟩ :=
        exists_split_of_getElem? (List.getElem?_eq_getElem within)
      obtain ⟨-, -, childResult, childInserted, -⟩ := descend (List.take_append_drop before.length _).symm
        children_eq (by simp; omega) position
      simp only [insert, List.getElem?_eq_getElem within, Option.bind_eq_bind, Option.bind_some,
        childInserted]
      split
      · exact ⟨_, rfl⟩
      · split <;> exact ⟨_, rfl⟩
    refine ⟨result, inserted, ?_⟩
    obtain ⟨keys₁, keys₂, before, child, after, childResult, keys_eq, children_eq, aligned, position,
      childInserted, outcome⟩ := insert_internal inserted
    obtain ⟨l, hi, childResult', childInserted', childRouted, replace⟩ :=
      descend keys_eq children_eq aligned position
    cases Option.some.inj (childInserted.symm.trans childInserted')
    have grownRouted := replace _ _ childRouted
    have grownLength : (grown tree keys₁ keys₂ before after childResult).keys.length =
        tree.keys.length + childResult.separators.length := by
      simp only [grown, keys_eq, List.length_append]
      omega
    rcases outcome with ⟨fits, rfl⟩ | ⟨⟨splits, overflow⟩, rfl⟩
    · refine ⟨fun _ => ⟨?_, ?_, grownRouted⟩, fun splits => absurd rfl splits⟩
      · show innerLeast ≤ (grown tree keys₁ keys₂ before after childResult).keys.length
        omega
      · rcases fits with isNone | isFit
        · show (grown tree keys₁ keys₂ before after childResult).keys.length ≤ kInternalMaxKeys
          rw [grownLength, Inserted.separators, isNone]
          simpa using le_max
        · exact isFit
    · refine ⟨fun isNone => absurd isNone (Option.some_ne_none _), fun _ => splitInternal_routed grownRouted ?_ _⟩
      have oneMore : childResult.separators.length ≤ 1 := by
        cases split : childResult.split <;> simp [Inserted.separators, split]
      omega

theorem insert_entries {key : Int} {rid : RID} {h : Nat} {tree : Tree h} {allocated : Nat}
    {result : Inserted h} (inserted : insert key rid h tree allocated = some result) :
    (result.trees.flatMap entries).Perm ((key, rid) :: entries tree) := by
  induction h with
  | zero =>
    have leafPerm : (LeafNode.insert tree key rid).entries.Perm ((key, rid) :: LeafNode.entries tree) := by
      rw [insert_entries_eq]
      refine List.perm_middle.trans ?_
      rw [List.take_append_drop]
    rcases insert_leaf inserted with ⟨-, rfl⟩ | ⟨-, rfl⟩
    · simpa [Inserted.trees] using leafPerm
    · simpa [Inserted.trees, splitLeaf, LeafNode.split] using leafPerm
  | succ h ih =>
    obtain ⟨keys₁, keys₂, before, child, after, childResult, -, children_eq, -, -, childInserted, outcome⟩ :=
      insert_internal inserted
    have grownPerm : ((grown tree keys₁ keys₂ before after childResult).children.flatMap entries).Perm
        ((key, rid) :: entries tree) := by
      simp only [grown, entries_internal, children_eq, List.flatMap_append, List.flatMap_cons]
      exact (((ih childInserted).append_right _).append_left _).trans List.perm_middle
    rcases outcome with ⟨-, rfl⟩ | ⟨-, rfl⟩
    · simpa [Inserted.trees] using grownPerm
    · simpa only [Inserted.trees, splitInternal, InternalNode.split, Option.toList_some, List.map_cons,
        List.map_nil, List.flatMap_cons, List.flatMap_nil, List.append_nil, entries_internal,
        ← List.flatMap_append, List.take_append_drop] using grownPerm

abbrev LeafRelinks (old new : List LeafNode) : Prop := Relinks LeafNode.pageId LeafNode.nextLeaf old new

theorem insert_relinks {key : Int} {rid : RID} {h : Nat} {tree : Tree h} {allocated : Nat}
    {result : Inserted h} (inserted : insert key rid h tree allocated = some result) :
    LeafRelinks (leaves h tree) (result.trees.flatMap (leaves h)) := by
  induction h with
  | zero =>
    rcases insert_leaf inserted with ⟨-, rfl⟩ | ⟨-, rfl⟩
    · exact ⟨fun _ => rfl, fun _ chain => chain⟩
    · exact ⟨fun _ => rfl, fun _ chain => ⟨rfl, chain⟩⟩
  | succ h ih =>
    obtain ⟨keys₁, keys₂, before, child, after, childResult, -, children_eq, -, -, childInserted, outcome⟩ :=
      insert_internal inserted
    have grownRelinks : LeafRelinks (leaves (h + 1) tree)
        ((grown tree keys₁ keys₂ before after childResult).children.flatMap (leaves h)) := by
      simp only [grown, leaves, children_eq, List.flatMap_append, List.flatMap_cons]
      exact (Relinks.refl _).append ((ih childInserted).append (Relinks.refl _))
    rcases outcome with ⟨-, rfl⟩ | ⟨-, rfl⟩
    · simpa [Inserted.trees, leaves] using grownRelinks
    · simpa only [Inserted.trees, splitInternal, InternalNode.split, Option.toList_some, List.map_cons,
        List.map_nil, List.flatMap_cons, List.flatMap_nil, List.append_nil, leaves,
        ← List.flatMap_append, List.take_append_drop] using grownRelinks

structure KeepsLeaves {h : Nat} (left right : Tree h) (mended : Mended (Tree h)) : Prop where
  entries : mended.nodes.flatMap entries = Tree.entries left ++ Tree.entries right
  relinks : LeafRelinks (leaves h left ++ leaves h right) (mended.nodes.flatMap (leaves h))

theorem mendLeaves_keepsLeaves (left right : LeafNode) (ideal : Nat) :
    KeepsLeaves (h := 0) left right (mendLeaves left right ideal) := by
  unfold mendLeaves
  dsimp only
  split
  · refine ⟨by simp [Mended.nodes], ⟨fun _ => rfl, fun _ chain => ?_⟩⟩
    exact chain.2
  · refine ⟨?_, ⟨fun _ => rfl, fun _ chain => chain⟩⟩
    simp only [Mended.nodes, List.flatMap_cons, List.flatMap_nil, List.append_nil, entries_leaf]
    rw [List.take_append_drop]

theorem mendsInternal_keepsLeaves {h : Nat} {left right : InternalNode (Tree h)} {separator : Int}
    {childIsRight : Bool} {mended : Mended (InternalNode (Tree h))}
    (mends : MendsInternal left separator right childIsRight mended) :
    KeepsLeaves (h := h + 1) left right mended := by
  have sameLeaves : mended.nodes.flatMap (leaves (h + 1)) = leaves (h + 1) left ++ leaves (h + 1) right := by
    cases mends <;> simp_all [Mended.nodes, leaves, InternalNode.merge]
  refine ⟨?_, by rw [sameLeaves]; exact Relinks.refl _⟩
  have flattened := congrArg (List.flatMap LeafNode.entries) sameLeaves
  rw [List.flatMap_assoc, List.flatMap_append] at flattened
  exact flattened

theorem fixUnderflow_keepsLeaves {h : Nat} {parent parent' : InternalNode (Tree h)} {idx : Nat}
    (fixed : fixUnderflow h parent idx = some parent') :
    entries (h := h + 1) parent' = entries (h := h + 1) parent ∧
      LeafRelinks (leaves (h + 1) parent) (leaves (h + 1) parent') := by
  have window : ∀ {before after : List (Tree h)} {left right : Tree h} {mended : Mended (Tree h)},
      parent.children = before ++ left :: right :: after → KeepsLeaves left right mended →
      entries (h := h + 1) (install parent before.length mended) = entries (h := h + 1) parent ∧
        LeafRelinks (leaves (h + 1) parent) (leaves (h + 1) (install parent before.length mended)) := by
    intro before after left right mended children_eq keeps
    simp only [entries_internal, leaves, install_children children_eq, children_eq, List.flatMap_append,
      List.flatMap_cons, keeps.entries, List.append_assoc, true_and]
    rw [← List.append_assoc (leaves h left)]
    exact (Relinks.refl _).append (keeps.relinks.append (Relinks.refl _))
  cases h with
  | zero =>
    simp only [fixUnderflow, Option.bind_eq_bind, Option.bind_eq_some_iff, Option.pure_def,
      Option.some.injEq] at fixed
    obtain ⟨⟨pos, mended⟩, found, rfl⟩ := fixed
    obtain ⟨before, left, right, after, ideal, children_eq, rfl, -, rfl⟩ := fixLeaf_window found
    exact window children_eq (mendLeaves_keepsLeaves left right ideal)
  | succ h =>
    simp only [fixUnderflow, Option.bind_eq_bind, Option.bind_eq_some_iff, Option.pure_def,
      Option.some.injEq] at fixed
    obtain ⟨⟨pos, mended⟩, found, rfl⟩ := fixed
    obtain ⟨before, left, right, after, _, _, children_eq, rfl, -, -, mends⟩ := fixInternal_window found
    exact window children_eq (mendsInternal_keepsLeaves mends)

theorem position_some {leaf : LeafNode} {key : Int} {rid : RID} {pos : Nat}
    (found : leaf.position key rid = some pos) : leaf.entries[pos]? = some (key, rid) := by
  obtain ⟨within, isPair, -⟩ := List.findIdx?_eq_some_iff_getElem.mp found
  rw [List.getElem?_eq_getElem within, Option.some.injEq, Prod.ext_iff]
  simpa using isPair

theorem delete_entries {key : Int} {rid : RID} {h : Nat} {tree tree' : Tree h} {isRoot underflow : Bool}
    (deleted : delete key rid h tree isRoot = some (some (tree', underflow))) :
    (entries tree).Perm ((key, rid) :: entries tree') ∧ LeafRelinks (leaves h tree) (leaves h tree') := by
  induction h generalizing isRoot underflow with
  | zero =>
    rcases delete_leaf deleted with ⟨-, isNone⟩ | ⟨pos, found, isSome⟩
    · cases isNone
    · cases isSome
      obtain ⟨within, isPair⟩ := List.getElem?_eq_some_iff.mp (position_some found)
      refine ⟨?_, ⟨fun _ => rfl, fun _ chain => chain⟩⟩
      rw [entries_leaf, entries_leaf, LeafNode.erase, ← isPair]
      exact (List.getElem_cons_eraseIdx_perm within).symm
  | succ h ih =>
    obtain ⟨before, child, after, childResult, children_eq, -, childDeleted, outcome⟩ :=
      delete_internal deleted
    rcases outcome with ⟨-, isNone⟩ | ⟨child', childUnderflow, node', rfl, fixed, isSome⟩
    · cases isNone
    · cases isSome
      obtain ⟨childEntries, childRelinks⟩ := ih childDeleted
      have inPlace : (entries tree).Perm
            ((key, rid) :: entries (h := h + 1) (replaced tree before after child')) ∧
          LeafRelinks (leaves (h + 1) tree) (leaves (h + 1) (replaced tree before after child')) := by
        simp only [entries_internal, leaves, replaced, children_eq, List.flatMap_append, List.flatMap_cons]
        exact ⟨((childEntries.append_right _).append_left _).trans List.perm_middle,
          (Relinks.refl _).append (childRelinks.append (Relinks.refl _))⟩
      split at fixed
      · obtain ⟨sameEntries, relinks⟩ := fixUnderflow_keepsLeaves fixed
        rw [sameEntries]
        exact ⟨inPlace.1, inPlace.2.trans relinks⟩
      · subst fixed
        exact inPlace

theorem mendLeaves_routed {low high : Option Int} {separator : Int} {left right : LeafNode} {ideal : Nat}
    (leftFits : LeafFits 0 low (some separator) left) (rightFits : LeafFits 0 (some separator) high right)
    (notEmpty : 0 < left.keys.length + right.keys.length) :
    Routed (Filled 0) high low (mendLeaves left right ideal).separators
      (mendLeaves left right ideal).nodes := by
  have keys_eq : (left.entries ++ right.entries).map Prod.fst = left.keys ++ right.keys := by
    simp [LeafNode.keys]
  have length_eq : (left.entries ++ right.entries).length = left.keys.length + right.keys.length := by
    simp [LeafNode.keys]
  have sorted : ((left.entries ++ right.entries).map Prod.fst).Pairwise (· ≤ ·) := by
    rw [keys_eq]
    exact List.pairwise_append.mpr ⟨leftFits.sorted, rightFits.sorted, fun l isLeft r isRight => le_of_lt
      (lt_of_lt_of_le ((leftFits.inRange l isLeft).lt_high _ rfl) ((rightFits.inRange r isRight).low_le _ rfl))⟩
  have openRange : OpenRange low high := fun l isLow h isHigh =>
    lt_trans (leftFits.openRange l isLow _ rfl) (rightFits.openRange _ rfl h isHigh)
  have inRange : ∀ key ∈ (left.entries ++ right.entries).map Prod.fst, InRange low high key := by
    rw [keys_eq]
    intro key member
    rcases List.mem_append.mp member with isLeft | isRight
    · exact ⟨(leftFits.inRange key isLeft).low_le, fun bound isHigh =>
        lt_trans ((leftFits.inRange key isLeft).lt_high _ rfl) (rightFits.openRange _ rfl bound isHigh)⟩
    · exact ⟨fun bound isLow => le_trans (le_of_lt (leftFits.openRange bound isLow _ rfl))
        ((rightFits.inRange key isRight).low_le _ rfl), (rightFits.inRange key isRight).lt_high⟩
  have leftMax := leftFits.le_max
  have rightMax := rightFits.le_max
  unfold mendLeaves
  dsimp only
  split
  · rename_i fits
    refine ⟨openRange, sorted, inRange, ?_, ?_⟩
    · show 1 ≤ ((left.entries ++ right.entries).map Prod.fst).length
      rw [List.length_map, length_eq]
      exact notEmpty
    · simpa [LeafNode.keys] using fits
  · rename_i overflow
    -- the old border is a change of value within the capacity bounds, so the search finds one
    have border : isBoundary ((left.entries ++ right.entries).map Prod.fst) left.keys.length := by
      have before : left.keys.length - 1 < left.keys.length := by omega
      have after : 0 < right.keys.length := by omega
      have less : left.keys[left.keys.length - 1] < right.keys[0] :=
        lt_of_lt_of_le ((leftFits.inRange _ (List.getElem_mem before)).lt_high _ rfl)
          ((rightFits.inRange _ (List.getElem_mem after)).low_le _ rfl)
      simp only [isBoundary, keys_eq, List.getElem?_append_right (Nat.le_refl _), Nat.sub_self,
        List.getElem?_append_left before, List.getElem?_eq_getElem before, List.getElem?_eq_getElem after,
        ne_eq, Option.some.injEq, decide_eq_true_eq]
      omega
    have above : (left.entries ++ right.entries).length - kLeafMaxKeys ≤ left.keys.length := by omega
    obtain ⟨cut, found, minimum, maximum, boundary⟩ :=
      findRebalanceSplit_isBoundary ideal above leftMax border
    rw [found]
    exact fits_of_cut sorted inRange (by omega) (by omega) boundary rfl rfl maximum (by omega)

abbrev Loose (h : Nat) : Option Int → Option Int → Tree h → Prop := WellFormed 0 (kInternalMinKeys - 1) h

def Underflows : (h : Nat) → Tree h → Prop
  | 0, (leaf : LeafNode) => leaf.keys.length < kLeafMinKeys
  | _ + 1, (node : InternalNode _) => node.keys.length < kInternalMinKeys

theorem Filled.loose {h : Nat} {low high : Option Int} {tree : Tree h} (fits : Filled h low high tree) :
    Loose h low high tree := fits.mono (by omega) (by omega)

theorem mendsInternal_routed {h : Nat} {low high : Option Int} {separator : Int}
    {left right : InternalNode (Tree h)} {childIsRight : Bool} {mended : Mended (InternalNode (Tree h))}
    (mends : MendsInternal left separator right childIsRight mended)
    (leftFits : Loose (h + 1) low (some separator) left)
    (rightFits : Loose (h + 1) (some separator) high right)
    (leftThin : childIsRight = false → left.keys.length < kInternalMinKeys)
    (rightThin : childIsRight = true → right.keys.length < kInternalMinKeys) :
    Routed (Filled (h + 1)) high low mended.separators mended.nodes := by
  obtain ⟨leftLeast, leftMax, leftRouted⟩ := leftFits
  obtain ⟨rightLeast, rightMax, rightRouted⟩ := rightFits
  have leftLength := leftRouted.length
  simp only [kInternalMinKeys_eq, kInternalMaxKeys_eq] at leftLeast rightLeast leftMax rightMax leftThin rightThin
  have merges : left.keys.length + right.keys.length < kInternalMaxKeys →
      Routed (Filled (h + 1)) high low (Mended.merged (left.merge separator right)).separators
        (Mended.merged (left.merge separator right)).nodes := by
    intro short
    refine ⟨?_, ?_, (routed_append leftLength).mpr ⟨leftRouted, rightRouted⟩⟩
    all_goals simp only [InternalNode.merge, List.length_append, List.length_cons, kInternalMinKeys_eq,
      kInternalMaxKeys_eq] at short ⊢
    all_goals omega
  cases mends with
  | @fromLeft keys promoted children moved spare keys_eq children_eq =>
    have thin := rightThin rfl
    rw [keys_eq, children_eq] at leftRouted
    rw [keys_eq, children_eq] at leftLength
    simp only [List.length_append, List.length_singleton, Nat.add_right_cancel_iff] at leftLength
    obtain ⟨lower, upper⟩ := (routed_append leftLength).mp leftRouted
    simp only [keys_eq, List.length_append, List.length_singleton, kInternalMinKeys_eq] at spare leftMax
    refine ⟨⟨?_, ?_, lower⟩, ⟨?_, ?_, upper, rightRouted⟩⟩
    all_goals simp only [List.length_cons, kInternalMinKeys_eq, kInternalMaxKeys_eq]
    all_goals omega
  | @fromRight keys promoted children moved spare keys_eq children_eq =>
    have thin := leftThin rfl
    rw [keys_eq, children_eq] at rightRouted
    obtain ⟨lower, upper⟩ := rightRouted
    simp only [keys_eq, List.length_cons, kInternalMinKeys_eq] at spare rightMax
    refine ⟨⟨?_, ?_, (routed_append leftLength).mpr ⟨leftRouted, lower⟩⟩, ⟨?_, ?_, upper⟩⟩
    all_goals simp only [List.length_append, List.length_singleton, kInternalMinKeys_eq, kInternalMaxKeys_eq]
    all_goals omega
  | mergeLeft tight =>
    have thin := rightThin rfl
    simp only [kInternalMinKeys_eq] at tight
    exact merges (by rw [kInternalMaxKeys_eq]; omega)
  | mergeRight tight =>
    have thin := leftThin rfl
    simp only [kInternalMinKeys_eq] at tight
    exact merges (by rw [kInternalMaxKeys_eq]; omega)

theorem window_sides {α : Type} {before after before' after' : List α} {child left right : α}
    (same : before ++ child :: after = before' ++ left :: right :: after')
    (position : before.length = before'.length ∨ before.length = before'.length + 1) :
    (before' = before ∧ left = child ∧ after = right :: after') ∨
      (before = before' ++ [left] ∧ right = child ∧ after' = after) := by
  rcases position with here | next
  · obtain ⟨rfl, rest⟩ := List.append_inj same here
    obtain ⟨rfl, rfl⟩ := List.cons.inj rest
    exact .inl ⟨rfl, rfl, rfl⟩
  · rw [List.append_cons before' left] at same
    obtain ⟨rfl, rest⟩ := List.append_inj same (by simpa using next)
    obtain ⟨rfl, rfl⟩ := List.cons.inj rest
    exact .inr ⟨rfl, rfl, rfl⟩

theorem install_routed {h : Nat} {low high l hi : Option Int} {keys₁ keys₂ : List Int} {separator : Int}
    (parent : InternalNode (Tree h)) {before after : List (Tree h)} {left right : Tree h}
    {mended : Mended (Tree h)} (keys_eq : parent.keys = keys₁ ++ separator :: keys₂)
    (children_eq : parent.children = before ++ left :: right :: after)
    (aligned : keys₁.length = before.length)
    (replace : ∀ keys' children', Routed (Filled h) hi l keys' children' →
      Routed (Filled h) high low (keys₁ ++ (keys' ++ keys₂)) (before ++ (children' ++ after)))
    (routed : Routed (Filled h) hi l mended.separators mended.nodes) :
    Routed (Filled h) high low (install parent before.length mended).keys
        (install parent before.length mended).children ∧
      (install parent before.length mended).keys.length ≤ parent.keys.length ∧
      parent.keys.length ≤ (install parent before.length mended).keys.length + 1 := by
  have keys := install_keys keys_eq mended
  rw [aligned] at keys
  rw [keys, install_children children_eq]
  refine ⟨replace _ _ routed, ?_⟩
  have few : mended.separators.length ≤ 1 := by cases mended <;> simp [Mended.separators]
  simp only [keys_eq, List.length_append, List.length_cons]
  omega

theorem fixUnderflow_routed {h : Nat} {low high : Option Int} {parent parent' : InternalNode (Tree h)}
    {before after : List (Tree h)} {child child' : Tree h}
    (routed : Routed (Filled h) high low parent.keys parent.children)
    (children_eq : parent.children = before ++ child :: after)
    (loose : ∀ l hi, Filled h l hi child → Loose h l hi child') (thin : Underflows h child')
    (fixed : fixUnderflow h (replaced parent before after child') before.length = some parent') :
    Routed (Filled h) high low parent'.keys parent'.children ∧
      parent'.keys.length ≤ parent.keys.length ∧ parent.keys.length ≤ parent'.keys.length + 1 := by
  cases h with
  | zero =>
    simp only [fixUnderflow, Option.bind_eq_bind, Option.bind_eq_some_iff, Option.pure_def,
      Option.some.injEq] at fixed
    obtain ⟨⟨pos, mended⟩, found, rfl⟩ := fixed
    obtain ⟨before', left, right, after', ideal, window, rfl, side, rfl⟩ := fixLeaf_window found
    rcases window_sides window side with ⟨rfl, rfl, rfl⟩ | ⟨rfl, rfl, rfl⟩
    · obtain ⟨keys₁, separator, keys₂, l, hi, keys_eq, aligned, childFits, rightFits, replace⟩ :=
        routed.window children_eq
      have rightLeast := LeafFits.least_le rightFits
      exact install_routed (replaced parent _ _ left) keys_eq window aligned replace
        (mendLeaves_routed (loose _ _ childFits) rightFits.loose (by omega))
    · obtain ⟨keys₁, separator, keys₂, l, hi, keys_eq, aligned, leftFits, childFits, replace⟩ :=
        routed.window (by simpa using children_eq)
      have leftLeast := LeafFits.least_le leftFits
      exact install_routed (replaced parent _ _ right) keys_eq window aligned replace
        (mendLeaves_routed leftFits.loose (loose _ _ childFits) (by omega))
  | succ h =>
    simp only [fixUnderflow, Option.bind_eq_bind, Option.bind_eq_some_iff, Option.pure_def,
      Option.some.injEq] at fixed
    obtain ⟨⟨pos, mended⟩, found, rfl⟩ := fixed
    obtain ⟨before', left, right, after', separator', childIsRight, window, rfl, side, isSeparator, mends⟩ :=
      fixInternal_window found
    have atSeparator : ∀ {keys₁ keys₂ : List Int} {separator : Int},
        parent.keys = keys₁ ++ separator :: keys₂ → keys₁.length = before'.length →
        separator' = separator := by
      intro keys₁ keys₂ separator keys_eq aligned
      have here : parent.keys[before'.length]? = some separator' := isSeparator
      rw [keys_eq, ← aligned, List.getElem?_append_right (Nat.le_refl _), Nat.sub_self,
        List.getElem?_cons_zero] at here
      exact (Option.some.inj here).symm
    cases childIsRight with
    | false =>
      rcases window_sides window (.inl side) with ⟨rfl, rfl, rfl⟩ | ⟨rfl, -, -⟩
      · obtain ⟨keys₁, separator, keys₂, l, hi, keys_eq, aligned, childFits, rightFits, replace⟩ :=
          routed.window children_eq
        obtain rfl := atSeparator keys_eq aligned
        exact install_routed (replaced parent _ _ left) keys_eq window aligned replace
          (mendsInternal_routed mends (loose _ _ childFits) rightFits.loose (fun _ => thin)
            (fun isTrue => (nomatch isTrue)))
      · simp at side
    | true =>
      rcases window_sides window (.inr side) with ⟨rfl, -, -⟩ | ⟨rfl, rfl, rfl⟩
      · simp at side
      · obtain ⟨keys₁, separator, keys₂, l, hi, keys_eq, aligned, leftFits, childFits, replace⟩ :=
          routed.window (by simpa using children_eq)
        obtain rfl := atSeparator keys_eq aligned
        exact install_routed (replaced parent _ _ right) keys_eq window aligned replace
          (mendsInternal_routed mends leftFits.loose (loose _ _ childFits)
            (fun isFalse => (nomatch isFalse)) (fun _ => thin))

theorem delete_underflow {key : Int} {rid : RID} {h : Nat} {tree tree' : Tree h} {isRoot underflow : Bool}
    (deleted : delete key rid h tree isRoot = some (some (tree', underflow))) :
    underflow = true ↔ isRoot = false ∧ Underflows h tree' := by
  cases h with
  | zero =>
    rcases delete_leaf deleted with ⟨-, isNone⟩ | ⟨pos, -, isSome⟩
    · cases isNone
    · cases isSome
      simp [Underflows]
  | succ h =>
    obtain ⟨before, child, after, childResult, -, -, -, outcome⟩ := delete_internal deleted
    rcases outcome with ⟨-, isNone⟩ | ⟨child', childUnderflow, node', rfl, -, isSome⟩
    · cases isNone
    · cases isSome
      simp [Underflows]

theorem WellFormed.filled {leafLeast innerLeast h : Nat} {low high : Option Int} {tree : Tree h}
    (fits : WellFormed leafLeast innerLeast h low high tree) (full : ¬Underflows h tree) :
    Filled h low high tree := by
  cases h with
  | zero =>
    have fits : LeafFits leafLeast low high tree := fits
    have enough : 1 ≤ (LeafNode.keys tree).length := by
      simp only [Underflows, kLeafMinKeys_eq] at full
      omega
    exact { fits with least_le := enough }
  | succ h => exact ⟨Nat.not_lt.mp full, fits.2⟩

theorem delete_wellFormed {key : Int} {rid : RID} {h : Nat} {tree tree' : Tree h} {isRoot underflow : Bool}
    (deleted : delete key rid h tree isRoot = some (some (tree', underflow))) {innerLeast : Nat}
    {low high : Option Int} (fits : WellFormed 1 innerLeast h low high tree) :
    WellFormed 0 (innerLeast - 1) h low high tree' := by
  induction h generalizing isRoot underflow innerLeast low high with
  | zero =>
    have fits : LeafFits 1 low high tree := fits
    rcases delete_leaf deleted with ⟨-, isNone⟩ | ⟨pos, found, isSome⟩
    · cases isNone
    · cases isSome
      have fewer : (LeafNode.erase tree pos).keys.Sublist (LeafNode.keys tree) :=
        (List.eraseIdx_sublist _ pos).map Prod.fst
      exact ⟨fits.openRange, fits.sorted.sublist fewer, fun key member => fits.inRange key (fewer.subset member),
        Nat.zero_le _, Nat.le_trans fewer.length_le fits.le_max⟩
  | succ h ih =>
    obtain ⟨least_le, le_max, routed⟩ := fits
    obtain ⟨before, child, after, childResult, children_eq, -, childDeleted, outcome⟩ :=
      delete_internal deleted
    rcases outcome with ⟨-, isNone⟩ | ⟨child', childUnderflow, node', rfl, fixed, isSome⟩
    · cases isNone
    · cases isSome
      have loose : ∀ l hi, Filled h l hi child → Loose h l hi child' := fun l hi childFits =>
        ih childDeleted childFits
      have flag := delete_underflow childDeleted
      cases childUnderflow with
      | true =>
        obtain ⟨routed', shorter, almost⟩ :=
          fixUnderflow_routed routed children_eq loose (flag.mp rfl).2 fixed
        exact ⟨by omega, by omega, routed'⟩
      | false =>
        have full : ¬Underflows h child' := fun thin => (nomatch flag.mpr ⟨rfl, thin⟩)
        simp only [Bool.false_eq_true, if_false] at fixed
        subst fixed
        exact ⟨Nat.le_trans (Nat.sub_le _ _) least_le, le_max,
          routed.replace children_eq fun l hi childFits => (loose l hi childFits).filled full⟩

theorem routed_child {h : Nat} {low high : Option Int} {key : Int} {node : InternalNode (Tree h)}
    (routed : Routed (Filled h) high low node.keys node.children) (inRange : InRange low high key) :
    ∃ before child after, node.children = before ++ child :: after ∧
      before.length = upperBound node.keys key ∧
      (∃ l hi, Filled h l hi child ∧ InRange l hi key) ∧
      ∀ other, other ∈ before ∨ other ∈ after → ∀ entry ∈ entries other, entry.1 ≠ key := by
  have idx_le := upperBound_le node.keys key
  have length := routed.length
  have within : upperBound node.keys key < node.children.length := by omega
  obtain ⟨before, after, children_eq, position⟩ :=
    exists_split_of_getElem? (List.getElem?_eq_getElem within)
  obtain ⟨l, hi, childFits, childRange, left, right, -⟩ := routed.route (filled_room h) inRange
    (List.take_append_drop before.length _).symm children_eq (by simp; omega) position
  refine ⟨before, _, after, children_eq, position, ⟨l, hi, childFits, childRange⟩, ?_⟩
  rintro other (isBefore | isAfter) entry member
  · obtain ⟨l, bound, fits, le⟩ := left other isBefore
    have below := (fits.sorted.2 entry.1 (List.mem_map_of_mem member)).lt_high bound rfl
    omega
  · obtain ⟨bound, hi, fits, less⟩ := right other isAfter
    have above := (fits.sorted.2 entry.1 (List.mem_map_of_mem member)).low_le bound rfl
    omega

theorem filter_entries_routed {h : Nat} {node : InternalNode (Tree h)} {before after : List (Tree h)}
    {child : Tree h} {key : Int} (children_eq : node.children = before ++ child :: after)
    (outside : ∀ other, other ∈ before ∨ other ∈ after → ∀ entry ∈ entries other, entry.1 ≠ key) :
    (entries (h := h + 1) node).filter (fun entry => entry.1 = key) =
      (entries child).filter fun entry => entry.1 = key := by
  have none : ∀ others : List (Tree h), (∀ other ∈ others, other ∈ before ∨ other ∈ after) →
      (others.flatMap entries).filter (fun entry => entry.1 = key) = [] := by
    intro others isOther
    rw [List.filter_eq_nil_iff]
    intro entry member
    obtain ⟨other, inOthers, inside⟩ := List.mem_flatMap.mp member
    simpa using outside other (isOther other inOthers) entry inside
  rw [entries_internal, children_eq, List.flatMap_append, List.flatMap_cons, List.filter_append,
    List.filter_append, none before fun _ => .inl, none after fun _ => .inr]
  simp

theorem delete_absent {key : Int} {rid : RID} {innerLeast h : Nat} {low high : Option Int} {tree : Tree h}
    {isRoot : Bool} (fits : WellFormed 1 innerLeast h low high tree) (inRange : InRange low high key)
    (deleted : delete key rid h tree isRoot = some none) : (key, rid) ∉ entries tree := by
  induction h generalizing innerLeast low high isRoot with
  | zero =>
    rcases delete_leaf deleted with ⟨absent, -⟩ | ⟨pos, -, isSome⟩
    · rw [entries_leaf]
      intro member
      rw [LeafNode.position, List.findIdx?_eq_none_iff] at absent
      simpa using absent _ member
    · cases isSome
  | succ h ih =>
    obtain ⟨before, child, after, childResult, children_eq, position, childDeleted, outcome⟩ :=
      delete_internal deleted
    rcases outcome with ⟨rfl, -⟩ | ⟨child', childUnderflow, node', -, -, isSome⟩
    · obtain ⟨before', child', after', children_eq', position', ⟨l, hi, childFits, childRange⟩, outside⟩ :=
        routed_child fits.2.2 inRange
      obtain ⟨rfl, rest⟩ := List.append_inj (children_eq.symm.trans children_eq') (position.trans position'.symm)
      obtain ⟨rfl, rfl⟩ := List.cons.inj rest
      have childAbsent := ih childFits childRange childDeleted
      have same := filter_entries_routed children_eq outside
      intro member
      have kept : (key, rid) ∈ (entries tree).filter fun entry => entry.1 = key :=
        List.mem_filter.mpr ⟨member, by simp⟩
      rw [same] at kept
      exact childAbsent (List.mem_of_mem_filter kept)
    · cases isSome

theorem fixLeaf_exists {parent : InternalNode LeafNode} {idx : Nat} (two : 2 ≤ parent.children.length)
    (within : idx < parent.children.length) :
    ∃ fixed, fixLeaf (fun leaf : LeafNode => some leaf) parent idx = some fixed := by
  simp only [fixLeaf, List.getElem?_eq_getElem within, Option.bind_some, Option.bind_eq_bind]
  split
  · rw [List.getElem?_eq_getElem (by omega)]
    exact ⟨_, rfl⟩
  · rw [List.getElem?_eq_getElem (by omega : idx + 1 < parent.children.length)]
    exact ⟨_, rfl⟩

theorem borrowFromLeft_exists {D : Type} {left : InternalNode D} (separator : Int) (right : InternalNode D)
    (keys : left.keys ≠ []) (children : left.children ≠ []) :
    ∃ mended, left.borrowFromLeft separator right = some mended := by
  simp only [InternalNode.borrowFromLeft, List.getLast?_eq_some_getLast children,
    List.getLast?_eq_some_getLast keys]
  exact ⟨_, rfl⟩

theorem borrowFromRight_exists {D : Type} (left : InternalNode D) (separator : Int) {right : InternalNode D}
    (keys : right.keys ≠ []) (children : right.children ≠ []) :
    ∃ mended, left.borrowFromRight separator right = some mended := by
  simp only [InternalNode.borrowFromRight, List.head?_eq_some_head children,
    List.head?_eq_some_head keys]
  exact ⟨_, rfl⟩

theorem fixInternal_exists {h : Nat} {parent : InternalNode (InternalNode (Tree h))} {idx : Nat}
    (two : 2 ≤ parent.children.length) (within : idx < parent.children.length)
    (length : parent.children.length = parent.keys.length + 1)
    (lengths : ∀ node ∈ parent.children, node.children.length = node.keys.length + 1) :
    ∃ fixed, fixInternal (fun node : InternalNode (Tree h) => some node) parent idx = some fixed := by
  have lender : ∀ (pos : Nat) (inside : pos < parent.children.length),
      canLend (fun node : InternalNode (Tree h) => some node) parent pos = true →
      parent.children[pos].keys ≠ [] ∧ parent.children[pos].children ≠ [] := by
    intro pos inside lends
    simp only [canLend, List.getElem?_eq_getElem inside, Option.bind_some, decide_eq_true_eq] at lends
    have lengths := lengths _ (List.getElem_mem inside)
    exact ⟨List.ne_nil_of_length_pos (by omega), List.ne_nil_of_length_pos (by omega)⟩
  simp only [fixInternal, List.getElem?_eq_getElem within, Option.bind_some, Option.bind_eq_bind]
  split
  · rename_i chosen
    obtain ⟨keys, children⟩ := lender (idx - 1) (by omega) chosen.2
    have inKeys : idx - 1 < parent.keys.length := by omega
    obtain ⟨mended, borrowed⟩ := borrowFromLeft_exists parent.keys[idx - 1]
      parent.children[idx] keys children
    simp only [List.getElem?_eq_getElem (by omega : idx - 1 < parent.children.length),
      List.getElem?_eq_getElem inKeys, Option.bind_some, borrowed]
    exact ⟨_, rfl⟩
  · split
    · rename_i chosen
      obtain ⟨keys, children⟩ := lender (idx + 1) chosen.1 chosen.2
      have inKeys : idx < parent.keys.length := by omega
      obtain ⟨mended, borrowed⟩ := borrowFromRight_exists parent.children[idx]
        parent.keys[idx] keys children
      simp only [List.getElem?_eq_getElem chosen.1, List.getElem?_eq_getElem inKeys, Option.bind_some,
        borrowed]
      exact ⟨_, rfl⟩
    · split
      · rw [List.getElem?_eq_getElem (by omega : idx - 1 < parent.children.length),
          List.getElem?_eq_getElem (by omega : idx - 1 < parent.keys.length)]
        exact ⟨_, rfl⟩
      · rw [List.getElem?_eq_getElem (by omega : idx + 1 < parent.children.length),
          List.getElem?_eq_getElem (by omega : idx < parent.keys.length)]
        exact ⟨_, rfl⟩

end Tree

end FlintDB
