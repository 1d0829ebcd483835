import FlintDB.Index.BTree
import FlintDB.Lib.Chain
import Mathlib.Data.List.InsertIdx

set_option autoImplicit false

-- A tree of height `h` as a value, its leaves all at depth `h`, and insert and delete on such values: one case per
-- height, each the node operation that btree.cpp applies at that level.

namespace FlintDB

open Lib

@[reducible] def Tree : Nat → Type
  | 0 => LeafNode
  | h + 1 => InternalNode (Tree h)

namespace Tree

def pageId : (h : Nat) → Tree h → Nat
  | 0, (leaf : LeafNode) => leaf.pageId
  | _ + 1, (node : InternalNode _) => node.pageId

def leaves : (h : Nat) → Tree h → List LeafNode
  | 0, (leaf : LeafNode) => [leaf]
  | h + 1, (node : InternalNode (Tree h)) => node.children.flatMap (leaves h)

def pageIds : (h : Nat) → Tree h → List Nat
  | 0, (leaf : LeafNode) => [leaf.pageId]
  | h + 1, (node : InternalNode (Tree h)) => node.pageId :: node.children.flatMap (pageIds h)

def entries {h : Nat} (tree : Tree h) : List (Int × RID) := (leaves h tree).flatMap LeafNode.entries

def top : (h : Nat) → Tree h → Node
  | 0, (leaf : LeafNode) => .leaf leaf
  | h + 1, (node : InternalNode (Tree h)) => .internal (node.map (pageId h))

def Held (pages : Nat → Option Node) : (h : Nat) → Tree h → Prop
  | 0, (leaf : LeafNode) => pages leaf.pageId = some (.leaf leaf)
  | h + 1, (node : InternalNode (Tree h)) =>
    pages node.pageId = some (.internal (node.map (pageId h))) ∧ ∀ child ∈ node.children, Held pages h child

-- A tree after an insertion: the separator and the right half if it split, and the pages handed out so far.
structure Inserted (h : Nat) where
  tree : Tree h
  split : Option (Int × Tree h)
  allocated : Nat

def splitLeaf (leaf : LeafNode) (allocated : Nat) : Inserted 0 :=
  let (left, splitKey, right) :=
    leaf.split (findSplitBoundary leaf.keys (leaf.keys.length / 2)) (BPlusTree.wrapPageId allocated)
  ⟨left, some (splitKey, right), allocated + 1⟩

def splitInternal {h : Nat} (node : InternalNode (Tree h)) (allocated : Nat) : Inserted (h + 1) :=
  let (left, pushedUp, right) :=
    node.split (findSplitBoundary node.keys (node.keys.length / 2)) (BPlusTree.wrapPageId allocated)
  ⟨left, some (pushedUp, right), allocated + 1⟩

def insert (key : Int) (rid : RID) : (h : Nat) → Tree h → Nat → Option (Inserted h)
  | 0, (leaf : LeafNode), allocated =>
    let leaf := leaf.insert key rid
    if leaf.keys.length ≤ kLeafMaxKeys then some ⟨leaf, none, allocated⟩
    else some (splitLeaf leaf allocated)
  | h + 1, (node : InternalNode (Tree h)), allocated => do
    let idx := upperBound node.keys key
    let child ← node.children[idx]?
    let inserted ← insert key rid h child allocated
    let node := { node with children := node.children.set idx inserted.tree }
    match inserted.split with
    | none => some ⟨node, none, inserted.allocated⟩
    | some (splitKey, right) =>
      let node := node.insertChild idx splitKey right
      if node.keys.length ≤ kInternalMaxKeys then some ⟨node, none, inserted.allocated⟩
      else some (splitInternal node inserted.allocated)

def install {N : Type} (parent : InternalNode N) (pos : Nat) (mended : Mended N) : InternalNode N :=
  match mended with
  | .merged node => mended.adjust { parent with children := parent.children.set pos node } pos
  | .shifted left _ right =>
    mended.adjust { parent with children := (parent.children.set pos left).set (pos + 1) right } pos

def fixUnderflow : (h : Nat) → InternalNode (Tree h) → Nat → Option (InternalNode (Tree h))
  | 0, parent, idx => do
    let (pos, mended) ← fixLeaf (fun leaf : LeafNode => some leaf) parent idx
    return install parent pos mended
  | h + 1, parent, idx => do
    let (pos, mended) ← fixInternal (fun node : InternalNode (Tree h) => some node) parent idx
    return install parent pos mended

/-- `some none` is a pair that is not there; else the tree without it, and whether it underflows. -/
def delete (key : Int) (rid : RID) : (h : Nat) → Tree h → Bool → Option (Option (Tree h × Bool))
  | 0, (leaf : LeafNode), isRoot =>
    match leaf.position key rid with
    | none => some none
    | some pos =>
      let leaf := leaf.erase pos
      some (some (leaf, !isRoot && leaf.keys.length < kLeafMinKeys))
  | h + 1, (node : InternalNode (Tree h)), isRoot => do
    let idx := upperBound node.keys key
    let child ← node.children[idx]?
    match ← delete key rid h child false with
    | none => some none
    | some (child, underflow) =>
      let node : InternalNode (Tree h) := { node with children := node.children.set idx child }
      let node ← if underflow then fixUnderflow h node idx else some node
      some (some (node, !isRoot && node.keys.length < kInternalMinKeys))

theorem insertIdx_length {α : Type} (before after : List α) (a : α) :
    (before ++ after).insertIdx before.length a = before ++ a :: after := by
  induction before with
  | nil => rfl
  | cons first before ih => simpa using ih

def Inserted.trees {h : Nat} (inserted : Inserted h) : List (Tree h) :=
  inserted.tree :: inserted.split.toList.map Prod.snd

def Inserted.separators {h : Nat} (inserted : Inserted h) : List Int :=
  inserted.split.toList.map Prod.fst

theorem insert_leaf {key : Int} {rid : RID} {leaf : LeafNode} {allocated : Nat} {result : Inserted 0}
    (inserted : insert key rid 0 leaf allocated = some result) :
    ((leaf.insert key rid).keys.length ≤ kLeafMaxKeys ∧ result = ⟨leaf.insert key rid, none, allocated⟩) ∨
    (kLeafMaxKeys < (leaf.insert key rid).keys.length ∧
      result = splitLeaf (leaf.insert key rid) allocated) := by
  simp only [insert] at inserted
  split at inserted
  · rename_i fits
    exact .inl ⟨fits, (Option.some.inj inserted).symm⟩
  · rename_i overflow
    exact .inr ⟨by omega, (Option.some.inj inserted).symm⟩

def grown {h : Nat} (node : InternalNode (Tree h)) (keys₁ keys₂ : List Int) (before after : List (Tree h))
    (child : Inserted h) : InternalNode (Tree h) :=
  { node with
    keys := keys₁ ++ (child.separators ++ keys₂), children := before ++ (child.trees ++ after) }

theorem insert_internal {key : Int} {rid : RID} {h : Nat} {node : InternalNode (Tree h)} {allocated : Nat}
    {result : Inserted (h + 1)} (inserted : insert key rid (h + 1) node allocated = some result) :
    ∃ keys₁ keys₂ before child after childResult,
      node.keys = keys₁ ++ keys₂ ∧ node.children = before ++ child :: after ∧
      keys₁.length = before.length ∧ before.length = upperBound node.keys key ∧
      insert key rid h child allocated = some childResult ∧
      ((childResult.split = none ∨
            (grown node keys₁ keys₂ before after childResult).keys.length ≤ kInternalMaxKeys) ∧
          result = ⟨grown node keys₁ keys₂ before after childResult, none, childResult.allocated⟩ ∨
        (childResult.split ≠ none ∧
            kInternalMaxKeys < (grown node keys₁ keys₂ before after childResult).keys.length) ∧
          result = splitInternal (grown node keys₁ keys₂ before after childResult)
            childResult.allocated) := by
  simp only [insert, Option.bind_eq_bind, Option.bind_eq_some_iff] at inserted
  obtain ⟨child, atIdx, childResult, childInserted, inserted⟩ := inserted
  have idxLe := upperBound_le node.keys key
  obtain ⟨inChildren, isChild⟩ := List.getElem?_eq_some_iff.mp atIdx
  have children_eq : node.children = node.children.take (upperBound node.keys key) ++
      child :: node.children.drop (upperBound node.keys key + 1) := by
    rw [← isChild, ← List.drop_eq_getElem_cons inChildren, List.take_append_drop]
  have keys_eq := (List.take_append_drop (upperBound node.keys key) node.keys).symm
  have keysLength : (node.keys.take (upperBound node.keys key)).length = upperBound node.keys key := by
    simp [idxLe]
  have childrenLength : (node.children.take (upperBound node.keys key)).length =
      upperBound node.keys key := by
    rw [List.length_take]
    omega
  refine ⟨_, _, _, child, _, childResult, keys_eq, children_eq, by rw [keysLength, childrenLength],
    childrenLength, childInserted, ?_⟩
  generalize upperBound node.keys key = idx at *
  generalize node.keys.take idx = keys₁ at *
  generalize node.keys.drop idx = keys₂ at *
  generalize node.children.take idx = before at *
  generalize node.children.drop (idx + 1) = after at *
  subst keysLength
  have withChild : node.children.set keys₁.length childResult.tree =
      before ++ childResult.tree :: after := by
    rw [children_eq, ← childrenLength]
    simp
  cases split : childResult.split with
  | none =>
    simp only [split, withChild, Option.some.injEq] at inserted
    refine .inl ⟨.inl rfl, ?_⟩
    rw [← inserted]
    simp [grown, Inserted.separators, Inserted.trees, split, keys_eq]
  | some halves =>
    obtain ⟨splitKey, right⟩ := halves
    have isGrown : InternalNode.insertChild
        { node with children := node.children.set keys₁.length childResult.tree } keys₁.length splitKey
        right = grown node keys₁ keys₂ before after childResult := by
      simp only [InternalNode.insertChild, grown, Inserted.separators, Inserted.trees, split, withChild,
        keys_eq, insertIdx_length, Option.toList_some, List.map_cons, List.map_nil]
      have position : before.length + 1 = (before ++ [childResult.tree]).length := by simp
      rw [← childrenLength, List.append_cons before, position, insertIdx_length]
      simp
    simp only [split, isGrown] at inserted
    split at inserted
    · rename_i fits
      exact .inl ⟨.inr fits, (Option.some.inj inserted).symm⟩
    · rename_i overflow
      exact .inr ⟨⟨by simp, by omega⟩, (Option.some.inj inserted).symm⟩

theorem exists_split_of_getElem? {α : Type} {list : List α} {pos : Nat} {a : α}
    (here : list[pos]? = some a) :
    ∃ before after, list = before ++ a :: after ∧ before.length = pos := by
  obtain ⟨within, isA⟩ := List.getElem?_eq_some_iff.mp here
  refine ⟨list.take pos, list.drop (pos + 1), ?_, by simp; omega⟩
  rw [← isA, ← List.drop_eq_getElem_cons within, List.take_append_drop]

theorem exists_window {α : Type} {list : List α} {pos : Nat} {left right : α}
    (isLeft : list[pos]? = some left) (isRight : list[pos + 1]? = some right) :
    ∃ before after, list = before ++ left :: right :: after ∧ before.length = pos := by
  obtain ⟨before, rest, rfl, rfl⟩ := exists_split_of_getElem? isLeft
  rw [List.getElem?_append_right (by omega)] at isRight
  cases rest with
  | nil => simp at isRight
  | cons next after =>
    simp only [Nat.add_sub_cancel_left, List.getElem?_cons_succ, List.getElem?_cons_zero,
      Option.some.injEq] at isRight
    exact ⟨before, after, by rw [isRight], rfl⟩

theorem delete_leaf {key : Int} {rid : RID} {leaf : LeafNode} {isRoot : Bool}
    {result : Option (Tree 0 × Bool)} (deleted : delete key rid 0 leaf isRoot = some result) :
    (leaf.position key rid = none ∧ result = none) ∨
    ∃ pos, leaf.position key rid = some pos ∧
      result = some (leaf.erase pos, !isRoot && (leaf.erase pos).keys.length < kLeafMinKeys) := by
  simp only [delete] at deleted
  cases found : leaf.position key rid with
  | none =>
    simp only [found, Option.some.injEq] at deleted
    exact .inl ⟨rfl, deleted.symm⟩
  | some pos =>
    simp only [found, Option.some.injEq] at deleted
    exact .inr ⟨pos, rfl, deleted.symm⟩

def replaced {h : Nat} (node : InternalNode (Tree h)) (before after : List (Tree h)) (child : Tree h) :
    InternalNode (Tree h) :=
  { node with children := before ++ child :: after }

theorem delete_internal {key : Int} {rid : RID} {h : Nat} {node : InternalNode (Tree h)} {isRoot : Bool}
    {result : Option (Tree (h + 1) × Bool)} (deleted : delete key rid (h + 1) node isRoot = some result) :
    ∃ before child after childResult, node.children = before ++ child :: after ∧
      before.length = upperBound node.keys key ∧ delete key rid h child false = some childResult ∧
      ((childResult = none ∧ result = none) ∨
        ∃ child' underflow node', childResult = some (child', underflow) ∧
          (if underflow then fixUnderflow h (replaced node before after child') before.length = some node'
            else node' = replaced node before after child') ∧
          result = some (node', !isRoot && node'.keys.length < kInternalMinKeys)) := by
  simp only [delete, Option.bind_eq_bind, Option.bind_eq_some_iff] at deleted
  obtain ⟨child, atIdx, childResult, childDeleted, deleted⟩ := deleted
  obtain ⟨before, after, children_eq, position⟩ := exists_split_of_getElem? atIdx
  refine ⟨before, child, after, childResult, children_eq, position, childDeleted, ?_⟩
  rcases childResult with _ | ⟨child', underflow⟩
  · exact .inl ⟨rfl, (Option.some.inj deleted).symm⟩
  · have isReplaced : ({ node with children := node.children.set before.length child' } :
        InternalNode (Tree h)) = replaced node before after child' := by
      simp [replaced, children_eq]
    simp only [← position, isReplaced] at deleted
    cases underflow with
    | false =>
      simp only [Bool.false_eq_true, if_false, Option.bind_some, Option.some.injEq] at deleted
      exact .inr ⟨child', false, _, rfl, rfl, deleted.symm⟩
    | true =>
      simp only [if_true, Option.bind_eq_some_iff, Option.some.injEq] at deleted
      obtain ⟨node', fixed, outcome⟩ := deleted
      exact .inr ⟨child', true, node', rfl, fixed, outcome.symm⟩

end Tree

namespace Mended

variable {N : Type}

def nodes : Mended N → List N
  | merged node => [node]
  | shifted left _ right => [left, right]

def separators : Mended N → List Int
  | merged _ => []
  | shifted _ key _ => [key]

end Mended

-- What FixUnderflow decides for two internal neighbours, of which the second (`true`) or the first is the child that
-- underflowed.
inductive MendsInternal {D : Type} (left : InternalNode D) (separator : Int) (right : InternalNode D) :
    Bool → Mended (InternalNode D) → Prop
  | fromLeft {keys : List Int} {promoted : Int} {children : List D} {moved : D}
      (spare : kInternalMinKeys < left.keys.length) (keys_eq : left.keys = keys ++ [promoted])
      (children_eq : left.children = children ++ [moved]) :
      MendsInternal left separator right true
        (.shifted { left with keys := keys, children := children } promoted
          { right with keys := separator :: right.keys, children := moved :: right.children })
  | fromRight {keys : List Int} {promoted : Int} {children : List D} {moved : D}
      (spare : kInternalMinKeys < right.keys.length) (keys_eq : right.keys = promoted :: keys)
      (children_eq : right.children = moved :: children) :
      MendsInternal left separator right false
        (.shifted { left with keys := left.keys ++ [separator], children := left.children ++ [moved] }
          promoted { right with keys := keys, children := children })
  | mergeLeft (tight : left.keys.length ≤ kInternalMinKeys) :
      MendsInternal left separator right true (.merged (left.merge separator right))
  | mergeRight (tight : right.keys.length ≤ kInternalMinKeys) :
      MendsInternal left separator right false (.merged (left.merge separator right))

namespace Tree

theorem fixLeaf_window {parent : InternalNode LeafNode} {idx pos : Nat} {mended : Mended LeafNode}
    (fixed : fixLeaf (fun leaf : LeafNode => some leaf) parent idx = some (pos, mended)) :
    ∃ before left right after ideal, parent.children = before ++ left :: right :: after ∧
      before.length = pos ∧ (idx = pos ∨ idx = pos + 1) ∧ mended = mendLeaves left right ideal := by
  simp only [fixLeaf, Option.bind_eq_bind, Option.bind_eq_some_iff] at fixed
  obtain ⟨child, ⟨_, atIdx, same⟩, fixed⟩ := fixed
  cases same
  split at fixed
  · rename_i positive
    simp only [Option.bind_eq_some_iff, Option.pure_def, Option.some.injEq, Prod.mk.injEq] at fixed
    obtain ⟨left, ⟨_, atLeft, same⟩, rfl, rfl⟩ := fixed
    cases same
    rw [show idx = idx - 1 + 1 by omega] at atIdx
    obtain ⟨before, after, children_eq, length⟩ := exists_window atLeft atIdx
    exact ⟨before, left, child, after, _, children_eq, length, .inr (by omega), rfl⟩
  · simp only [Option.bind_eq_some_iff, Option.pure_def, Option.some.injEq, Prod.mk.injEq] at fixed
    obtain ⟨right, ⟨_, atRight, same⟩, rfl, rfl⟩ := fixed
    cases same
    obtain ⟨before, after, children_eq, length⟩ := exists_window atIdx atRight
    exact ⟨before, child, right, after, _, children_eq, length, .inl rfl, rfl⟩

theorem borrowFromLeft_some {D : Type} {left right : InternalNode D} {separator : Int}
    {mended : Mended (InternalNode D)} (borrowed : left.borrowFromLeft separator right = some mended)
    (spare : kInternalMinKeys < left.keys.length) : MendsInternal left separator right true mended := by
  simp only [InternalNode.borrowFromLeft, Option.bind_eq_bind, Option.bind_eq_some_iff, Option.pure_def,
    Option.some.injEq] at borrowed
  obtain ⟨moved, lastChild, promoted, lastKey, rfl⟩ := borrowed
  exact .fromLeft spare (List.dropLast_append_getLast? _ lastKey).symm
    (List.dropLast_append_getLast? _ lastChild).symm

theorem borrowFromRight_some {D : Type} {left right : InternalNode D} {separator : Int}
    {mended : Mended (InternalNode D)} (borrowed : left.borrowFromRight separator right = some mended)
    (spare : kInternalMinKeys < right.keys.length) : MendsInternal left separator right false mended := by
  simp only [InternalNode.borrowFromRight, Option.bind_eq_bind, Option.bind_eq_some_iff, Option.pure_def,
    Option.some.injEq] at borrowed
  obtain ⟨moved, firstChild, promoted, firstKey, rfl⟩ := borrowed
  exact .fromRight spare (List.cons_head?_tail firstKey).symm (List.cons_head?_tail firstChild).symm

theorem fixInternal_window {h : Nat} {parent : InternalNode (InternalNode (Tree h))} {idx pos : Nat}
    {mended : Mended (InternalNode (Tree h))}
    (fixed : fixInternal (fun node : InternalNode (Tree h) => some node) parent idx = some (pos, mended)) :
    ∃ before left right after separator childIsRight,
      parent.children = before ++ left :: right :: after ∧ before.length = pos ∧
      idx = pos + childIsRight.toNat ∧ parent.keys[pos]? = some separator ∧
      MendsInternal left separator right childIsRight mended := by
  simp only [fixInternal, Option.bind_eq_bind, Option.bind_eq_some_iff] at fixed
  obtain ⟨child, ⟨_, atIdx, same⟩, fixed⟩ := fixed
  cases same
  have lends : ∀ {place : Nat} {sibling : InternalNode (Tree h)}, parent.children[place]? = some sibling →
      (canLend (fun node : InternalNode (Tree h) => some node) parent place ↔
        kInternalMinKeys < sibling.keys.length) := by
    intro place sibling here
    simp only [canLend, here, Option.bind_some, decide_eq_true_iff]
  -- the two ways to pick the pair, whatever is then done to it
  have pairLeft : ∀ {left}, 0 < idx → parent.children[idx - 1]? = some left →
      ∃ before after, parent.children = before ++ left :: child :: after ∧ before.length = idx - 1 := by
    intro left positive atLeft
    rw [show idx = idx - 1 + 1 by omega] at atIdx
    exact exists_window atLeft atIdx
  split at fixed
  · rename_i chosen
    simp only [Option.bind_eq_some_iff, Option.pure_def, Option.some.injEq, Prod.mk.injEq] at fixed
    obtain ⟨left, ⟨_, atLeft, same⟩, separator, isSeparator, _, borrowed, rfl, rfl⟩ := fixed
    cases same
    obtain ⟨before, after, children_eq, length⟩ := pairLeft chosen.1 atLeft
    exact ⟨before, left, child, after, separator, true, children_eq, length, by simp; omega, isSeparator,
      borrowFromLeft_some borrowed ((lends atLeft).mp chosen.2)⟩
  · rename_i notLeft
    split at fixed
    · rename_i chosen
      simp only [Option.bind_eq_some_iff, Option.pure_def, Option.some.injEq, Prod.mk.injEq] at fixed
      obtain ⟨right, ⟨_, atRight, same⟩, separator, isSeparator, _, borrowed, rfl, rfl⟩ := fixed
      cases same
      obtain ⟨before, after, children_eq, length⟩ := exists_window atIdx atRight
      exact ⟨before, child, right, after, separator, false, children_eq, length, rfl, isSeparator,
        borrowFromRight_some borrowed ((lends atRight).mp chosen.2)⟩
    · rename_i notRight
      split at fixed
      · rename_i positive
        simp only [Option.bind_eq_some_iff, Option.pure_def, Option.some.injEq, Prod.mk.injEq] at fixed
        obtain ⟨left, ⟨_, atLeft, same⟩, separator, isSeparator, rfl, rfl⟩ := fixed
        cases same
        obtain ⟨before, after, children_eq, length⟩ := pairLeft positive atLeft
        have tight : left.keys.length ≤ kInternalMinKeys :=
          Nat.not_lt.mp fun spare => notLeft ⟨positive, (lends atLeft).mpr spare⟩
        exact ⟨before, left, child, after, separator, true, children_eq, length, by simp; omega,
          isSeparator, .mergeLeft tight⟩
      · simp only [Option.bind_eq_some_iff, Option.pure_def, Option.some.injEq, Prod.mk.injEq] at fixed
        obtain ⟨right, ⟨_, atRight, same⟩, separator, isSeparator, rfl, rfl⟩ := fixed
        cases same
        obtain ⟨before, after, children_eq, length⟩ := exists_window atIdx atRight
        have inRange := (List.getElem?_eq_some_iff.mp atRight).1
        have tight : right.keys.length ≤ kInternalMinKeys :=
          Nat.not_lt.mp fun spare => notRight ⟨inRange, (lends atRight).mpr spare⟩
        exact ⟨before, child, right, after, separator, false, children_eq, length, rfl, isSeparator,
          .mergeRight tight⟩

theorem install_children {N : Type} {parent : InternalNode N} {before after : List N} {left right : N}
    (children_eq : parent.children = before ++ left :: right :: after) (mended : Mended N) :
    (install parent before.length mended).children = before ++ (mended.nodes ++ after) := by
  cases mended with
  | merged node =>
    simp only [install, Mended.adjust, children_eq, Mended.nodes]
    rw [List.set_append_right _ _ (Nat.le_refl _), List.eraseIdx_append_of_length_le (Nat.le_succ _)]
    simp
  | shifted left' key right' =>
    simp [install, Mended.adjust, children_eq, Mended.nodes]

theorem install_keys {N : Type} {parent : InternalNode N} {keys₁ keys₂ : List Int} {separator : Int}
    (keys_eq : parent.keys = keys₁ ++ separator :: keys₂) (mended : Mended N) :
    (install parent keys₁.length mended).keys = keys₁ ++ (mended.separators ++ keys₂) := by
  cases mended with
  | merged node =>
    simp [install, Mended.adjust, keys_eq, Mended.separators, List.eraseIdx_append]
  | shifted left' key right' => simp [install, Mended.adjust, keys_eq, Mended.separators]

end Tree

end FlintDB
