import FlintDB.Index.InsertSimulation
import Mathlib.Data.List.Perm.Subperm

set_option autoImplicit false

namespace FlintDB

open Lib FlintDB.Tree Fallible

theorem fixLeaf_read {read : Nat → Option LeafNode} {parent : InternalNode LeafNode} (idx : Nat)
    (agree : ∀ leaf ∈ parent.children, read leaf.pageId = some leaf) :
    fixLeaf read (parent.map LeafNode.pageId) idx =
      fixLeaf (fun leaf : LeafNode => some leaf) parent idx := by
  have lookup : ∀ pos : Nat, (parent.map LeafNode.pageId).children[pos]?.bind read =
      parent.children[pos]?.bind fun leaf => some leaf := by
    intro pos
    cases here : parent.children[pos]? with
    | none => simp [InternalNode.map, here]
    | some leaf => simp [InternalNode.map, here, agree leaf (List.mem_of_getElem? here)]
  simp only [fixLeaf, lookup]

section FixInternal

variable {C D : Type} (f : C → D)

theorem borrowFromLeft_map (left : InternalNode C) (separator : Int) (child : InternalNode C) :
    (left.map f).borrowFromLeft separator (child.map f) =
      (left.borrowFromLeft separator child).map (Mended.map (InternalNode.map f)) := by
  cases lastChild : left.children.getLast? <;> cases lastKey : left.keys.getLast? <;>
    simp [InternalNode.borrowFromLeft, InternalNode.map, Mended.map, lastChild, lastKey, List.map_dropLast]

theorem borrowFromRight_map (child : InternalNode C) (separator : Int) (right : InternalNode C) :
    (child.map f).borrowFromRight separator (right.map f) =
      (child.borrowFromRight separator right).map (Mended.map (InternalNode.map f)) := by
  cases firstChild : right.children.head? <;> cases firstKey : right.keys.head? <;>
    simp [InternalNode.borrowFromRight, InternalNode.map, Mended.map, firstChild, firstKey, List.map_tail]

theorem merge_map (left : InternalNode C) (separator : Int) (right : InternalNode C) :
    (left.map f).merge separator (right.map f) = (left.merge separator right).map f := by
  simp [InternalNode.merge, InternalNode.map]

end FixInternal

theorem fixInternal_read {h : Nat} {read : Nat → Option (InternalNode Nat)}
    {parent : InternalNode (InternalNode (Tree h))} (idx : Nat)
    (agree : ∀ node ∈ parent.children, read node.pageId = some (node.map (pageId h))) :
    fixInternal read (parent.map InternalNode.pageId) idx =
      (fixInternal (fun node : InternalNode (Tree h) => some node) parent idx).map
        (Prod.map id (Mended.map (InternalNode.map (pageId h)))) := by
  have lookup : ∀ pos : Nat, (parent.map InternalNode.pageId).children[pos]?.bind read =
      parent.children[pos]?.map (InternalNode.map (pageId h)) := by
    intro pos
    cases here : parent.children[pos]? with
    | none => simp [InternalNode.map, here]
    | some node => simp [InternalNode.map, here, agree node (List.mem_of_getElem? here)]
  have lends : ∀ pos, canLend read (parent.map InternalNode.pageId) pos =
      canLend (fun node : InternalNode (Tree h) => some node) parent pos := by
    intro pos
    simp only [canLend, lookup]
    cases parent.children[pos]? <;> rfl
  have keys_eq : (parent.map InternalNode.pageId).keys = parent.keys := rfl
  have length_eq : (parent.map InternalNode.pageId).children.length = parent.children.length := by
    simp [InternalNode.map]
  simp only [fixInternal, lookup, lends, keys_eq, length_eq]
  cases parent.children[idx]? with
  | none => rfl
  | some child =>
    simp only [Option.map_some, Option.bind_eq_bind, Option.bind_some]
    -- one neighbour to look up in each branch, and one separator
    split
    · cases parent.children[idx - 1]? <;> cases parent.keys[idx - 1]? <;>
        simp [borrowFromLeft_map, Option.bind_map, Option.map_bind, Prod.map]
    · split
      · cases parent.children[idx + 1]? <;> cases parent.keys[idx]? <;>
          simp [borrowFromRight_map, Option.bind_map, Option.map_bind, Prod.map]
      · split
        · cases parent.children[idx - 1]? <;> cases parent.keys[idx - 1]? <;>
            simp [merge_map, Mended.map]
        · cases parent.children[idx + 1]? <;> cases parent.keys[idx]? <;> simp [merge_map, Mended.map]

structure KeepsPages {h : Nat} (left right : Tree h) (mended : Mended (Tree h)) : Prop where
  own : match mended with
    | .merged node => pageId h node = pageId h left
    | .shifted left' _ right' => pageId h left' = pageId h left ∧ pageId h right' = pageId h right
  all : (mended.nodes.flatMap (pageIds h)).Subperm (pageIds h left ++ pageIds h right)

theorem mendLeaves_keepsPages (left right : LeafNode) (ideal : Nat) :
    KeepsPages (h := 0) left right (mendLeaves left right ideal) := by
  unfold mendLeaves
  dsimp only
  split
  · refine ⟨rfl, ?_⟩
    simp [Mended.nodes, pageIds]
  · exact ⟨⟨rfl, rfl⟩, List.Subperm.refl _⟩

theorem MendsInternal.keepsPages {h : Nat} {left right : InternalNode (Tree h)} {separator : Int}
    {childIsRight : Bool} {mended : Mended (InternalNode (Tree h))}
    (mends : MendsInternal left separator right childIsRight mended) :
    KeepsPages (h := h + 1) left right mended := by
  have merges : KeepsPages (h := h + 1) left right (.merged (left.merge separator right)) := by
    refine ⟨rfl, ?_⟩
    simp only [Mended.nodes, List.flatMap_cons, List.flatMap_nil, List.append_nil, pageIds,
      InternalNode.merge, List.flatMap_append, List.cons_append]
    exact (((List.Sublist.refl _).append (List.sublist_cons_self _ _)).cons_cons _).subperm
  cases mends with
  | fromLeft spare keys_eq children_eq =>
    refine ⟨⟨rfl, rfl⟩, List.Perm.subperm ?_⟩
    rw [List.perm_iff_count]
    intro page
    simp only [Mended.nodes, pageIds, children_eq, List.flatMap_append, List.flatMap_cons, List.flatMap_nil,
      List.append_nil, List.count_append, List.count_cons]
    omega
  | fromRight spare keys_eq children_eq =>
    refine ⟨⟨rfl, rfl⟩, List.Perm.subperm ?_⟩
    rw [List.perm_iff_count]
    intro page
    simp only [Mended.nodes, pageIds, children_eq, List.flatMap_append, List.flatMap_cons, List.flatMap_nil,
      List.append_nil, List.count_append, List.count_cons]
    omega
  | mergeLeft tight => exact merges
  | mergeRight tight => exact merges

theorem MendsInternal.children {D : Type} {left right : InternalNode D} {separator : Int}
    {childIsRight : Bool} {mended : Mended (InternalNode D)}
    (mends : MendsInternal left separator right childIsRight mended) {node : InternalNode D}
    (isNode : node ∈ mended.nodes) {child : D} (member : child ∈ node.children) :
    child ∈ left.children ∨ child ∈ right.children := by
  cases mends with
  | fromLeft spare keys_eq children_eq =>
    simp only [Mended.nodes, List.mem_cons, List.not_mem_nil, or_false] at isNode
    rcases isNode with rfl | rfl <;> simp only [children_eq, List.mem_append, List.mem_cons] at member ⊢ <;>
      tauto
  | fromRight spare keys_eq children_eq =>
    simp only [Mended.nodes, List.mem_cons, List.not_mem_nil, or_false] at isNode
    rcases isNode with rfl | rfl <;> simp only [children_eq, List.mem_append, List.mem_cons] at member ⊢ <;>
      tauto
  | mergeLeft tight | mergeRight tight =>
    simp only [Mended.nodes, List.mem_singleton] at isNode
    subst isNode
    exact List.mem_append.mp member

theorem KeepsPages.own_subset {h : Nat} {left right : Tree h} {mended : Mended (Tree h)}
    (keeps : KeepsPages left right mended) :
    (mended.nodes.map (pageId h)).Sublist [pageId h left, pageId h right] := by
  cases mended with
  | merged node =>
    have samePage := keeps.own
    simp [Mended.nodes, samePage]
  | shifted left' key right' =>
    obtain ⟨sameLeft, sameRight⟩ := keeps.own
    simp [Mended.nodes, sameLeft, sameRight]

theorem install_map {h : Nat} {parent : InternalNode (Tree h)} {before after : List (Tree h)}
    {left right : Tree h} (children_eq : parent.children = before ++ left :: right :: after)
    {mended : Mended (Tree h)} (keeps : KeepsPages left right mended) {N : Type} (f : Tree h → N) :
    (install parent before.length mended).map (pageId h) =
      (mended.map f).adjust (parent.map (pageId h)) before.length := by
  have children := congrArg (List.map (pageId h)) (install_children children_eq mended)
  cases mended with
  | merged node =>
    have samePage := keeps.own
    simp only [InternalNode.map, children, Mended.map, Mended.adjust, Mended.nodes, children_eq,
      List.map_append, List.map_cons, List.map_nil]
    rw [List.eraseIdx_append_of_length_le (by simp)]
    simp [install, Mended.adjust, samePage]
  | shifted left' key right' =>
    obtain ⟨sameLeft, sameRight⟩ := keeps.own
    simp [InternalNode.map, Mended.map, Mended.adjust, children_eq, install, sameLeft, sameRight]

theorem fixUnderflow_pageIds {h : Nat} {parent parent' : InternalNode (Tree h)} {idx : Nat}
    (fixed : Tree.fixUnderflow h parent idx = some parent') :
    parent'.pageId = parent.pageId ∧
      (parent'.children.flatMap (pageIds h)).Subperm (parent.children.flatMap (pageIds h)) := by
  have window : ∀ {before after : List (Tree h)} {left right : Tree h} {mended : Mended (Tree h)},
      parent.children = before ++ left :: right :: after → KeepsPages left right mended →
      (install parent before.length mended).pageId = parent.pageId ∧
        ((install parent before.length mended).children.flatMap (pageIds h)).Subperm
          (parent.children.flatMap (pageIds h)) := by
    intro before after left right mended children_eq keeps
    refine ⟨by cases mended <;> rfl, ?_⟩
    simp only [install_children children_eq, children_eq, List.flatMap_append, List.flatMap_cons,
      ← List.append_assoc (pageIds h left)]
    exact List.Subperm.append (List.Subperm.refl _) (List.Subperm.append keeps.all (List.Subperm.refl _))
  cases h with
  | zero =>
    simp only [Tree.fixUnderflow, Option.bind_eq_bind, Option.bind_eq_some_iff, Option.pure_def,
      Option.some.injEq] at fixed
    obtain ⟨⟨pos, mended⟩, found, rfl⟩ := fixed
    obtain ⟨before, left, right, after, ideal, children_eq, rfl, -, rfl⟩ := fixLeaf_window found
    exact window children_eq (mendLeaves_keepsPages left right ideal)
  | succ h =>
    simp only [Tree.fixUnderflow, Option.bind_eq_bind, Option.bind_eq_some_iff, Option.pure_def,
      Option.some.injEq] at fixed
    obtain ⟨⟨pos, mended⟩, found, rfl⟩ := fixed
    obtain ⟨before, left, right, after, _, _, children_eq, rfl, -, -, mends⟩ := fixInternal_window found
    exact window children_eq mends.keepsPages

theorem delete_pageIds {key : Int} {rid : RID} {h : Nat} {tree tree' : Tree h} {isRoot underflow : Bool}
    (deleted : Tree.delete key rid h tree isRoot = some (some (tree', underflow))) :
    pageId h tree' = pageId h tree ∧ (pageIds h tree').Subperm (pageIds h tree) := by
  induction h generalizing isRoot underflow with
  | zero =>
    rcases delete_leaf deleted with ⟨-, isNone⟩ | ⟨pos, -, isSome⟩
    · cases isNone
    · cases isSome
      exact ⟨rfl, List.Subperm.refl _⟩
  | succ h ih =>
    obtain ⟨before, child, after, childResult, children_eq, -, childDeleted, outcome⟩ :=
      delete_internal deleted
    rcases outcome with ⟨-, isNone⟩ | ⟨child', childUnderflow, node', rfl, fixed, isSome⟩
    · cases isNone
    · cases isSome
      obtain ⟨-, childPages⟩ := ih childDeleted
      have inPlace : ((replaced tree before after child').children.flatMap (pageIds h)).Subperm
          (tree.children.flatMap (pageIds h)) := by
        simp only [replaced, children_eq, List.flatMap_append, List.flatMap_cons]
        exact List.Subperm.append (List.Subperm.refl _)
          (List.Subperm.append childPages (List.Subperm.refl _))
      split at fixed
      · obtain ⟨samePage, fewer⟩ := fixUnderflow_pageIds fixed
        refine ⟨samePage, ?_⟩
        rw [pageIds, pageIds, samePage]
        exact (List.subperm_cons _).mpr (fewer.trans inPlace)
      · subst fixed
        exact ⟨rfl, (List.subperm_cons _).mpr inPlace⟩

namespace BPlusTree

variable {key : Int} {rid : RID} {h fuel : Nat} {s : BPlusTree}

theorem storeMended_exec {N : Type} (wrap : N → Node) (pid : N → Nat) (mended : Mended N)
    (s : BPlusTree) :
    ∃ s', (storeMended wrap pid mended).exec s = (.ok (), s') ∧ s'.allocated = s.allocated ∧
      s'.rootPageId = s.rootPageId ∧
      (∀ pageId ∉ mended.nodes.map pid, s'.pages pageId = s.pages pageId) ∧
      ((mended.nodes.map pid).Nodup → ∀ node ∈ mended.nodes, s'.pages (pid node) = some (wrap node)) := by
  cases mended with
  | merged node =>
    refine ⟨_, storePage_exec .., rfl, rfl, fun pageId outside => ?_, fun _ other isNode => ?_⟩
    · simp only [Mended.nodes, List.map_cons, List.map_nil, List.mem_singleton] at outside
      simp [outside]
    · simp only [Mended.nodes, List.mem_singleton] at isNode
      simp [isNode]
  | shifted left key right =>
    refine ⟨_, (exec_bind_ok (storePage_exec ..)).trans (storePage_exec ..), rfl, rfl,
      fun pageId outside => ?_, fun nodup other isNode => ?_⟩
    · simp only [Mended.nodes, List.map_cons, List.map_nil, List.mem_cons, List.not_mem_nil, or_false,
        not_or] at outside
      simp [outside]
    · simp only [Mended.nodes, List.mem_cons, List.not_mem_nil, or_false, List.map_cons, List.map_nil,
        List.nodup_cons] at isNode nodup
      rcases isNode with rfl | rfl <;> simp [nodup.1]

theorem held_after_mending {parent : InternalNode (Tree h)} {before after : List (Tree h)}
    {left right : Tree h} {mended : Mended (Tree h)} (s' : BPlusTree)
    (children_eq : parent.children = before ++ left :: right :: after)
    (nodup : (parent.children.flatMap (pageIds h)).Nodup)
    (held : ∀ child ∈ parent.children, Held s.pages h child)
    (nodes : ∀ node ∈ mended.nodes, Held s'.pages h node)
    (framed : ∀ page ∉ [pageId h left, pageId h right], s'.pages page = s.pages page) :
    (∀ child ∈ (install parent before.length mended).children, Held s'.pages h child) ∧
      ∀ page ∉ parent.children.flatMap (pageIds h), s'.pages page = s.pages page := by
  have leftIn := pageId_mem h left
  have rightIn := pageId_mem h right
  simp only [children_eq, List.flatMap_append, List.flatMap_cons, List.nodup_append, List.mem_append]
    at nodup
  obtain ⟨-, ⟨-, ⟨-, -, rightAfter⟩, leftRest⟩, beforeRest⟩ := nodup
  refine ⟨fun child member => ?_, fun page outside => framed page fun own => outside ?_⟩
  · rw [install_children children_eq] at member
    rcases List.mem_append.mp member with inBefore | rest
    · refine (held child (by simp [children_eq, inBefore])).congr fun page inside => framed page fun own => ?_
      have here := List.mem_flatMap.mpr ⟨child, inBefore, inside⟩
      simp only [List.mem_cons, List.not_mem_nil, or_false] at own
      rcases own with rfl | rfl
      · exact beforeRest _ here _ (.inl leftIn) rfl
      · exact beforeRest _ here _ (.inr (.inl rightIn)) rfl
    · rcases List.mem_append.mp rest with isNode | inAfter
      · exact nodes child isNode
      · refine (held child (by simp [children_eq, inAfter])).congr fun page inside => framed page fun own => ?_
        have here := List.mem_flatMap.mpr ⟨child, inAfter, inside⟩
        simp only [List.mem_cons, List.not_mem_nil, or_false] at own
        rcases own with rfl | rfl
        · exact leftRest _ leftIn _ (.inr here) rfl
        · exact rightAfter _ rightIn _ here rfl
  · simp only [List.mem_cons, List.not_mem_nil, or_false] at own
    rw [children_eq, List.mem_flatMap]
    rcases own with rfl | rfl
    · exact ⟨left, by simp, leftIn⟩
    · exact ⟨right, by simp, rightIn⟩

-- FixUnderflow on the pages of the children comes to `s'` with the repaired parent.
structure Fixes (parent parent' : InternalNode (Tree h)) (idx : Nat) (s s' : BPlusTree) : Prop where
  done : (fixUnderflow (parent.map (pageId h)) idx).exec s = (.ok (parent'.map (pageId h)), s')
  allocated : s'.allocated = s.allocated
  root : s'.rootPageId = s.rootPageId
  held : ∀ child ∈ parent'.children, Held s'.pages h child
  framed : ∀ pageId ∉ parent.children.flatMap (pageIds h), s'.pages pageId = s.pages pageId

theorem fixUnderflow_leaf {parent parent' : InternalNode LeafNode} {idx : Nat}
    (fixed : Tree.fixUnderflow 0 parent idx = some parent')
    (held : ∀ child ∈ parent.children, Held s.pages 0 child)
    (nodup : (parent.children.flatMap (pageIds 0)).Nodup) :
    ∃ s', Fixes (h := 0) parent parent' idx s s' := by
  simp only [Tree.fixUnderflow, Option.bind_eq_bind, Option.bind_eq_some_iff, Option.pure_def,
    Option.some.injEq] at fixed
  obtain ⟨⟨pos, mended⟩, found, rfl⟩ := fixed
  obtain ⟨before, left, right, after, ideal, children_eq, rfl, side, rfl⟩ := fixLeaf_window found
  have keeps := mendLeaves_keepsPages left right ideal
  generalize mendLeaves left right ideal = mended at *
  have different : left.pageId ≠ right.pageId := by
    simp only [children_eq, pageIds, List.flatMap_append, List.flatMap_cons, List.nodup_append] at nodup
    exact fun same => nodup.2.1.2.2 _ List.mem_cons_self _ (by simp) same
  obtain ⟨s', stored, allocated, root, framed, written⟩ :=
    storeMended_exec Node.leaf LeafNode.pageId mended s
  have ownSubset := keeps.own_subset
  obtain ⟨here, frame⟩ := held_after_mending s' children_eq nodup held
    (written (ownSubset.nodup (by simpa [pageId] using different)))
    (fun page outside => framed page fun own => outside (ownSubset.subset own))
  refine ⟨s', ?_, allocated, root, here, frame⟩
  have readable : ∀ leaf ∈ parent.children, s.readLeaf leaf.pageId = some leaf := by
    intro leaf member
    have stored : s.pages leaf.pageId = some (.leaf leaf) := held leaf member
    rw [readLeaf, stored]
  obtain ⟨child, isChild, member⟩ : ∃ child, parent.children[idx]? = some child ∧ child ∈ parent.children := by
    rcases side with rfl | rfl
    · exact ⟨left, by simp [children_eq], by simp [children_eq]⟩
    · exact ⟨right, by simp [children_eq], by simp [children_eq]⟩
  have atIdx : (parent.map LeafNode.pageId).children[idx]? = some child.pageId := by
    simp [InternalNode.map, isChild]
  have childStored : s.pages child.pageId = some (.leaf child) := held child member
  rw [show pageId 0 = LeafNode.pageId from rfl, fixUnderflow, atIdx, exec_bind_ok (orUndefined_exec ..),
    exec_bind_ok (exec_get s), exec_bind_ok (fetchPage_exec childStored)]
  simp only [fixLeaf_read idx readable, found]
  rw [exec_bind_ok (orUndefined_exec ..), exec_bind_ok stored, exec_pure]
  have mapped := install_map children_eq keeps (fun leaf => leaf)
  rw [show (mended.map fun leaf : LeafNode => leaf) = mended by cases mended <;> rfl] at mapped
  exact congrArg (fun node => (Except.ok node, s')) mapped.symm

theorem fixUnderflow_internal {parent parent' : InternalNode (InternalNode (Tree h))} {idx : Nat}
    (fixed : Tree.fixUnderflow (h + 1) parent idx = some parent')
    (held : ∀ child ∈ parent.children, Held s.pages (h + 1) child)
    (nodup : (parent.children.flatMap (pageIds (h + 1))).Nodup) :
    ∃ s', Fixes (h := h + 1) parent parent' idx s s' := by
  simp only [Tree.fixUnderflow, Option.bind_eq_bind, Option.bind_eq_some_iff, Option.pure_def,
    Option.some.injEq] at fixed
  obtain ⟨⟨pos, mended⟩, found, rfl⟩ := fixed
  obtain ⟨before, left, right, after, separator, childIsRight, children_eq, rfl, side, -, mends⟩ :=
    fixInternal_window found
  have keeps := mends.keepsPages
  have pair : (pageIds (h + 1) left ++ pageIds (h + 1) right).Nodup := by
    refine List.Nodup.sublist ?_ nodup
    simp only [children_eq, List.flatMap_append, List.flatMap_cons]
    exact ((List.Sublist.refl _).append (List.sublist_append_left _ _)).trans
      (List.sublist_append_right _ _)
  obtain ⟨s', stored, allocated, root, framed, written⟩ :=
    storeMended_exec Node.internal InternalNode.pageId (mended.map (InternalNode.map (pageId h))) s
  have nodes_eq : (mended.map (InternalNode.map (pageId h))).nodes =
      mended.nodes.map (InternalNode.map (pageId h)) := by cases mended <;> rfl
  have own_eq : (mended.map (InternalNode.map (pageId h))).nodes.map InternalNode.pageId =
      mended.nodes.map (pageId (h + 1)) := by
    rw [nodes_eq, List.map_map]
    rfl
  rw [own_eq] at framed written
  have ownSubset := keeps.own_subset
  have ownFrame : ∀ page ∉ [pageId (h + 1) left, pageId (h + 1) right], s'.pages page = s.pages page :=
    fun page outside => framed page fun own => outside (ownSubset.subset own)
  -- a grandchild lies on neither neighbour's own page
  have nodesHeld : ∀ node ∈ mended.nodes, Held s'.pages (h + 1) node := by
    intro node isNode
    have different : pageId (h + 1) left ≠ pageId (h + 1) right := fun same =>
      (List.nodup_append.mp pair).2.2 _ (pageId_mem ..) _ (pageId_mem ..) same
    refine ⟨?_, fun child member => ?_⟩
    · have isMapped : node.map (pageId h) ∈ (mended.map (InternalNode.map (pageId h))).nodes := by
        rw [nodes_eq]
        exact List.mem_map_of_mem isNode
      exact written (ownSubset.nodup (by simpa using different)) _ isMapped
    · simp only [pageIds, List.cons_append, List.nodup_cons, List.mem_append, List.mem_cons, not_or,
        List.nodup_append] at pair
      obtain ⟨⟨leftOff, -, leftOff'⟩, -, ⟨rightOff, -⟩, across⟩ := pair
      rcases mends.children isNode member with inLeft | inRight
      · refine ((held left (by simp [children_eq])).2 child inLeft).congr fun page inside =>
          ownFrame page fun own => ?_
        have here := List.mem_flatMap.mpr ⟨child, inLeft, inside⟩
        simp only [pageId, List.mem_cons, List.not_mem_nil, or_false] at own
        rcases own with rfl | rfl
        · exact leftOff here
        · exact across _ here _ (.inl rfl) rfl
      · refine ((held right (by simp [children_eq])).2 child inRight).congr fun page inside =>
          ownFrame page fun own => ?_
        have here := List.mem_flatMap.mpr ⟨child, inRight, inside⟩
        simp only [pageId, List.mem_cons, List.not_mem_nil, or_false] at own
        rcases own with rfl | rfl
        · exact leftOff' here
        · exact rightOff here
  obtain ⟨here, frame⟩ := held_after_mending s' children_eq nodup held nodesHeld ownFrame
  refine ⟨s', ?_, allocated, root, here, frame⟩
  have readable : ∀ node ∈ parent.children, s.readInternal node.pageId = some (node.map (pageId h)) := by
    intro node member
    rw [readInternal, (held node member).1]
  obtain ⟨child, isChild, member⟩ : ∃ child, parent.children[idx]? = some child ∧ child ∈ parent.children := by
    cases childIsRight
    · exact ⟨left, by simp [children_eq, side], by simp [children_eq]⟩
    · exact ⟨right, by simp [children_eq, side], by simp [children_eq]⟩
  have atIdx : (parent.map InternalNode.pageId).children[idx]? = some child.pageId := by
    simp [InternalNode.map, isChild]
  rw [show pageId (h + 1) = InternalNode.pageId from rfl, fixUnderflow, atIdx,
    exec_bind_ok (orUndefined_exec ..), exec_bind_ok (exec_get s),
    exec_bind_ok (fetchPage_exec (held child member).1)]
  simp only [fixInternal_read idx readable, found, Option.map_some]
  rw [exec_bind_ok (orUndefined_exec ..)]
  dsimp only [Prod.map]
  rw [exec_bind_ok stored, exec_pure]
  exact congrArg (fun node => (Except.ok node, s')) (install_map children_eq keeps _).symm

theorem fixUnderflow_exec {parent parent' : InternalNode (Tree h)} {idx : Nat}
    (fixed : Tree.fixUnderflow h parent idx = some parent')
    (held : ∀ child ∈ parent.children, Held s.pages h child)
    (nodup : (parent.children.flatMap (pageIds h)).Nodup) : ∃ s', Fixes parent parent' idx s s' := by
  cases h with
  | zero => exact fixUnderflow_leaf fixed held nodup
  | succ h => exact fixUnderflow_internal fixed held nodup

-- DeleteRecursive on the pages of `tree` comes to `s'` and does there what `result` says.
structure Deletes (key : Int) (rid : RID) (fuel : Nat) (tree : Tree h) (isRoot : Bool)
    (result : Option (Tree h × Bool)) (s s' : BPlusTree) : Prop where
  done : (deleteRecursive key rid fuel (pageId h tree) isRoot).exec s =
    (.ok ⟨result.isSome, (result.map Prod.snd).getD false⟩, s')
  unchanged : result = none → s' = s
  allocated : s'.allocated = s.allocated
  root : s'.rootPageId = s.rootPageId
  held : ∀ tree' underflow, result = some (tree', underflow) → Held s'.pages h tree'
  framed : ∀ pageId ∉ pageIds h tree, s'.pages pageId = s.pages pageId

theorem deleteRecursive_leaf {leaf : LeafNode} {isRoot : Bool} {result : Option (Tree 0 × Bool)}
    (stored : s.pages leaf.pageId = some (.leaf leaf))
    (deleted : Tree.delete key rid 0 leaf isRoot = some result) :
    ∃ s', Deletes (h := 0) key rid (fuel + 1) leaf isRoot result s s' := by
  have enter : (deleteRecursive key rid (fuel + 1) (pageId 0 leaf) isRoot).exec s =
      (leaf.position key rid).elim (.ok ⟨false, false⟩, s) fun pos =>
        (.ok ⟨true, !isRoot && (leaf.erase pos).keys.length < kLeafMinKeys⟩,
          s.writePage leaf.pageId (.leaf (leaf.erase pos))) := by
    rw [show pageId 0 leaf = leaf.pageId from rfl, deleteRecursive, exec_bind_ok (fetchPage_exec stored)]
    dsimp only
    cases leaf.position key rid <;> rfl
  rcases delete_leaf deleted with ⟨absent, rfl⟩ | ⟨pos, found, rfl⟩
  · rw [absent] at enter
    exact ⟨s, enter, fun _ => rfl, rfl, rfl, fun _ _ isSome => absurd isSome (by simp), fun _ _ => rfl⟩
  · rw [found] at enter
    refine ⟨_, enter, fun isNone => absurd isNone (by simp), rfl, rfl, fun tree' underflow isSome => ?_,
      fun page outside => ?_⟩
    · cases isSome
      simp [Held, LeafNode.erase]
    · simp only [pageIds, List.mem_singleton] at outside
      simp [outside]

theorem replaced_held {node : InternalNode (Tree h)} {before after : List (Tree h)} {child child' : Tree h}
    {s₁ : BPlusTree} (children_eq : node.children = before ++ child :: after)
    (nodup : (node.children.flatMap (pageIds h)).Nodup) (held : ∀ other ∈ node.children, Held s.pages h other)
    (framed : ∀ page ∉ pageIds h child, s₁.pages page = s.pages page) (childHeld : Held s₁.pages h child') :
    ∀ other ∈ (replaced node before after child').children, Held s₁.pages h other := by
  simp only [children_eq, List.flatMap_append, List.flatMap_cons, List.nodup_append, List.mem_append] at nodup
  obtain ⟨-, ⟨-, -, childAfter⟩, beforeRest⟩ := nodup
  intro other member
  simp only [replaced, List.mem_append, List.mem_cons] at member
  rcases member with inBefore | rfl | inAfter
  · refine (held other (by simp [children_eq, inBefore])).congr fun page inside => framed page ?_
    exact fun inChild => beforeRest _ (List.mem_flatMap.mpr ⟨other, inBefore, inside⟩) _ (.inl inChild) rfl
  · exact childHeld
  · refine (held other (by simp [children_eq, inAfter])).congr fun page inside => framed page ?_
    exact fun inChild => childAfter _ inChild _ (List.mem_flatMap.mpr ⟨other, inAfter, inside⟩) rfl

theorem deleteRecursive_internal {node : InternalNode (Tree h)} {isRoot : Bool}
    {result : Option (Tree (h + 1) × Bool)} (held : Held s.pages (h + 1) node)
    (nodup : (pageIds (h + 1) node).Nodup)
    (deleted : Tree.delete key rid (h + 1) node isRoot = some result)
    (descends : ∀ child ∈ node.children, ∀ childResult, (pageIds h child).Nodup →
      Tree.delete key rid h child false = some childResult →
      ∃ s₁, Deletes key rid fuel child false childResult s s₁) :
    ∃ s', Deletes (h := h + 1) key rid (fuel + 1) node isRoot result s s' := by
  obtain ⟨before, child, after, childResult, children_eq, position, childDeleted, outcome⟩ :=
    delete_internal deleted
  obtain ⟨ownPage, childrenNodup⟩ := List.nodup_cons.mp nodup
  have inNode : ∀ page ∈ pageIds h child, page ∈ node.children.flatMap (pageIds h) := fun page inside =>
    List.mem_flatMap.mpr ⟨child, by simp [children_eq], inside⟩
  have split := childrenNodup
  simp only [children_eq, List.flatMap_append, List.flatMap_cons, List.nodup_append, List.mem_append]
    at split
  obtain ⟨-, ⟨childNodup, -⟩, -⟩ := split
  obtain ⟨s₁, childDone, unchanged₁, allocated₁, root₁, childHeld, framed₁⟩ :=
    descends child (by simp [children_eq]) _ childNodup childDeleted
  have atChild : (node.map (pageId h)).children[upperBound node.keys key]? = some (pageId h child) := by
    rw [← position]
    simp [InternalNode.map, children_eq]
  have enter : (deleteRecursive key rid (fuel + 1) (pageId (h + 1) node) isRoot).exec s =
      childResult.elim (.ok ⟨false, false⟩, s₁) fun result =>
        (finishDelete node.pageId isRoot (node.map (pageId h)) (upperBound node.keys key) result.2).exec s₁ := by
    rw [show pageId (h + 1) node = node.pageId from rfl, deleteRecursive,
      exec_bind_ok (fetchPage_exec held.1)]
    simp only [InternalNode.map] at atChild ⊢
    rw [atChild, exec_bind_ok (orUndefined_exec ..), exec_bind_ok childDone]
    rcases childResult with _ | ⟨child', underflow⟩ <;> rfl
  rcases outcome with ⟨rfl, rfl⟩ | ⟨child', underflow, node', rfl, fixed, rfl⟩
  · cases unchanged₁ rfl
    exact ⟨s, enter, fun _ => rfl, rfl, rfl, fun _ _ isSome => absurd isSome (by simp), fun _ _ => rfl⟩
  · obtain ⟨samePage, fewer⟩ := delete_pageIds childDeleted
    have isReplaced : (replaced node before after child').map (pageId h) = node.map (pageId h) := by
      simp [InternalNode.map, replaced, children_eq, samePage]
    have held₁ := replaced_held children_eq childrenNodup held.2 framed₁ (childHeld _ _ rfl)
    have fewer₁ : ((replaced node before after child').children.flatMap (pageIds h)).Subperm
        (node.children.flatMap (pageIds h)) := by
      simp only [replaced, children_eq, List.flatMap_append, List.flatMap_cons]
      exact List.Subperm.append (List.Subperm.refl _) (List.Subperm.append fewer (List.Subperm.refl _))
    have nodup₁ : ((replaced node before after child').children.flatMap (pageIds h)).Nodup := by
      obtain ⟨same, isPerm, isSublist⟩ := fewer₁
      exact isPerm.nodup (isSublist.nodup childrenNodup)
    -- and after the repair, if there was one
    obtain ⟨s₂, repaired, allocated₂, root₂, held₂, framed₂, samePage₂, fewer₂⟩ : ∃ s₂,
        (finishDelete.repair before.length underflow (node.map (pageId h))).exec s₁ =
          (.ok (node'.map (pageId h)), s₂) ∧ s₂.allocated = s₁.allocated ∧ s₂.rootPageId = s₁.rootPageId ∧
        (∀ other ∈ node'.children, Held s₂.pages h other) ∧
        (∀ page ∉ node.children.flatMap (pageIds h), s₂.pages page = s₁.pages page) ∧
        node'.pageId = node.pageId ∧
        (node'.children.flatMap (pageIds h)).Subperm (node.children.flatMap (pageIds h)) := by
      cases underflow with
      | false =>
        simp only [Bool.false_eq_true, if_false] at fixed
        subst fixed
        exact ⟨s₁, by rw [isReplaced]; rfl, rfl, rfl, held₁, fun _ _ => rfl, rfl, fewer₁⟩
      | true =>
        simp only [if_true] at fixed
        obtain ⟨samePage₂, fewer₂⟩ := fixUnderflow_pageIds fixed
        obtain ⟨s₂, done, allocated₂, root₂, held₂, framed₂⟩ := fixUnderflow_exec fixed held₁ nodup₁
        rw [isReplaced] at done
        exact ⟨s₂, done, allocated₂, root₂, held₂,
          fun page outside => framed₂ page fun inside => outside (fewer₁.subset inside), samePage₂,
          fewer₂.trans fewer₁⟩
    refine ⟨s₂.writePage node.pageId (.internal (node'.map (pageId h))), enter.trans ?_,
      fun isNone => absurd isNone (by simp), allocated₂.trans allocated₁, root₂.trans root₁,
      fun tree' flag isSome => ?_, fun page outside => ?_⟩
    · rw [Option.elim_some, ← position, finishDelete, exec_bind_ok repaired, exec_bind_ok (storePage_exec ..)]
      rfl
    · cases isSome
      refine ⟨by rw [samePage₂]; simp, fun other member => (held₂ other member).congr fun page inside => ?_⟩
      have elsewhere : page ≠ node.pageId := fun same =>
        ownPage (same ▸ fewer₂.subset (List.mem_flatMap.mpr ⟨other, member, inside⟩))
      simp [elsewhere]
    · simp only [pageIds, List.mem_cons, not_or] at outside
      rw [writePage_pages, if_neg outside.1, framed₂ page outside.2,
        framed₁ page fun inside => outside.2 (inNode page inside)]

theorem deleteRecursive_exec {tree : Tree h} {isRoot : Bool} {result : Option (Tree h × Bool)}
    (held : Held s.pages h tree) (nodup : (pageIds h tree).Nodup) (deep : h < fuel)
    (deleted : Tree.delete key rid h tree isRoot = some result) :
    ∃ s', Deletes key rid fuel tree isRoot result s s' := by
  induction h generalizing fuel isRoot with
  | zero =>
    obtain ⟨fuel, rfl⟩ : ∃ rest, fuel = rest + 1 := ⟨fuel - 1, by omega⟩
    exact deleteRecursive_leaf held deleted
  | succ h ih =>
    obtain ⟨fuel, rfl⟩ : ∃ rest, fuel = rest + 1 := ⟨fuel - 1, by omega⟩
    exact deleteRecursive_internal held nodup deleted fun child member childResult childNodup childDeleted =>
      ih (held.2 child member) childNodup (by omega) childDeleted

end BPlusTree

end FlintDB
