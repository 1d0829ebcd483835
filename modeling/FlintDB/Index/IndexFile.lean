import FlintDB.Index.Multimap
import FlintDB.Index.NodeCodec
import FlintDB.Index.TreeBounds

set_option autoImplicit false

-- A page that the file was extended by is all zero until it is written. Search takes such a page for an internal
-- node, and so it does with the header page where it comes to that.

namespace FlintDB

open Lib FlintDB.Tree Fallible

structure IndexFile where
  numPages : Nat := 0
  -- the root page id in the header page, if that has been written
  header : Option Nat := none
  -- what has been written to the pages behind it
  nodes : Nat → Option Node := fun _ => none

-- What AllocatePage and WritePage do to the file.
inductive IndexFileOp
  | extend
  | writeHeader (rootPageId : Nat)
  -- a page of the pool that is still all zero has no node
  | writeNode (pageId : Nat) (node : Option Node)

def headerNode (rootPageId : Nat) : Node := .internal { pageId := 0, keys := [], children := [rootPageId] }

namespace IndexFile

def apply (file : IndexFile) : IndexFileOp → IndexFile
  | .extend => { file with numPages := file.numPages + 1 }
  | .writeHeader rootPageId => { file with header := some rootPageId }
  | .writeNode pageId node => { file with nodes := Function.update file.nodes pageId node }

def rootPageId (file : IndexFile) : Nat := file.header.getD 0

def readPage (file : IndexFile) (pageId : Nat) : Node :=
  if pageId = 0 then headerNode file.rootPageId else (file.nodes pageId).getD BPlusTree.zeroNode

-- DiskManager and BPlusTree on top of the file. Only a file without pages gets a header page.
def attachStorage (file : IndexFile) : BPlusTree :=
  if file.numPages = 0 then {}
  else
    { pages := fun pageId => if pageId < file.numPages then some (file.readPage pageId) else none
      rootPageId := file.rootPageId
      allocated := file.numPages }

end IndexFile

/-- The file once every page of the tree has been written. -/
def BPlusTree.file (tree : BPlusTree) : IndexFile where
  numPages := tree.allocated
  header := some tree.rootPageId
  nodes := tree.pages

namespace RawNode

theorem deserializeInternal_bare {buffer : Buffer} (bare : keyCount buffer = 0) :
    (deserializeInternal buffer).result = .ok
      { pageId := uintAt buffer kOffPageId 4, keys := [], children := [uintAt buffer kBTreeHeaderSize 4] } := by
  simp only [deserializeInternal, Peek.bind_eq]
  rw [Peek.result_bind_of_ok (peekAt_result ..), Peek.result_bind_of_ok (peekAt_result ..),
    Peek.result_bind_of_ok (peekAt_result ..), show uintAt buffer kOffKeyCount 2 = 0 from bare]
  rfl

theorem uintAt_zero (offset width : Nat) : uintAt (fun _ => 0) offset width = 0 := by
  rw [uintAt, bytesAt, List.map_const', List.length_range]
  induction width with
  | zero => rfl
  | succ width ih =>
    rw [List.replicate_succ, leDecode, ih]
    rfl

theorem zeroPage_reads : pageType (fun _ => 0) ≠ kBTreeLeaf ∧
    (deserializeInternal fun _ => 0).result.map Node.internal = .ok BPlusTree.zeroNode := by
  refine ⟨by rw [pageType, uintAt_zero]; decide, ?_⟩
  rw [deserializeInternal_bare (uintAt_zero ..), uintAt_zero, uintAt_zero]
  rfl

theorem uintAt_clearPage (buffer : Buffer) {offset width : Nat} (inside : offset + width ≤ pageSize) :
    uintAt (Poke.apply buffer clearPage) offset width = 0 := by
  rw [← uintAt_zero offset width]
  refine uintAt_congr fun i low high => ?_
  have cleared : (List.replicate pageSize (0 : UInt8))[i]? = some 0 :=
    List.getElem?_replicate_of_lt (by omega)
  rw [← Nat.zero_add i]
  exact Poke.apply_inside 0 cleared

theorem headerPage_reads {rootPageId : Nat} (typed : rootPageId < 2 ^ 32) (buffer : Buffer) :
    pageType (Poke.applyAll buffer (serializeHeader rootPageId)) ≠ kBTreeLeaf ∧
      (deserializeInternal (Poke.applyAll buffer (serializeHeader rootPageId))).result.map Node.internal =
        .ok (headerNode rootPageId) := by
  refine ⟨by rw [(header_roundTrip typed).tagged buffer]; decide, ?_⟩
  simp only [serializeHeader, Poke.applyAll_cons, Poke.applyAll_nil]
  generalize written : Poke.apply _ (writeAt kOffHeaderRootPageId 4 rootPageId) = last
  have bare : keyCount last = 0 := by
    rw [← written, keyCount, uintAt_writeAt_outside (.inl (by decide)), uintAt_writeAt_outside (.inr (by decide)),
      uintAt_writeAt_outside (.inr (by decide)), uintAt_clearPage buffer (by decide)]
  have pageId : uintAt last kOffPageId 4 = kRootHeaderPageId := by
    rw [← written, uintAt_writeAt_outside (.inl (by decide)), uintAt_writeAt_outside (.inl (by decide)),
      uintAt_writeAt (by decide)]
  have child : uintAt last kBTreeHeaderSize 4 = rootPageId := by
    rw [← written]
    exact uintAt_writeAt typed
  rw [deserializeInternal_bare bare, pageId, child]
  rfl

end RawNode

theorem exists_inRange {low high : Option Int} (open_range : OpenRange low high) : ∃ key, InRange low high key := by
  cases low with
  | some low => exact ⟨low, by simp, fun bound isHigh => open_range low rfl bound isHigh⟩
  | none =>
    cases high with
    | some high => exact ⟨high - 1, by simp, by simp⟩
    | none => exact ⟨0, BPlusTree.inRange_none 0⟩

namespace Tree

def path (key : Int) : (h : Nat) → Tree h → List Nat
  | 0, (leaf : LeafNode) => [leaf.pageId]
  | h + 1, (node : InternalNode (Tree h)) =>
    node.pageId :: node.children[upperBound node.keys key]?.toList.flatMap (path key h)

theorem exists_path {leafLeast innerLeast h : Nat} {low high : Option Int} {tree : Tree h}
    (fits : WellFormed leafLeast innerLeast h low high tree) {page : Nat} (inTree : page ∈ pageIds h tree) :
    ∃ key, InRange low high key ∧ page ∈ path key h tree := by
  induction h generalizing leafLeast innerLeast low high with
  | zero =>
    obtain ⟨key, inRange⟩ := exists_inRange fits.openRange
    exact ⟨key, inRange, inTree⟩
  | succ h ih =>
    rcases List.mem_cons.mp inTree with rfl | below
    · obtain ⟨key, inRange⟩ := exists_inRange fits.openRange
      exact ⟨key, inRange, List.mem_cons_self⟩
    · obtain ⟨child, isChild, inside⟩ := List.mem_flatMap.mp below
      obtain ⟨before, after, children_eq⟩ := List.append_of_mem isChild
      obtain ⟨l, hi, childFits, reaches⟩ := fits.2.2.reach (filled_room h) children_eq
      obtain ⟨key, inRange, onPath⟩ := ih childFits inside
      obtain ⟨inNode, position⟩ := reaches key inRange
      have atChild : tree.children[upperBound tree.keys key]? = some child := by simp [position, children_eq]
      refine ⟨key, inNode, List.mem_cons_of_mem _ ?_⟩
      rw [atChild]
      simpa using onPath

theorem Held.exists_node {pages : Nat → Option Node} {h : Nat} {tree : Tree h} (held : Held pages h tree) {page : Nat}
    (inTree : page ∈ pageIds h tree) : ∃ node, pages page = some node := by
  induction h with
  | zero =>
    obtain rfl := List.mem_singleton.mp inTree
    exact ⟨_, held⟩
  | succ h ih =>
    rcases List.mem_cons.mp inTree with rfl | below
    · exact ⟨_, held.1⟩
    · obtain ⟨child, isChild, inside⟩ := List.mem_flatMap.mp below
      exact ih (held.2 child isChild) inside

end Tree

namespace IndexFile

variable {file : IndexFile} {s : BPlusTree} {h : Nat}

/-- Every page of the tree has been written. -/
structure Stores (file : IndexFile) (s : BPlusTree) : Prop where
  numPages : file.numPages = s.allocated
  header : file.header = some s.rootPageId
  nodes : ∀ page, 0 < page → page < s.allocated → file.nodes page = s.pages page

theorem stores_file (s : BPlusTree) : s.file.Stores s := ⟨rfl, rfl, fun _ _ _ => rfl⟩

theorem attachStorage_of_pos (some : 0 < file.numPages) : file.attachStorage =
    { pages := fun pageId => if pageId < file.numPages then Option.some (file.readPage pageId) else none
      rootPageId := file.rootPageId
      allocated := file.numPages } :=
  if_neg (by omega)

theorem Stores.represents {stored : List (Int × RID)} (stores : file.Stores s) (represents : s.Represents stored) :
    file.attachStorage.Represents stored := by
  have header := represents.header
  rw [attachStorage_of_pos (by rw [stores.numPages]; exact header)]
  have root : file.rootPageId = s.rootPageId := by rw [rootPageId, stores.header, Option.getD_some]
  refine ⟨by simp only [stores.numPages]; exact header, by simp only [stores.numPages]; exact represents.room, ?_⟩
  rcases represents.shape with ⟨empty, rfl⟩ | ⟨h, tree, shape, perm⟩
  · exact .inl ⟨root.trans empty, rfl⟩
  · refine .inr ⟨h, tree, ⟨root.trans shape.root, shape.held.congr fun page inTree => ?_, shape.nodup, fun page inTree => ?_,
      shape.fits, shape.linked⟩, perm⟩
    · obtain ⟨positive, within⟩ := shape.inFile page inTree
      obtain ⟨node, present⟩ := shape.held.exists_node inTree
      simp [stores.numPages, within, readPage, Nat.pos_iff_ne_zero.mp positive, stores.nodes page positive within, present]
    · simpa only [stores.numPages] using shape.inFile page inTree

structure Partial (file : IndexFile) (s : BPlusTree) : Prop where
  numPages : file.numPages = s.allocated
  header : file.header = some s.rootPageId
  nodes : ∀ page, file.nodes page = s.pages page ∨ file.nodes page = none

theorem attachStorage_pages (file : IndexFile) {page : Nat} (within : page < file.numPages) :
    file.attachStorage.pages page = some (file.readPage page) := by
  rw [attachStorage_of_pos (by omega)]
  exact if_pos within

theorem descend_header (file : IndexFile) (some : 0 < file.numPages) (key : Int) (steps : Nat) :
    file.attachStorage.descend key (steps + 1) 0 = file.attachStorage.descend key steps file.rootPageId := by
  rw [BPlusTree.descend, file.attachStorage_pages some]
  rfl

theorem descend_unwritten {page : Nat} (within : page < file.numPages) (positive : 0 < page)
    (unwritten : file.nodes page = none) (key : Int) (steps : Nat) :
    file.attachStorage.descend key (steps + 1) page = file.attachStorage.descend key steps 0 := by
  rw [BPlusTree.descend, file.attachStorage_pages within, readPage, if_neg (by omega), unwritten]
  rfl

theorem descend_lost (part : file.Partial s) {tree : Tree h} (held : Held s.pages h tree)
    (inFile : ∀ page ∈ pageIds h tree, 0 < page ∧ page < s.allocated) {lost : Nat} (unwritten : file.nodes lost = none)
    {key : Int} (onPath : lost ∈ path key h tree) {steps : Nat}
    (again : ∀ fewer < steps, file.attachStorage.descend key fewer 0 = .error .traversalStepsExceeded) :
    file.attachStorage.descend key steps (pageId h tree) = .error .traversalStepsExceeded := by
  induction h generalizing steps with
  | zero =>
    obtain rfl : lost = pageId 0 tree := List.mem_singleton.mp onPath
    obtain ⟨positive, within⟩ := inFile _ (pageId_mem 0 tree)
    cases steps with
    | zero => rfl
    | succ steps =>
      rw [descend_unwritten (part.numPages ▸ within) positive unwritten]
      exact again steps (Nat.lt_succ_self _)
  | succ h ih =>
    obtain ⟨positive, within⟩ := inFile _ (pageId_mem (h + 1) tree)
    cases steps with
    | zero => rfl
    | succ steps =>
      have onward : ∀ fewer < steps, file.attachStorage.descend key fewer 0 = .error .traversalStepsExceeded :=
        fun fewer less => again fewer (Nat.lt_succ_of_lt less)
      rcases part.nodes (pageId (h + 1) tree) with written | never
      · have stored : s.pages (pageId (h + 1) tree) = some (.internal (tree.map (pageId h))) := held.1
        have below : lost ∈ tree.children[upperBound tree.keys key]?.toList.flatMap (path key h) := by
          refine (List.mem_cons.mp onPath).resolve_left fun isTop => ?_
          have isTop : lost = pageId (h + 1) tree := isTop
          rw [isTop, written, stored] at unwritten
          cases unwritten
        obtain ⟨child, atChild, inside⟩ := List.mem_flatMap.mp below
        rw [Option.mem_toList] at atChild
        have isChild := List.mem_of_getElem? atChild
        have next := ih (held.2 child isChild)
          (fun page inTree => inFile page (List.mem_cons_of_mem _ (List.mem_flatMap.mpr ⟨child, isChild, inTree⟩)))
          inside onward
        rw [BPlusTree.descend, file.attachStorage_pages (part.numPages ▸ within), readPage, if_neg (by omega), written,
          stored]
        have atPage : (tree.map (pageId h)).children[upperBound (tree.map (pageId h)).keys key]? =
            some (pageId h child) := by
          simp only [InternalNode.map, List.getElem?_map, atChild, Option.map_some]
        simp only [Option.getD_some, atPage, next]
      · rw [descend_unwritten (part.numPages ▸ within) positive never]
        exact again steps (Nat.lt_succ_self _)

theorem descend_again (part : file.Partial s) {tree : Tree h} (shape : s.Shape tree) {lost : Nat}
    (unwritten : file.nodes lost = none) {key : Int} (onPath : lost ∈ path key h tree) (steps : Nat) :
    file.attachStorage.descend key steps 0 = .error .traversalStepsExceeded := by
  induction steps using Nat.strong_induction_on with
  | _ steps ih =>
    cases steps with
    | zero => rfl
    | succ steps =>
      have positive := (shape.inFile _ (pageId_mem h tree)).2
      rw [descend_header file (by rw [part.numPages]; omega), rootPageId, part.header, Option.getD_some, shape.root]
      exact descend_lost part shape.held shape.inFile unwritten onPath fun fewer less => ih fewer (Nat.lt_succ_of_lt less)

theorem search_lost (part : file.Partial s) {tree : Tree h} (shape : s.Shape tree) (room : s.allocated < invalidPageId)
    {lost : Nat} (inTree : lost ∈ pageIds h tree) (unwritten : file.nodes lost = none) :
    ∃ key, file.attachStorage.search key = .error .traversalStepsExceeded := by
  obtain ⟨key, -, onPath⟩ := exists_path shape.fits inTree
  have root : file.attachStorage.rootPageId = s.rootPageId := by
    have positive := (shape.inFile _ inTree).2
    rw [attachStorage_of_pos (by rw [part.numPages]; omega)]
    show file.rootPageId = s.rootPageId
    rw [rootPageId, part.header, Option.getD_some]
  refine ⟨key, ?_⟩
  rw [BPlusTree.search, root, if_neg (shape.root_ne room), shape.root,
    descend_lost part shape.held shape.inFile unwritten onPath fun fewer _ => descend_again part shape unwritten onPath fewer]
  rfl

end IndexFile

namespace BPlusTree

variable {s : BPlusTree} {key : Int} {rid : RID}

structure Dense (s : BPlusTree) (stored : List (Int × RID)) : Prop where
  header : 0 < s.allocated
  room : s.allocated < invalidPageId
  shape : (s.rootPageId = invalidPageId ∧ stored = [] ∧ s.allocated = 1) ∨
    ∃ (h : Nat) (tree : Tree h), s.Shape tree ∧ (entries tree).Perm stored ∧ (pageIds h tree).length + 1 = s.allocated

theorem dense_empty : ({} : BPlusTree).Dense [] := ⟨by decide, by decide, .inl ⟨rfl, rfl, rfl⟩⟩

theorem Dense.represents {stored : List (Int × RID)} (dense : s.Dense stored) : s.Represents stored := by
  refine ⟨dense.header, dense.room, ?_⟩
  rcases dense.shape with ⟨empty, nothing, -⟩ | ⟨h, tree, shape, perm, -⟩
  · exact .inl ⟨empty, nothing⟩
  · exact .inr ⟨h, tree, shape, perm⟩

theorem Dense.insert {stored : List (Int × RID)} (dense : s.Dense stored) (rid : RID)
    (few : (stored.map Prod.fst).count key < kLeafMaxKeys) :
    ∃ s', (insert key rid).exec s = (.ok (), s') ∧
      (s'.allocated < invalidPageId → s'.Dense (stored ++ [(key, rid)])) := by
  have header := dense.header
  rcases dense.shape with ⟨empty, rfl, fresh⟩ | ⟨h, tree, shape, perm, whole⟩
  · obtain ⟨s', leaf, done, allocated, entries_eq, skeleton⟩ := insert_empty key rid header empty
    refine ⟨s', done, fun room => ⟨by omega, room, .inr ⟨0, leaf, (skeleton room).shape ?_, ?_, ?_⟩⟩⟩
    · exact leafFits_single entries_eq
    · rw [entries_leaf, entries_eq]
      exact .refl _
    · rw [allocated, fresh]
      rfl
  · rw [← (perm.map Prod.fst).count_eq] at few
    obtain ⟨s', done, bounds, after⟩ := shape.insert dense.room rid few
    refine ⟨s', done, fun room => ⟨by omega, room, .inr ?_⟩⟩
    obtain ⟨h', tree', shape', stores, grown⟩ := after room
    refine ⟨h', tree', shape', stores.trans ((perm.cons (key, rid)).trans ?_), by omega⟩
    exact (List.perm_append_singleton _ _).symm

theorem Dense.mem_pageIds {h : Nat} {tree : Tree h} (shape : s.Shape tree)
    (whole : (pageIds h tree).length + 1 = s.allocated) {page : Nat} (positive : 0 < page) (within : page < s.allocated) :
    page ∈ pageIds h tree := by
  have inRange : pageIds h tree ⊆ List.range' 1 (s.allocated - 1) := fun page inTree => by
    have bounds := shape.inFile page inTree
    exact List.mem_range'_1.mpr ⟨bounds.1, by omega⟩
  have all := (shape.nodup.subperm inRange).perm_of_length_le (by rw [List.length_range']; omega)
  exact all.mem_iff.mpr (List.mem_range'_1.mpr ⟨positive, by omega⟩)

def insertAll (entries : List (Int × RID)) : BTreeM Unit := entries.forM fun entry => insert entry.1 entry.2

theorem insertAll_fits (entries : List (Int × RID)) : Keeps LeavesFit (insertAll entries) :=
  Meets.forM (fun _ => LeavesFit) fun _ entry _ _ => insert_fits entry.1 entry.2

theorem insertAll_keeps {n : Nat} (entries : List (Int × RID)) : Keeps (AtLeast n) (insertAll entries) :=
  Meets.forM (fun _ => AtLeast n) fun _ entry _ _ => insert_keeps entry.1 entry.2

theorem insertAll_dense {entries : List (Int × RID)} (few : ∀ key, (entries.map Prod.fst).count key ≤ kLeafMaxKeys) :
    Meets (· = ({} : BPlusTree)) (insertAll entries) (fun _ s => s.allocated < invalidPageId → s.Dense entries)
      fun s => ¬ s.allocated < invalidPageId := by
  let reached (done : List (Int × RID)) (s : BPlusTree) : Prop := s.allocated < invalidPageId → s.Dense done
  have looped : Meets (reached []) (insertAll entries) (fun _ => reached entries) fun s => ¬ s.allocated < invalidPageId := by
    refine Meets.forM reached fun done entry rest split s dense => ?_
    have fewer : (done.map Prod.fst).count entry.1 < kLeafMaxKeys := by
      have atMost := few entry.1
      simp only [split, List.map_append, List.map_cons, List.count_append, List.count_cons_self] at atMost
      omega
    have grown := insert_keeps entry.1 entry.2 s (Nat.le_refl s.allocated)
    by_cases room : s.allocated < invalidPageId
    · obtain ⟨s', inserted, after⟩ := (dense room).insert entry.2 fewer
      rw [inserted]
      exact after
    · revert grown
      rcases (BPlusTree.insert entry.1 entry.2).exec s with ⟨outcome, s'⟩
      cases outcome with
      | ok _ => exact fun grown below => absurd (Nat.lt_of_le_of_lt grown below) room
      | error e => exact fun grown below => absurd (Nat.lt_of_le_of_lt grown below) room
  exact looped.of_pre fun s isEmpty _ => isEmpty ▸ dense_empty

end BPlusTree

-- WritePage of a page of the pool.
def BPlusTree.flushOp (tree : BPlusTree) (pageId : Nat) : IndexFileOp :=
  if pageId = 0 then .writeHeader tree.rootPageId else .writeNode pageId (tree.pages pageId)

/-- The first Insert marks the header page; any other page is marked when it is allocated. -/
def BPlusTree.dirtyPages (tree : BPlusTree) : List Nat := if tree.allocated = 1 then [] else List.range tree.allocated

namespace IndexFile

def constructorOps : List IndexFileOp := [.extend, .writeHeader invalidPageId]

-- The constructor, the pages that the insertions allocate, and what FlushAll writes.
def buildOps (tree : BPlusTree) (flushed : List Nat) : List IndexFileOp :=
  constructorOps ++ (List.replicate (tree.allocated - 1) .extend ++ flushed.map tree.flushOp)

def built (performed : List IndexFileOp) : IndexFile := performed.foldl apply {}

theorem foldl_extend (file : IndexFile) (n : Nat) :
    (List.replicate n IndexFileOp.extend).foldl apply file = { file with numPages := file.numPages + n } := by
  induction n generalizing file with
  | zero => rfl
  | succ n ih =>
    rw [List.replicate_succ, List.foldl_cons, ih]
    simp only [apply, Nat.add_assoc, Nat.add_comm 1 n]

theorem foldl_flush (tree : BPlusTree) (flushed : List Nat) (file : IndexFile) :
    (flushed.map tree.flushOp).foldl apply file =
      { numPages := file.numPages
        header := if 0 ∈ flushed then some tree.rootPageId else file.header
        nodes := fun page => if page ≠ 0 ∧ page ∈ flushed then tree.pages page else file.nodes page } := by
  induction flushed generalizing file with
  | nil => simp
  | cons first flushed ih =>
    rw [List.map_cons, List.foldl_cons, ih]
    by_cases header : first = 0
    · subst header
      simp only [BPlusTree.flushOp, if_true, apply, List.mem_cons, true_or, mk.injEq, true_and]
      refine ⟨by simp, funext fun page => ?_⟩
      by_cases zero : page = 0 <;> simp [zero]
    · have other : 0 ≠ first := fun same => header same.symm
      simp only [BPlusTree.flushOp, header, if_false, apply, List.mem_cons, other, false_or, mk.injEq, true_and]
      refine funext fun page => ?_
      by_cases same : page = first
      · subst same
        simp [header]
      · simp [same]

theorem built_buildOps (tree : BPlusTree) (header : 0 < tree.allocated) (flushed : List Nat) :
    built (buildOps tree flushed) =
      { numPages := tree.allocated
        header := if 0 ∈ flushed then some tree.rootPageId else some invalidPageId
        nodes := fun page => if page ≠ 0 ∧ page ∈ flushed then tree.pages page else none } := by
  rw [built, buildOps, List.foldl_append, List.foldl_append, foldl_extend, foldl_flush]
  simp only [constructorOps, List.foldl_cons, List.foldl_nil, apply, mk.injEq, and_true]
  omega

theorem part_of_append {α : Type} {part first second : List α} (isPrefix : part <+: first ++ second) :
    part <+: first ∨ ∃ rest, rest <+: second ∧ part = first ++ rest := by
  rcases List.prefix_or_prefix_of_prefix isPrefix (List.prefix_append first second) with short | long
  · exact .inl short
  · obtain ⟨rest, rfl⟩ := long
    exact .inr ⟨rest, (List.prefix_append_right_inj first).mp isPrefix, rfl⟩

theorem stages {tree : BPlusTree} {flushed : List Nat} {performed : List IndexFileOp}
    (isPrefix : performed <+: buildOps tree flushed) :
    performed = [] ∨ performed = [.extend] ∨ (∃ n, performed = constructorOps ++ List.replicate n .extend) ∨
      ∃ done, done <+: flushed ∧ performed = buildOps tree done := by
  rcases part_of_append isPrefix with inConstructor | ⟨rest, later, rfl⟩
  · simp only [constructorOps, List.prefix_cons_iff, List.prefix_nil] at inConstructor
    rcases inConstructor with rfl | ⟨_, rfl, rfl | ⟨_, rfl, rfl⟩⟩
    · exact .inl rfl
    · exact .inr (.inl rfl)
    · exact .inr (.inr (.inl ⟨0, rfl⟩))
  · rcases part_of_append later with extending | ⟨written, flushing, rfl⟩
    · exact .inr (.inr (.inl ⟨rest.length, congrArg _ (List.prefix_replicate_iff.mp extending).2⟩))
    · obtain ⟨done, isDone, rfl⟩ := List.prefix_map_iff.mp flushing
      exact .inr (.inr (.inr ⟨done, isDone, rfl⟩))

def FindsAll (tree : BPlusTree) (stored : List (Int × RID)) : Prop :=
  ∀ key, ∃ rids, tree.search key = .ok rids ∧ rids.Perm ((stored.filter fun entry => entry.1 = key).map Prod.snd)

theorem FindsAll.found {tree : BPlusTree} {stored : List (Int × RID)} (all : FindsAll tree stored) {entry : Int × RID}
    (member : entry ∈ stored) : ∃ rids, tree.search entry.1 = .ok rids ∧ entry.2 ∈ rids := by
  obtain ⟨rids, found, perm⟩ := all entry.1
  refine ⟨rids, found, perm.mem_iff.mpr (List.mem_map.mpr ⟨entry, List.mem_filter.mpr ⟨member, by simp⟩, rfl⟩)⟩

theorem search_invalid {file : IndexFile} (invalid : file.header = some invalidPageId) (key : Int) :
    file.attachStorage.search key = .ok [] := by
  have root : file.attachStorage.rootPageId = invalidPageId := by
    rw [attachStorage]
    split
    · rfl
    · simp [rootPageId, invalid]
  rw [BPlusTree.search, if_pos root]

theorem search_zeroHeader {file : IndexFile} (some : 0 < file.numPages) (unwritten : file.header = none) (key : Int) :
    file.attachStorage.search key = .error .traversalStepsExceeded := by
  have zero : file.rootPageId = 0 := by rw [rootPageId, unwritten, Option.getD_none]
  have again : ∀ steps, file.attachStorage.descend key steps 0 = .error .traversalStepsExceeded := by
    intro steps
    induction steps with
    | zero => rfl
    | succ steps ih => rw [descend_header file some, zero, ih]
  have root : file.attachStorage.rootPageId = 0 := by
    rw [attachStorage_of_pos some]
    exact zero
  rw [BPlusTree.search, root, if_neg (by decide), again]
  rfl

theorem built_constructor (n : Nat) : (built (constructorOps ++ List.replicate n .extend)).header = some invalidPageId := by
  rw [built, List.foldl_append, foldl_extend]
  rfl

theorem leavesFit_built {tree : BPlusTree} (fit : tree.LeavesFit) (header : 0 < tree.allocated) {flushed : List Nat}
    {performed : List IndexFileOp} (isPrefix : performed <+: buildOps tree flushed) :
    (built performed).attachStorage.LeavesFit := by
  have parts : ∀ page, (built performed).nodes page = tree.pages page ∨ (built performed).nodes page = none := by
    intro page
    rcases stages isPrefix with rfl | rfl | ⟨n, rfl⟩ | ⟨done, -, rfl⟩
    · exact .inr rfl
    · exact .inr rfl
    · rw [built, List.foldl_append, foldl_extend]
      exact .inr rfl
    · rw [built_buildOps tree header]
      simp only
      split
      · exact .inl rfl
      · exact .inr rfl
  intro page leaf present
  rw [attachStorage] at present
  split at present
  · cases present
  · simp only [readPage, headerNode] at present
    split at present
    · split at present
      · cases present
      · rcases parts page with same | never
        · rw [same] at present
          cases stored : tree.pages page with
          | none =>
            rw [stored] at present
            cases present
          | some node =>
            rw [stored] at present
            cases present
            exact fit page leaf stored
        · rw [never] at present
          cases present
    · cases present

section Filled

variable {entries : List (Int × RID)} {tree : BPlusTree} {flushed : List Nat} {performed : List IndexFileOp}

theorem not_findsAll (dense : tree.Dense entries) (some : entries ≠ []) (all : flushed.Perm tree.dirtyPages)
    (isPrefix : performed <+: buildOps tree flushed) (unfinished : performed ≠ buildOps tree flushed) :
    ¬ FindsAll (built performed).attachStorage entries := by
  intro findsAll
  obtain ⟨entry, member⟩ := List.exists_mem_of_ne_nil _ some
  obtain ⟨rids, found, isRid⟩ := findsAll.found member
  have notEmpty : (built performed).attachStorage.search entry.1 ≠ .ok [] := by
    rw [found]
    intro same
    cases same
    cases isRid
  rcases stages isPrefix with rfl | rfl | ⟨n, rfl⟩ | ⟨done, isDone, rfl⟩
  · exact notEmpty rfl
  · rw [search_zeroHeader (by decide) rfl] at found
    cases found
  · exact notEmpty (search_invalid (built_constructor n) entry.1)
  · obtain ⟨rest, rfl⟩ := isDone
    cases rest with
    | nil => exact unfinished (by rw [List.append_nil])
    | cons lost rest =>
      obtain ⟨h, subtree, shape, -, whole⟩ := dense.shape.resolve_left fun empty => some empty.2.1
      have header := dense.header
      have several : tree.allocated ≠ 1 := by
        have page := shape.inFile _ (pageId_mem h subtree)
        omega
      rw [BPlusTree.dirtyPages, if_neg several] at all
      have once : (done ++ lost :: rest).Nodup := all.nodup_iff.mpr List.nodup_range
      have isLost : lost ∉ done := fun again =>
        (List.nodup_append.mp once).2.2 lost again lost List.mem_cons_self rfl
      have within : lost < tree.allocated := List.mem_range.mp (all.mem_iff.mp (by simp))
      rw [built_buildOps tree header] at notEmpty findsAll
      by_cases headerDone : 0 ∈ done
      · -- the header page names the root, and one of the pages below is still all zero
        have positive : 0 < lost := Nat.pos_of_ne_zero fun zero => isLost (zero ▸ headerDone)
        have part : Partial { numPages := tree.allocated
                              header := if 0 ∈ done then Option.some tree.rootPageId else Option.some invalidPageId
                              nodes := fun page => if page ≠ 0 ∧ page ∈ done then tree.pages page else none } tree := by
          refine ⟨rfl, if_pos headerDone, fun page => ?_⟩
          simp only
          split
          · exact .inl rfl
          · exact .inr rfl
        obtain ⟨key, fails⟩ := search_lost part shape dense.room
          (BPlusTree.Dense.mem_pageIds shape whole positive within) (by simp [isLost])
        obtain ⟨rids, found, -⟩ := findsAll key
        rw [fails] at found
        cases found
      · exact notEmpty (search_invalid (by simp [headerDone]) entry.1)

theorem represents_built (dense : tree.Dense entries) (all : flushed.Perm tree.dirtyPages) (some : entries ≠ []) :
    (built (buildOps tree flushed)).attachStorage.Represents entries := by
  obtain ⟨h, subtree, shape, -, whole⟩ := dense.shape.resolve_left fun empty => some empty.2.1
  have header := dense.header
  have several : tree.allocated ≠ 1 := by
    have page := shape.inFile _ (pageId_mem h subtree)
    omega
  rw [BPlusTree.dirtyPages, if_neg several] at all
  have dirty : ∀ page < tree.allocated, page ∈ flushed := fun page within => all.mem_iff.mpr (List.mem_range.mpr within)
  rw [built_buildOps tree header]
  refine Stores.represents ⟨rfl, if_pos (dirty 0 header), fun page positive within => ?_⟩ dense.represents
  exact if_pos ⟨Nat.pos_iff_ne_zero.mp positive, dirty page within⟩

end Filled

def ZeroHeader (performed : List IndexFileOp) : Prop :=
  .extend ∈ performed ∧ ∀ rootPageId, .writeHeader rootPageId ∉ performed

def filled (entries : List (Int × RID)) : Bool × BPlusTree :=
  let (outcome, tree) := (BPlusTree.insertAll entries).exec {}
  (outcome.isOk, tree)

-- an insertion that throws leaves FlushAll out
def fillOps (entries : List (Int × RID)) (order : List Nat) : List IndexFileOp :=
  buildOps (filled entries).2 (if (filled entries).1 then order else [])

section Fill

variable {entries : List (Int × RID)} {order : List Nat} {performed : List IndexFileOp}

theorem filled_fits (entries : List (Int × RID)) : (filled entries).2.LeavesFit := by
  have fits := BPlusTree.insertAll_fits entries {} BPlusTree.leavesFit_empty
  revert fits
  rw [filled]
  rcases (BPlusTree.insertAll entries).exec {} with ⟨outcome, tree⟩
  cases outcome <;> exact id

theorem filled_dense (few : ∀ key, (entries.map Prod.fst).count key ≤ kLeafMaxKeys)
    (room : (filled entries).2.allocated < invalidPageId) :
    (filled entries).1 = true ∧ (filled entries).2.Dense entries := by
  have dense := BPlusTree.insertAll_dense few {} rfl
  revert dense room
  rw [filled]
  rcases (BPlusTree.insertAll entries).exec {} with ⟨outcome, tree⟩
  cases outcome with
  | ok _ => exact fun room dense => ⟨rfl, dense room⟩
  | error e => exact fun room dense => absurd room dense

theorem filled_header (entries : List (Int × RID)) : 0 < (filled entries).2.allocated := by
  have grown := BPlusTree.insertAll_keeps entries {} (Nat.le_refl 1)
  revert grown
  rw [filled]
  rcases (BPlusTree.insertAll entries).exec {} with ⟨outcome, tree⟩
  cases outcome <;> exact id

theorem fillOps_nil {order : List Nat} (all : order.Perm (filled []).2.dirtyPages) : fillOps [] order = constructorOps := by
  have nothing : order = [] := List.perm_nil.mp all
  rw [nothing]
  rfl

theorem constructorOps_parts (isPrefix : performed <+: constructorOps) :
    performed = [] ∨ performed = [.extend] ∨ performed = constructorOps := by
  simp only [constructorOps, List.prefix_cons_iff, List.prefix_nil] at isPrefix
  rcases isPrefix with rfl | ⟨_, rfl, rfl | ⟨_, rfl, rfl⟩⟩
  · exact .inl rfl
  · exact .inr (.inl rfl)
  · exact .inr (.inr rfl)

theorem represents_constructor (isPrefix : performed <+: constructorOps) (written : ¬ ZeroHeader performed) :
    (built performed).attachStorage.Represents [] := by
  rcases constructorOps_parts isPrefix with rfl | rfl | rfl
  · exact BPlusTree.represents_empty
  · exact absurd ⟨List.mem_singleton_self _, by simp⟩ written
  · exact ⟨by decide, by decide, .inl ⟨rfl, rfl⟩⟩

theorem not_zeroHeader (performed : List IndexFileOp) (findsAll : FindsAll (built performed).attachStorage entries)
    (isPrefix : performed <+: fillOps entries order) : ¬ ZeroHeader performed := by
  rintro ⟨extended, unwritten⟩
  rcases stages isPrefix with rfl | rfl | ⟨n, rfl⟩ | ⟨done, -, rfl⟩
  · cases extended
  · obtain ⟨rids, found, -⟩ := findsAll 0
    rw [search_zeroHeader (by decide) rfl] at found
    cases found
  · exact unwritten invalidPageId (by simp [constructorOps])
  · exact unwritten invalidPageId (by simp [buildOps, constructorOps])

theorem represents_performed (room : (filled entries).2.allocated < invalidPageId)
    (all : order.Perm (filled entries).2.dirtyPages) (isPrefix : performed <+: fillOps entries order)
    (safe : (entries = [] ∧ ¬ ZeroHeader performed) ∨
      (performed = fillOps entries order ∧ ∀ key, (entries.map Prod.fst).count key ≤ kLeafMaxKeys)) :
    (built performed).attachStorage.Represents entries := by
  by_cases empty : entries = []
  · subst empty
    rw [fillOps_nil all] at isPrefix safe
    refine represents_constructor isPrefix ?_
    rcases safe with ⟨-, written⟩ | ⟨rfl, -⟩
    · exact written
    · exact fun zero => zero.2 invalidPageId (by simp [constructorOps])
  · obtain ⟨rfl, few⟩ := safe.resolve_left fun nothing => empty nothing.1
    obtain ⟨finished, dense⟩ := filled_dense few room
    rw [fillOps, finished, if_pos rfl]
    exact represents_built dense all empty

theorem findsAll_performed (room : (filled entries).2.allocated < invalidPageId)
    (all : order.Perm (filled entries).2.dirtyPages) (isPrefix : performed <+: fillOps entries order)
    (findsAll : FindsAll (built performed).attachStorage entries) :
    (entries = [] ∧ ¬ ZeroHeader performed) ∨
      (performed = fillOps entries order ∧ ∀ key, (entries.map Prod.fst).count key ≤ kLeafMaxKeys) := by
  by_cases empty : entries = []
  · exact .inl ⟨empty, not_zeroHeader performed findsAll isPrefix⟩
  · have few : ∀ key, (entries.map Prod.fst).count key ≤ kLeafMaxKeys := by
      intro key
      obtain ⟨rids, found, perm⟩ := findsAll key
      have short := BPlusTree.search_length_le
        (leavesFit_built (filled_fits entries) (filled_header entries) isPrefix) found
      have counted : (entries.map Prod.fst).count key = (entries.filter fun entry => entry.1 = key).length := by
        rw [List.count_eq_length_filter, List.filter_map, List.length_map]
        rfl
      rw [perm.length_eq, List.length_map] at short
      rwa [counted]
    refine .inr ⟨?_, few⟩
    obtain ⟨finished, dense⟩ := filled_dense few room
    by_contra unfinished
    rw [fillOps, finished, if_pos rfl] at isPrefix unfinished
    exact not_findsAll dense empty all isPrefix unfinished findsAll

end Fill

end IndexFile

end FlintDB
