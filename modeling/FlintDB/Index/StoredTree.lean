import FlintDB.Db.Database
import FlintDB.Index.IndexFile
import FlintDB.Index.Siblings
import FlintDB.Index.TreeHeight
import FlintDB.Lib.Simulation

set_option autoImplicit false

-- The nodes of a tree as the Serialize functions leave them on the pages of a file, and Search, Height and
-- RangeScanAll on these bytes. A file can be closed and opened again in between.

namespace FlintDB

open Lib FlintDB.Tree

-- What is written to the page of a node.
def Node.serialize : Node → Option (List (Poke UInt8))
  | .leaf node => some (RawNode.serializeLeaf node)
  | .internal node => RawNode.serializeInternal node

def Node.Encodable : Node → Prop
  | .leaf node => RawNode.TypedLeaf node ∧ node.entries.length ≤ kLeafMaxKeys
  | .internal node =>
    RawNode.TypedInternal node ∧ node.children.length = node.keys.length + 1 ∧ node.keys.length ≤ kInternalMaxKeys

namespace RawNode

-- A page read as what it is marked as, from inside the page.
inductive ReadsAs (buffer : Buffer) : Node → Prop
  | leaf {leaf : LeafNode} (marked : pageType buffer = kBTreeLeaf)
    (read : (deserializeLeaf buffer).Gives pageSize (.ok leaf)) : ReadsAs buffer (.leaf leaf)
  | internal {node : InternalNode Nat} (marked : pageType buffer ≠ kBTreeLeaf)
    (read : (deserializeInternal buffer).Gives pageSize (.ok node)) : ReadsAs buffer (.internal node)

theorem serialize_readsAs {node : Node} (encodable : node.Encodable) :
    ∃ writes, node.serialize = some writes ∧ (∀ write ∈ writes, write.Within pageSize) ∧
      ∀ before, ReadsAs (Poke.applyAll before writes) node := by
  cases node with
  | leaf leaf =>
    have trip := leaf_roundTrip encodable.1 encodable.2
    exact ⟨_, rfl, trip.inside, fun before => .leaf (trip.tagged before) ⟨trip.returned before, trip.reads before⟩⟩
  | internal node =>
    obtain ⟨writes, written, trip⟩ := internal_roundTrip encodable.1 encodable.2.1 encodable.2.2
    refine ⟨writes, written, trip.inside, fun before => .internal ?_ ⟨trip.returned before, trip.reads before⟩⟩
    rw [trip.tagged before]
    decide

theorem gives_pageType {β : Type} {buffer : Buffer} {next : Nat → Peek Exception β} {outcome : Except Exception β}
    (after : (next (pageType buffer)).Gives pageSize outcome) :
    ((readPageType buffer).bind next).Gives pageSize outcome :=
  Peek.Gives.bind ⟨peekAt_result .., (within_peekAt (by decide)).mpr (by decide)⟩ after

theorem bisect_eq {keys : List Int} {key : Int} (sorted : keys.Pairwise (· ≤ ·)) {rounds first len : Nat}
    (inside : first + len ≤ keys.length) (enough : len ≤ rounds)
    (before : ∀ (i : Nat) (within : i < keys.length), i < first → keys[i] ≤ key)
    (behind : ∀ (i : Nat) (within : i < keys.length), first + len ≤ i → key < keys[i]) :
    bisect keys key rounds first len = upperBound keys key := by
  induction rounds generalizing first len with
  | zero =>
    obtain rfl := Nat.le_zero.mp enough
    exact (upperBound_eq inside before behind).symm
  | succ rounds ih =>
    rw [bisect]
    split
    · rename_i done
      subst done
      exact (upperBound_eq inside before behind).symm
    · have atHalf : first + len / 2 < keys.length := by omega
      have monotone : ∀ i j (lower : i < keys.length) (upper : j < keys.length), i ≤ j → keys[i] ≤ keys[j] := by
        intro i j lower upper le
        rcases Nat.eq_or_lt_of_le le with rfl | less
        · exact Int.le_refl _
        · exact List.pairwise_iff_getElem.mp sorted i j lower upper less
      simp only
      rw [List.getD_eq_getElem?_getD, List.getElem?_eq_getElem atHalf, Option.getD_some]
      split
      · rename_i less
        refine ih (by omega) (by omega) before fun i within atLeast => ?_
        exact Int.lt_of_lt_of_le less (monotone _ _ atHalf within atLeast)
      · rename_i notLess
        refine ih (by omega) (by omega) (fun i within earlier => ?_) fun i within atLeast => behind i within (by omega)
        exact Int.le_trans (monotone _ _ within atHalf (by omega)) (Int.not_lt.mp notLess)

theorem rawUpperBound_eq {keys : List Int} (sorted : keys.Pairwise (· ≤ ·)) (key : Int) :
    rawUpperBound keys key = upperBound keys key :=
  bisect_eq sorted (Nat.le_of_eq (Nat.zero_add _)) (Nat.le_refl _) (fun _ _ less => absurd less (Nat.not_lt_zero _))
    fun _ within behind => absurd within (by omega)

end RawNode

namespace RawFile

open RawNode

-- The page holds what these writes make of whatever it held before.
def Written (file : RawFile) (pageId : Nat) (writes : List (Poke UInt8)) : Prop :=
  ∃ page before, file.pages[pageId]? = some page ∧ file.buffer pageId page = Poke.applyAll before writes

/-- The header page and the nodes that can be reached from it are in the file. What else is there does not matter. -/
structure Stores (file : RawFile) (tree : BPlusTree) : Prop where
  header : file.Written kRootHeaderPageId (serializeHeader tree.rootPageId)
  nodes : ∀ pageId node, tree.Reaches pageId → tree.pages pageId = some node →
    ∃ writes, node.serialize = some writes ∧ file.Written pageId writes

/-- What FetchPage brings reads as this node. -/
def Holds (file : RawFile) (pageId : Nat) (node : Node) : Prop :=
  ∃ page, file.pages[pageId]? = some page ∧ ReadsAs (file.buffer pageId page) node

variable {file : RawFile}

theorem Written.holds {pageId : Nat} {writes : List (Poke UInt8)} {node : Node} (written : file.Written pageId writes)
    (serialized : node.serialize = some writes) (encodable : node.Encodable) : file.Holds pageId node := by
  obtain ⟨page, before, stored, buffer_eq⟩ := written
  obtain ⟨writes', same, -, reads⟩ := serialize_readsAs encodable
  cases serialized.symm.trans same
  refine ⟨page, stored, ?_⟩
  rw [buffer_eq]
  exact reads before

theorem gives_fetch {β : Type} {pageId : Nat} {page : PageImage} (stored : file.pages[pageId]? = some page)
    {next : Buffer → Peek Exception β} {outcome : Except Exception β}
    (after : (next (file.buffer pageId page)).Gives pageSize outcome) :
    ((file.fetchPage pageId).bind next).Gives pageSize outcome :=
  Peek.Gives.bind ⟨fetchPage_result stored, Peek.within_of_silent (fetchPage_silent pageId) _⟩ after

theorem gives_root {root : Nat} (written : file.Written kRootHeaderPageId (serializeHeader root)) (small : root < 2 ^ 32) :
    file.getRootPageId.Gives pageSize (.ok root) := by
  obtain ⟨page, before, stored, buffer_eq⟩ := written
  have trip := header_roundTrip small
  refine gives_fetch stored ?_
  rw [buffer_eq]
  exact ⟨trip.returned before, trip.reads before⟩

theorem searchRound_leaf {cur : Nat} {leaf : LeafNode} (holds : file.Holds cur (.leaf leaf)) (key : Int) :
    (file.searchRound key cur).Gives pageSize
      (.ok (.inl ((leaf.entries.filter fun entry => entry.1 = key).map Prod.snd))) := by
  obtain ⟨page, stored, reads⟩ := holds
  cases reads with
  | leaf marked read =>
    refine gives_fetch stored (gives_pageType ?_)
    rw [if_pos marked]
    exact read.bind (Peek.gives_pure _ _)

theorem searchRound_internal {cur child : Nat} {node : InternalNode Nat} (holds : file.Holds cur (.internal node))
    (sorted : node.keys.Pairwise (· ≤ ·)) {key : Int} (isChild : node.children[upperBound node.keys key]? = some child) :
    (file.searchRound key cur).Gives pageSize (.ok (.inr child)) := by
  obtain ⟨page, stored, reads⟩ := holds
  cases reads with
  | internal marked read =>
    refine gives_fetch stored (gives_pageType ?_)
    rw [if_neg marked]
    refine read.bind ?_
    rw [rawUpperBound_eq sorted, isChild]
    exact Peek.Gives.bind (Peek.gives_pure _ _) (Peek.gives_pure _ _)

theorem descentRound_leaf {buffer : Buffer} {leaf : LeafNode} (reads : ReadsAs buffer (.leaf leaf)) (level : Nat) :
    (file.descentRound (level, buffer)).Gives pageSize (.ok (.inl (level, buffer))) := by
  cases reads with
  | leaf marked read =>
    rw [descentRound, Peek.bind_eq]
    refine gives_pageType ?_
    rw [if_pos marked]
    exact Peek.gives_pure _ _

theorem descentRound_internal {buffer : Buffer} {node : InternalNode Nat} (reads : ReadsAs buffer (.internal node))
    {level child : Nat} (shallow : level ≤ kMaxTraversalSteps) (isChild : node.children.head? = some child)
    {page : PageImage} (stored : file.pages[child]? = some page) :
    (file.descentRound (level, buffer)).Gives pageSize (.ok (.inr (level + 1, file.buffer child page))) := by
  cases reads with
  | internal marked read =>
    rw [descentRound, Peek.bind_eq]
    refine gives_pageType ?_
    rw [if_neg marked, if_neg (Nat.not_lt.mpr shallow)]
    refine read.bind ?_
    rw [isChild]
    exact Peek.Gives.bind (Peek.gives_pure _ _) (gives_fetch stored (Peek.gives_pure _ _))

theorem chainRound_last {buffer : Buffer} {leaf : LeafNode} (reads : ReadsAs buffer (.leaf leaf))
    (last : leaf.nextLeaf = invalidPageId) (out : List (Int × RID)) :
    (file.chainRound (out, buffer)).Gives pageSize (.ok (.inl (out ++ leaf.entries))) := by
  cases reads with
  | leaf marked read =>
    refine read.bind ?_
    rw [if_pos last]
    exact Peek.gives_pure _ _

theorem chainRound_onward {buffer : Buffer} {leaf : LeafNode} (reads : ReadsAs buffer (.leaf leaf))
    (onward : leaf.nextLeaf ≠ invalidPageId) (out : List (Int × RID)) {page : PageImage}
    (stored : file.pages[leaf.nextLeaf]? = some page) :
    (file.chainRound (out, buffer)).Gives pageSize
      (.ok (.inr (out ++ leaf.entries, file.buffer leaf.nextLeaf page))) := by
  cases reads with
  | leaf marked read =>
    refine read.bind ?_
    rw [if_neg onward]
    exact gives_fetch stored (Peek.gives_pure _ _)

section Traversals

variable {s : BPlusTree} {h : Nat}

theorem search_walk {least inner : Nat} {low high : Option Int} {tree : Tree h} (held : Held s.pages h tree)
    (fits : WellFormed least inner h low high tree)
    (holds : ∀ page ∈ Tree.pageIds h tree, ∀ node, s.pages page = some node → file.Holds page node) {key : Int} {steps : Nat}
    {leaf : LeafNode} (found : s.descend key steps (pageId h tree) = .ok leaf) :
    (Peek.walk (file.searchRound key) traversalStepsExceeded steps (pageId h tree)).Gives pageSize
      (.ok ((leaf.entries.filter fun entry => entry.1 = key).map Prod.snd)) := by
  induction h generalizing least inner low high steps with
  | zero =>
    have stored : s.pages (pageId 0 tree) = some (.leaf tree) := held
    cases steps with
    | zero => cases found
    | succ steps =>
      rw [BPlusTree.descend, stored] at found
      cases found
      exact .walk_stop (searchRound_leaf (holds _ List.mem_cons_self _ stored) key)
  | succ h ih =>
    have stored : s.pages (pageId (h + 1) tree) = some (.internal (tree.map (pageId h))) := held.1
    cases steps with
    | zero => cases found
    | succ steps =>
      rw [BPlusTree.descend, stored] at found
      simp only at found
      cases isChild : (tree.map (pageId h)).children[upperBound (tree.map (pageId h)).keys key]? with
      | none =>
        rw [isChild] at found
        cases found
      | some child =>
        rw [isChild] at found
        have sorted : tree.keys.Pairwise (· ≤ ·) := (fits.2.2.pairwise (filled_room h)).1.imp Int.le_of_lt
        refine .walk_onward (searchRound_internal (holds _ List.mem_cons_self _ stored) sorted isChild) ?_
        simp only [InternalNode.map, List.getElem?_map, Option.map_eq_some_iff] at isChild
        obtain ⟨part, here, rfl⟩ := isChild
        have member := List.mem_of_getElem? here
        exact ih (held.2 part member) (fits.2.2.fits_child here)
          (fun page inside => holds page (List.mem_cons_of_mem _ (List.mem_flatMap.mpr ⟨part, member, inside⟩))) found

theorem descent_walk {least inner : Nat} {tree : Tree h} (held : Held s.pages h tree)
    (branching : Branching least inner h tree)
    (holds : ∀ page ∈ Tree.pageIds h tree, ∀ node, s.pages page = some node → file.Holds page node) {steps level : Nat}
    (enough : h < steps) (shallow : level + h ≤ kMaxTraversalSteps) {page : PageImage}
    (stored : file.pages[pageId h tree]? = some page) :
    ∃ leaf rest last, leaves h tree = leaf :: rest ∧ file.pages[leaf.pageId]? = some last ∧
      (Peek.walk file.descentRound traversalStepsExceeded steps (level, file.buffer (pageId h tree) page)).Gives pageSize
        (.ok (level + h, file.buffer leaf.pageId last)) := by
  induction h generalizing least steps level page with
  | zero =>
    obtain ⟨steps, rfl⟩ : ∃ rest, steps = rest + 1 := ⟨steps - 1, by omega⟩
    obtain ⟨same, isSame, reads⟩ := holds _ List.mem_cons_self _ held
    cases stored.symm.trans isSame
    exact ⟨tree, [], page, rfl, stored, .walk_stop (descentRound_leaf reads level)⟩
  | succ h ih =>
    obtain ⟨steps, rfl⟩ : ∃ rest, steps = rest + 1 := ⟨steps - 1, by omega⟩
    obtain ⟨first, others, children_eq⟩ := branching.first
    have member : first ∈ tree.children := by simp [children_eq]
    have holdsFirst : ∀ page ∈ Tree.pageIds h first, ∀ node, s.pages page = some node → file.Holds page node :=
      fun page inside => holds page (List.mem_cons_of_mem _ (List.mem_flatMap.mpr ⟨first, member, inside⟩))
    obtain ⟨top, isTop⟩ := (held.2 first member).exists_node (pageId_mem h first)
    obtain ⟨below, isBelow, -⟩ := holdsFirst _ (pageId_mem h first) top isTop
    obtain ⟨same, isSame, reads⟩ := holds _ List.mem_cons_self _ held.1
    cases stored.symm.trans isSame
    have isChild : (tree.map (pageId h)).children.head? = some (pageId h first) := by
      simp [InternalNode.map, children_eq]
    obtain ⟨leaf, rest, last, leaves_eq, isLast, walked⟩ :=
      ih (held.2 first member) (branching.2.2 first member) holdsFirst (by omega : h < steps)
        (by omega : level + 1 + h ≤ kMaxTraversalSteps) isBelow
    refine ⟨leaf, rest ++ others.flatMap (leaves h), last, by simp [leaves, children_eq, leaves_eq], isLast, ?_⟩
    rw [Nat.add_right_comm, Nat.add_assoc] at walked
    exact .walk_onward (descentRound_internal reads (by omega) isChild isBelow) walked

theorem chain_walk {leaf : LeafNode} {rest : List LeafNode}
    (linked : Linked LeafNode.pageId LeafNode.nextLeaf invalidPageId (leaf :: rest))
    (readable : ∀ other ∈ rest, s.pages other.pageId = some (.leaf other) ∧ other.pageId ≠ invalidPageId)
    (holds : ∀ other ∈ leaf :: rest, file.Holds other.pageId (.leaf other)) (steps : Nat) (out : List (Int × RID))
    {page : PageImage} (stored : file.pages[leaf.pageId]? = some page) :
    (Peek.walk file.chainRound traversalStepsExceeded steps (out, file.buffer leaf.pageId page)).Gives pageSize
      (Database.ofBTree ((s.walkChain steps leaf).map (out ++ ·))) := by
  induction rest generalizing leaf steps out page with
  | nil =>
    cases steps with
    | zero => exact ⟨rfl, Peek.within_of_silent rfl _⟩
    | succ steps =>
      have last : leaf.nextLeaf = invalidPageId := linked.1
      obtain ⟨same, isSame, reads⟩ := holds leaf List.mem_cons_self
      cases stored.symm.trans isSame
      rw [BPlusTree.walkChain, if_pos last]
      exact .walk_stop (chainRound_last reads last out)
  | cons next rest ih =>
    cases steps with
    | zero => exact ⟨rfl, Peek.within_of_silent rfl _⟩
    | succ steps =>
      have isNext : leaf.nextLeaf = next.pageId := linked.1
      obtain ⟨isLeaf, valid⟩ := readable next List.mem_cons_self
      obtain ⟨same, isSame, reads⟩ := holds leaf List.mem_cons_self
      cases stored.symm.trans isSame
      obtain ⟨following, isFollowing, -⟩ := holds next (List.mem_cons_of_mem _ List.mem_cons_self)
      have onward : leaf.nextLeaf ≠ invalidPageId := by rwa [isNext]
      have rest := ih linked.2 (fun other member => readable other (List.mem_cons_of_mem _ member))
        (fun other member => holds other (List.mem_cons_of_mem _ member)) steps (out ++ leaf.entries) isFollowing
      have read : s.readLeaf leaf.nextLeaf = some next := by rw [isNext, BPlusTree.readLeaf, isLeaf]
      rw [BPlusTree.walkChain, if_neg onward, read]
      simp only
      rw [← isNext] at isFollowing rest
      refine .walk_onward (chainRound_onward reads onward out isFollowing) ?_
      cases chain : s.walkChain steps next with
      | error e =>
        rw [chain] at rest
        exact rest
      | ok listed =>
        rw [chain] at rest
        simpa [Except.map, List.append_assoc] using rest

end Traversals

end RawFile

-- An entry of the types that the fields of a leaf have.
def TypedEntry (entry : Int × RID) : Prop := RawNode.IsInt64 entry.1 ∧ RawNode.IsRID entry.2

section Encodable

variable {s : BPlusTree} {h inner : Nat} {low high : Option Int}

theorem exists_entry {tree : Tree h} (fits : WellFormed 1 inner h low high tree) :
    ∃ entry ∈ entries tree, InRange low high entry.1 := by
  have nonempty : entries tree ≠ [] := by
    induction h generalizing inner low high with
    | zero =>
      have fits : LeafFits 1 low high tree := fits
      have least := fits.least_le
      rw [LeafNode.keys, List.length_map] at least
      rw [entries_leaf]
      exact List.length_pos_iff.mp least
    | succ h ih =>
      have length := fits.2.2.length
      obtain ⟨child, others, children_eq⟩ := List.exists_cons_of_length_pos (by omega : 0 < tree.children.length)
      obtain ⟨_, _, childFits⟩ := fits.2.2.exists_fits (children_eq ▸ List.mem_cons_self)
      rw [entries_internal, children_eq, List.flatMap_cons]
      exact List.append_ne_nil_of_left_ne_nil (ih childFits) _
  obtain ⟨entry, member⟩ := List.exists_mem_of_ne_nil _ nonempty
  exact ⟨entry, member, fits.sorted.2 _ (List.mem_map_of_mem member)⟩

theorem separator_isInt64 {node : Tree (h + 1)} (fits : WellFormed 1 inner (h + 1) low high node)
    (typed : ∀ entry ∈ entries node, TypedEntry entry) {key : Int} (member : key ∈ node.keys) :
    RawNode.IsInt64 key := by
  obtain ⟨i, within, rfl⟩ := List.getElem_of_mem member
  have length := fits.2.2.length
  have left := List.getElem?_eq_getElem (by omega : i < node.children.length)
  have right := List.getElem?_eq_getElem (by omega : i + 1 < node.children.length)
  obtain ⟨below, isBelow, less⟩ := exists_entry (fits.2.2.fits_child left)
  obtain ⟨above, isAbove, atLeast⟩ := exists_entry (fits.2.2.fits_child right)
  have inNode : ∀ child ∈ node.children, ∀ entry ∈ entries child, TypedEntry entry := by
    intro child isChild entry isEntry
    refine typed entry ?_
    rw [entries_internal]
    exact List.mem_flatMap.mpr ⟨child, isChild, isEntry⟩
  have lower := (inNode _ (List.mem_of_getElem? left) below isBelow).1.1
  have upper := (inNode _ (List.mem_of_getElem? right) above isAbove).1.2
  have lt := less.lt_high node.keys[i] (by simp [childHigh, List.getElem?_eq_getElem within])
  have le := atLeast.low_le node.keys[i] (by simp [childLow, List.getElem?_eq_getElem within])
  exact ⟨by omega, by omega⟩

theorem encodable_of_mem {tree : Tree h} (held : Held s.pages h tree) (fits : WellFormed 1 inner h low high tree)
    (typed : ∀ entry ∈ entries tree, TypedEntry entry) (small : ∀ page ∈ pageIds h tree, page < 2 ^ 32)
    (chained : ∀ leaf ∈ leaves h tree, leaf.nextLeaf < 2 ^ 32) {page : Nat} (member : page ∈ pageIds h tree) {node : Node}
    (stored : s.pages page = some node) : node.Encodable := by
  induction h generalizing inner low high with
  | zero =>
    have fits : LeafFits 1 low high tree := fits
    have le_max := fits.le_max
    obtain rfl := List.mem_singleton.mp member
    have isLeaf : s.pages (pageId 0 tree) = some (.leaf tree) := held
    cases isLeaf.symm.trans stored
    rw [LeafNode.keys, List.length_map] at le_max
    refine ⟨⟨small _ List.mem_cons_self, chained tree List.mem_cons_self, ?_⟩, le_max⟩
    rw [entries_leaf] at typed
    exact typed
  | succ h ih =>
    rcases List.mem_cons.mp member with rfl | below
    · have isInternal : s.pages tree.pageId = some (.internal (tree.map (pageId h))) := held.1
      cases isInternal.symm.trans stored
      refine ⟨⟨small _ List.mem_cons_self, fun key isKey => separator_isInt64 fits typed isKey, ?_⟩, ?_, fits.2.1⟩
      · intro child isChild
        obtain ⟨part, isPart, rfl⟩ := List.mem_map.mp isChild
        exact small _ (List.mem_cons_of_mem _ (List.mem_flatMap.mpr ⟨part, isPart, pageId_mem h part⟩))
      · simpa [InternalNode.map] using fits.2.2.length
    · obtain ⟨part, isPart, inside⟩ := List.mem_flatMap.mp below
      obtain ⟨_, _, partFits⟩ := fits.2.2.exists_fits isPart
      refine ih (held.2 part isPart) partFits (fun entry isEntry => typed entry ?_)
        (fun other isOther => small other ?_) (fun leaf isLeaf => chained leaf ?_) inside
      · rw [entries_internal]
        exact List.mem_flatMap.mpr ⟨part, isPart, isEntry⟩
      · exact List.mem_cons_of_mem _ (List.mem_flatMap.mpr ⟨part, isPart, isOther⟩)
      · exact List.mem_flatMap.mpr ⟨part, isPart, isLeaf⟩

theorem nextLeaf_of_linked {leaves : List LeafNode}
    (linked : Linked LeafNode.pageId LeafNode.nextLeaf invalidPageId leaves) {leaf : LeafNode} (member : leaf ∈ leaves) :
    leaf.nextLeaf = invalidPageId ∨ ∃ next ∈ leaves, leaf.nextLeaf = next.pageId := by
  induction leaves with
  | nil => cases member
  | cons first rest ih =>
    rcases List.mem_cons.mp member with rfl | later
    · cases rest with
      | nil => exact .inl linked.1
      | cons next rest => exact .inr ⟨next, List.mem_cons_of_mem _ List.mem_cons_self, linked.1⟩
    · rcases ih linked.2 later with last | ⟨next, isNext, same⟩
      · exact .inl last
      · exact .inr ⟨next, List.mem_cons_of_mem _ isNext, same⟩

theorem BPlusTree.Shape.small {tree : Tree h} (shape : s.Shape tree) (room : s.allocated < invalidPageId) {page : Nat}
    (member : page ∈ pageIds h tree) : page < 2 ^ 32 := by
  have inFile := (shape.inFile page member).2
  simp only [invalidPageId] at room
  omega

theorem BPlusTree.Represents.root_lt {stored : List (Int × RID)} (represents : s.Represents stored) :
    s.rootPageId < 2 ^ 32 := by
  rcases represents.shape with ⟨empty, -⟩ | ⟨h, tree, shape, -⟩
  · rw [empty]
    decide
  · rw [shape.root]
    exact shape.small represents.room (pageId_mem h tree)

theorem BPlusTree.Shape.encodable {tree : Tree h} (shape : s.Shape tree) (room : s.allocated < invalidPageId)
    (typed : ∀ entry ∈ entries tree, TypedEntry entry) {page : Nat} (member : page ∈ pageIds h tree) {node : Node}
    (stored : s.pages page = some node) : node.Encodable := by
  have small : ∀ page ∈ pageIds h tree, page < 2 ^ 32 := fun page member => shape.small room member
  refine encodable_of_mem shape.held shape.fits typed small (fun leaf isLeaf => ?_) member stored
  rcases nextLeaf_of_linked shape.linked isLeaf with last | ⟨next, isNext, same⟩
  · rw [last]
    decide
  · rw [same]
    exact small _ (leaves_held shape.held next isNext).2

theorem not_reaches_of_empty (empty : s.rootPageId = invalidPageId) (page : Nat) : ¬ s.Reaches page := by
  intro reaches
  induction reaches with
  | root valid => exact valid empty
  | child above isChild ih => exact ih

theorem childPages_mem {tree : Tree h} (held : Held s.pages h tree) {page child : Nat} (member : page ∈ pageIds h tree)
    (isChild : child ∈ s.childPages page) : child ∈ pageIds h tree := by
  induction h with
  | zero =>
    obtain rfl := List.mem_singleton.mp member
    have stored : s.pages (LeafNode.pageId tree) = some (.leaf tree) := held
    simp [BPlusTree.childPages, BPlusTree.readInternal, stored] at isChild
  | succ h ih =>
    refine List.mem_cons_of_mem _ ?_
    rcases List.mem_cons.mp member with rfl | below
    · have isChild : child ∈ s.childPages (pageId (h + 1) tree) := isChild
      rw [BPlusTree.childPages_held held] at isChild
      obtain ⟨part, isPart, rfl⟩ := List.mem_map.mp isChild
      exact List.mem_flatMap.mpr ⟨part, isPart, pageId_mem h part⟩
    · obtain ⟨part, isPart, inside⟩ := List.mem_flatMap.mp below
      exact List.mem_flatMap.mpr ⟨part, isPart, ih (held.2 part isPart) inside⟩

theorem reaches_of_mem {tree : Tree h} (held : Held s.pages h tree) (top : s.Reaches (pageId h tree)) {page : Nat}
    (member : page ∈ pageIds h tree) : s.Reaches page := by
  induction h with
  | zero =>
    obtain rfl := List.mem_singleton.mp member
    exact top
  | succ h ih =>
    rcases List.mem_cons.mp member with rfl | below
    · exact top
    · obtain ⟨part, isPart, inside⟩ := List.mem_flatMap.mp below
      refine ih (held.2 part isPart) (top.child ?_) inside
      rw [BPlusTree.childPages_held held]
      exact List.mem_map_of_mem isPart

theorem BPlusTree.Shape.reaches_iff {tree : Tree h} (shape : s.Shape tree) (room : s.allocated < invalidPageId) {page : Nat} :
    s.Reaches page ↔ page ∈ pageIds h tree := by
  constructor
  · intro reaches
    induction reaches with
    | root valid =>
      rw [shape.root]
      exact pageId_mem h tree
    | child above isChild ih => exact childPages_mem shape.held ih isChild
  · refine reaches_of_mem shape.held ?_
    rw [← shape.root]
    exact .root (shape.root_ne room)

end Encodable

namespace RawFile

open RawNode

variable {file : RawFile} {s : BPlusTree} {stored : List (Int × RID)}

theorem Stores.holds (stores : file.Stores s) {h : Nat} {tree : Tree h} (shape : s.Shape tree)
    (room : s.allocated < invalidPageId) (typed : ∀ entry ∈ entries tree, TypedEntry entry) :
    ∀ page ∈ Tree.pageIds h tree, ∀ node, s.pages page = some node → file.Holds page node := by
  intro page member node isNode
  obtain ⟨writes, serialized, written⟩ := stores.nodes page node ((shape.reaches_iff room).mpr member) isNode
  exact written.holds serialized (shape.encodable room typed member isNode)

theorem Stores.root (stores : file.Stores s) (represents : s.Represents stored) :
    file.getRootPageId.Gives pageSize (.ok s.rootPageId) := gives_root stores.header represents.root_lt

section Answers

variable (stores : file.Stores s) (represents : s.Represents stored) (typed : ∀ entry ∈ stored, TypedEntry entry)
include stores represents typed

theorem Stores.search (key : Int) : (file.search key).Gives pageSize (Database.ofBTree (s.search key)) := by
  refine (stores.root represents).bind ?_
  rcases represents.shape with ⟨empty, -⟩ | ⟨h, tree, shape, perm⟩
  · rw [if_pos empty, BPlusTree.search, if_pos empty]
    exact Peek.gives_pure _ _
  · have valid := shape.root_ne represents.room
    have holds := stores.holds shape represents.room fun entry member => typed entry (perm.mem_iff.mp member)
    obtain ⟨leaf, found, -⟩ := BPlusTree.descend_held shape.held shape.fits (BPlusTree.inRange_none key)
      (shape.height_lt_steps represents.room)
    rw [if_neg valid, BPlusTree.search, if_neg valid, shape.root, found]
    exact search_walk shape.held shape.fits holds found

theorem Stores.descent {h : Nat} {tree : Tree h} (shape : s.Shape tree) (perm : (entries tree).Perm stored) :
    ∃ leaf rest last, leaves h tree = leaf :: rest ∧ file.pages[leaf.pageId]? = some last ∧
      (file.descent s.rootPageId).Gives pageSize (.ok (1 + h, file.buffer leaf.pageId last)) := by
  have holds := stores.holds shape represents.room fun entry member => typed entry (perm.mem_iff.mp member)
  obtain ⟨top, isTop⟩ := shape.held.exists_node (pageId_mem h tree)
  obtain ⟨page, isPage, -⟩ := holds _ (pageId_mem h tree) top isTop
  have shallow := shape.height_lt_steps represents.room
  obtain ⟨leaf, rest, last, leaves_eq, isLast, walked⟩ := descent_walk shape.held shape.branching holds
    (by omega : h < kMaxTraversalSteps + 1) (by omega : 1 + h ≤ kMaxTraversalSteps) isPage
  refine ⟨leaf, rest, last, leaves_eq, isLast, ?_⟩
  rw [shape.root]
  exact gives_fetch isPage walked

theorem Stores.height : file.height.Gives pageSize (Database.ofBTree s.height) := by
  refine (stores.root represents).bind ?_
  rcases represents.shape with ⟨empty, -⟩ | ⟨h, tree, shape, perm⟩
  · rw [if_pos empty, BPlusTree.height, if_pos empty]
    exact Peek.gives_pure _ _
  · have valid := shape.root_ne represents.room
    obtain ⟨leaf, rest, last, -, -, walked⟩ := stores.descent represents typed shape perm
    rw [if_neg valid, BPlusTree.height, if_neg valid, shape.root,
      BPlusTree.heightFrom_held shape.held shape.fits (Nat.le_of_lt (shape.height_lt_steps represents.room)), Nat.add_comm h]
    rw [shape.root] at walked
    exact walked.bind (Peek.gives_pure _ _)

theorem Stores.rangeScanAll : file.rangeScanAll.Gives pageSize (Database.ofBTree s.rangeScanAll) := by
  refine (stores.root represents).bind ?_
  rcases represents.shape with ⟨empty, -⟩ | ⟨h, tree, shape, perm⟩
  · rw [if_pos empty, BPlusTree.rangeScanAll, BPlusTree.rangeScan, if_pos empty]
    exact Peek.gives_pure _ _
  · have valid := shape.root_ne represents.room
    have holds := stores.holds shape represents.room fun entry member => typed entry (perm.mem_iff.mp member)
    obtain ⟨leaf, rest, last, leaves_eq, isLast, walked⟩ := stores.descent represents typed shape perm
    obtain ⟨leaf', rest', found, leaves_eq'⟩ := BPlusTree.leftmostLeaf_held shape.held shape.branching
      (Nat.le_of_lt (shape.height_lt_steps represents.room))
    cases leaves_eq.symm.trans leaves_eq'
    have onPages := BPlusTree.leaves_held shape.held
    have linked := shape.linked
    rw [leaves_eq] at onPages linked
    have chain := chain_walk linked
      (fun other member => by
        obtain ⟨isLeaf, inTree⟩ := onPages other (List.mem_cons_of_mem _ member)
        have within := (shape.inFile _ inTree).2
        have room := represents.room
        exact ⟨isLeaf, by omega⟩)
      (fun other member => holds _ (onPages other member).2 _ (onPages other member).1) kMaxTraversalSteps [] isLast
    rw [if_neg valid, BPlusTree.rangeScanAll, BPlusTree.rangeScan, if_neg valid]
    refine walked.bind ?_
    rw [shape.root, found]
    have unchanged : (s.walkChain kMaxTraversalSteps leaf).map ([] ++ ·) = s.walkChain kMaxTraversalSteps leaf := by
      cases s.walkChain kMaxTraversalSteps leaf <;> rfl
    rw [unchanged] at chain
    exact chain

end Answers

end RawFile

end FlintDB
