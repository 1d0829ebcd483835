import FlintDB.Index.StoredTree

set_option autoImplicit false

-- Between two operations the pages can be flushed, the file closed and opened again; from then on a node is what its
-- page reads as. Neither the operations nor a reader of the bytes can tell.

namespace FlintDB

open Lib FlintDB.Tree

/-- A zero-initialised page after these writes. -/
def PageImage.after (writes : List (Poke UInt8)) : PageImage :=
  .ofBytes (bytesAt (Poke.applyAll (fun _ => 0) writes) 0 pageSize)

theorem PageImage.ofBytes_full {data : Bytes} (full : data.length = pageSize) : (ofBytes data).bytes = data := by
  simp [ofBytes, full]

theorem PageImage.after_bytes (writes : List (Poke UInt8)) :
    (after writes).bytes = bytesAt (Poke.applyAll (fun _ => 0) writes) 0 pageSize :=
  ofBytes_full (by rw [bytesAt, List.length_map, List.length_range])

/-- What the page holds in the buffer pool: one that was allocated and never written is all zero. -/
def BPlusTree.pageImage (tree : BPlusTree) (pageId : Nat) : PageImage :=
  if pageId = RawNode.kRootHeaderPageId then .after (RawNode.serializeHeader tree.rootPageId)
  else .after ((tree.pages pageId).elim [] fun node => node.serialize.getD [])

/-- The file once every dirty page is flushed. -/
def BPlusTree.flushed (tree : BPlusTree) : RawFile where
  pages := (List.range tree.allocated).map tree.pageImage

namespace RawFile

open RawNode

-- FetchPage, and the Deserialize function that the type tag asks for.
def readNode (file : RawFile) (pageId : Nat) : Option Node :=
  file.pages[pageId]?.bind fun page =>
    let buffer := file.buffer pageId page
    if pageType buffer = kBTreeLeaf then (deserializeLeaf buffer).result.toOption.map .leaf
    else (deserializeInternal buffer).result.toOption.map .internal

-- BPlusTree on top of a file. One without pages gets a header page that names no root.
def openTree (file : RawFile) : BPlusTree :=
  if file.pages = [] then {}
  else
    { pages := file.readNode
      rootPageId := file.getRootPageId.result.toOption.getD invalidPageId
      allocated := file.pages.length }

variable {file : RawFile} {s : BPlusTree} {stored : List (Int × RID)}

theorem Holds.readNode {pageId : Nat} {node : Node} (holds : file.Holds pageId node) :
    file.readNode pageId = some node := by
  obtain ⟨page, isPage, reads⟩ := holds
  rw [RawFile.readNode, isPage, Option.bind_some]
  cases reads with
  | leaf marked read =>
    simp only
    rw [if_pos marked, read.result]
    rfl
  | internal marked read =>
    simp only
    rw [if_neg marked, read.result]
    rfl

theorem Stores.openTree_represents (stores : file.Stores s) (represents : s.Represents stored)
    (typed : ∀ entry ∈ stored, TypedEntry entry) (numPages : file.pages.length = s.allocated) :
    file.openTree.Represents stored := by
  have header := represents.header
  have some : file.pages ≠ [] := List.length_pos_iff.mp (by omega)
  have root : file.getRootPageId.result.toOption.getD invalidPageId = s.rootPageId := by
    rw [(stores.root represents).result]
    rfl
  rw [openTree, if_neg some, root]
  refine ⟨by rw [numPages]; exact header, by rw [numPages]; exact represents.room, ?_⟩
  rcases represents.shape with ⟨empty, rfl⟩ | ⟨h, tree, shape, perm⟩
  · exact .inl ⟨empty, rfl⟩
  · have holds := stores.holds shape represents.room fun entry member => typed entry (perm.mem_iff.mp member)
    refine .inr ⟨h, tree, ⟨shape.root, shape.held.congr fun page member => ?_, shape.nodup, ?_, shape.fits, shape.linked⟩,
      perm⟩
    · obtain ⟨node, isNode⟩ := shape.held.exists_node member
      rw [isNode]
      exact (holds page member node isNode).readNode
    · rw [numPages]
      exact shape.inFile

theorem written_after {writes : List (Poke UInt8)} (inside : ∀ write ∈ writes, write.Within pageSize) {pageId : Nat}
    (nothing : file.behind = fun _ _ => 0) (isPage : file.pages[pageId]? = some (.after writes)) :
    file.Written pageId writes := by
  refine ⟨_, fun _ => 0, isPage, funext fun offset => ?_⟩
  rw [buffer]
  split
  · rename_i within
    rw [PageImage.after_bytes, List.getD_eq_getElem?_getD, bytesAt, List.getElem?_map, List.getElem?_range within,
      Option.map_some, Option.getD_some, Nat.zero_add]
  · rename_i beyond
    rw [nothing, Poke.applyAll_behind inside (Nat.le_of_not_lt beyond)]

theorem flushed_stores (represents : s.Represents stored) (typed : ∀ entry ∈ stored, TypedEntry entry) :
    s.flushed.Stores s := by
  have onFile : ∀ pageId < s.allocated, s.flushed.pages[pageId]? = some (s.pageImage pageId) := fun pageId within => by
    rw [BPlusTree.flushed, List.getElem?_map, List.getElem?_range within, Option.map_some]
  constructor
  · refine written_after (header_roundTrip represents.root_lt).inside rfl
      ((onFile kRootHeaderPageId represents.header).trans ?_)
    rw [BPlusTree.pageImage, if_pos rfl]
  · intro pageId node reaches isNode
    rcases represents.shape with ⟨empty, -⟩ | ⟨h, tree, shape, perm⟩
    · exact absurd reaches (not_reaches_of_empty empty pageId)
    · have member := (shape.reaches_iff represents.room).mp reaches
      obtain ⟨positive, within⟩ := shape.inFile pageId member
      have encodable := shape.encodable represents.room (fun entry isEntry => typed entry (perm.mem_iff.mp isEntry)) member
        isNode
      obtain ⟨writes, serialized, inside, -⟩ := serialize_readsAs encodable
      refine ⟨writes, serialized, written_after inside rfl ?_⟩
      have notHeader : pageId ≠ RawNode.kRootHeaderPageId := Nat.ne_of_gt positive
      rw [onFile pageId within, BPlusTree.pageImage, if_neg notHeader, isNode, Option.elim_some, serialized, Option.getD_some]

/-- What the bytes of a file show, if its tree stores these entries: nothing outside of a page is read for it. -/
structure Shows (file : RawFile) (tree : BPlusTree) (stored : List (Int × RID)) : Prop where
  search : ∀ key, ∃ rids, (file.search key).Gives pageSize (.ok rids) ∧
    rids.Perm ((stored.filter fun entry => entry.1 = key).map Prod.snd)
  height : ∃ levels, file.height.Gives pageSize (.ok levels) ∧ levels ≤ 6 ∧ (levels = 0 ↔ stored = [])
  scan : tree.leafCount ≤ kMaxTraversalSteps → ∃ listed, file.rangeScanAll.Gives pageSize (.ok listed) ∧
    listed.Perm stored ∧ (listed.map Prod.fst).Pairwise (· ≤ ·)
  exceeded : kMaxTraversalSteps < tree.leafCount → file.rangeScanAll.Gives pageSize (.error traversalStepsExceeded)

theorem Stores.shows (stores : file.Stores s) (represents : s.Represents stored)
    (typed : ∀ entry ∈ stored, TypedEntry entry) : file.Shows s stored := by
  have scanned := stores.rangeScanAll represents typed
  refine ⟨fun key => ?_, ?_, fun few => ?_, fun many => ?_⟩
  · obtain ⟨rids, found, perm⟩ := represents.search key
    have searched := stores.search represents typed key
    rw [found] at searched
    exact ⟨rids, searched, perm⟩
  · obtain ⟨levels, isHeight, low, empty, -⟩ := represents.height
    have measured := stores.height represents typed
    rw [isHeight] at measured
    exact ⟨levels, measured, low, empty⟩
  · rcases represents.shape with ⟨empty, rfl⟩ | ⟨h, tree, shape, perm⟩
    · rw [BPlusTree.rangeScanAll, BPlusTree.rangeScan, if_pos empty] at scanned
      exact ⟨[], scanned, List.Perm.refl _, List.Pairwise.nil⟩
    · have shallow := Nat.le_of_lt (shape.height_lt_steps represents.room)
      rw [(shape.skeleton.size shape.branching represents.room).2] at few
      rw [BPlusTree.rangeScanAll, shape.skeleton.rangeScan shape.branching represents.room, if_pos ⟨shallow, few⟩] at scanned
      exact ⟨entries tree, scanned, perm, shape.fits.sorted.1⟩
  · rcases represents.shape with ⟨empty, -⟩ | ⟨h, tree, shape, perm⟩
    · rw [BPlusTree.leafCount, if_pos empty] at many
      exact absurd many (Nat.not_lt_zero _)
    · rw [(shape.skeleton.size shape.branching represents.room).2] at many
      rw [BPlusTree.rangeScanAll, shape.skeleton.rangeScan shape.branching represents.room,
        if_neg fun both => Nat.not_lt.mpr both.2 many] at scanned
      exact scanned

end RawFile

inductive IndexEvent
  | call (op : TreeOp)
  -- every page flushed, the file closed and opened again
  | reopen

namespace IndexEvent

def Typed : IndexEvent → Prop
  | .call (.insert key rid) => TypedEntry (key, rid)
  | _ => True

def onTree (tree : BPlusTree) : IndexEvent → Except BTreeError Bool × BPlusTree
  | .call op => op.apply.exec tree
  | .reopen => (.ok true, tree.flushed.openTree)

def onMultimap (stored : List (Int × RID)) : IndexEvent → Bool × List (Int × RID)
  | .call op => (op.answer stored, op.store stored)
  | .reopen => (true, stored)

theorem onMultimap_typed {stored : List (Int × RID)} (typed : ∀ entry ∈ stored, TypedEntry entry) {event : IndexEvent}
    (isTyped : event.Typed) : ∀ entry ∈ (event.onMultimap stored).2, TypedEntry entry := by
  cases event with
  | call op =>
    cases op with
    | insert key rid =>
      intro entry member
      rcases List.mem_cons.mp member with rfl | old
      · exact isTyped
      · exact typed entry old
    | delete key rid => exact fun entry member => typed entry (List.mem_of_mem_erase member)
  | reopen => exact typed

theorem onTree_represents {tree : BPlusTree} {stored : List (Int × RID)} (represents : tree.Represents stored)
    (typed : ∀ entry ∈ stored, TypedEntry entry) (event : IndexEvent)
    (few : ∀ key, ((event.onMultimap stored).2.map Prod.fst).count key ≤ kLeafMaxKeys)
    (room : (event.onTree tree).2.allocated < invalidPageId) :
    (event.onTree tree).1 = .ok (event.onMultimap stored).1 ∧
      (event.onTree tree).2.Represents (event.onMultimap stored).2 := by
  cases event with
  | call op =>
    obtain ⟨tree', done, stores⟩ := TreeOp.apply_exec represents op few
    rw [onTree, done] at room ⊢
    exact ⟨rfl, stores room⟩
  | reopen =>
    have stores := RawFile.flushed_stores represents typed
    exact ⟨rfl, stores.openTree_represents represents typed (by simp [BPlusTree.flushed])⟩

theorem run_represents (events : List IndexEvent) (typed : ∀ event ∈ events, event.Typed)
    (few : ∀ events', events' <+: events → ∀ key,
      ((Machine.after onMultimap [] events').map Prod.fst).count key ≤ kLeafMaxKeys)
    (room : ∀ events', events' <+: events → (Machine.after onTree {} events').allocated < invalidPageId) :
    Machine.answers onTree {} events = (Machine.answers onMultimap [] events).map Except.ok ∧
      (Machine.after onTree {} events).Represents (Machine.after onMultimap [] events) ∧
      ∀ entry ∈ Machine.after onMultimap [] events, TypedEntry entry := by
  obtain ⟨answered, represents, stored⟩ := Machine.simulates
    (fun (tree : BPlusTree) stored => tree.Represents stored ∧ ∀ entry ∈ stored, TypedEntry entry)
    (fun outcome answer => outcome = Except.ok answer) ⟨BPlusTree.represents_empty, by simp⟩
    (fun before event earlier related => by
      have fewHere := few _ earlier
      have roomHere := room _ earlier
      rw [Machine.after_snoc] at fewHere roomHere
      have isTyped := typed event (earlier.subset (List.mem_append_right _ (List.mem_singleton_self _)))
      obtain ⟨answers, represents⟩ := onTree_represents related.1 related.2 event fewHere roomHere
      exact ⟨answers, represents, onMultimap_typed related.2 isTyped⟩)
  refine ⟨?_, represents, stored⟩
  rw [← List.forall₂_eq_eq_eq, List.forall₂_map_right_iff]
  exact answered

/-- Insert, Delete and reopening in any order, from a new file on. Every call answers as on a multimap, flushing puts the
tree on its file, and whatever file it is on, the bytes there show what is stored. -/
theorem index_file_is_a_multimap (events : List IndexEvent) (typed : ∀ event ∈ events, event.Typed)
    (few : ∀ events', events' <+: events → ∀ key,
      ((Machine.after onMultimap [] events').map Prod.fst).count key ≤ kLeafMaxKeys)
    (room : ∀ events', events' <+: events → (Machine.after onTree {} events').allocated < 2 ^ 32 - 1) :
    Machine.answers onTree {} events = (Machine.answers onMultimap [] events).map Except.ok ∧
      (Machine.after onTree {} events).flushed.Stores (Machine.after onTree {} events) ∧
      ∀ file : RawFile, file.Stores (Machine.after onTree {} events) →
        file.Shows (Machine.after onTree {} events) (Machine.after onMultimap [] events) := by
  obtain ⟨answered, represents, stored⟩ := run_represents events typed few room
  exact ⟨answered, RawFile.flushed_stores represents stored, fun file stores => stores.shows represents stored⟩

theorem onTree_allocated_le {tree : BPlusTree} {stored : List (Int × RID)} (represents : tree.Represents stored)
    (event : IndexEvent) (few : ∀ key, ((event.onMultimap stored).2.map Prod.fst).count key ≤ kLeafMaxKeys) :
    (event.onTree tree).2.allocated ≤ tree.allocated + 33 := by
  cases event with
  | call op =>
    cases op with
    | insert key rid =>
      have fewBefore := few key
      simp only [onMultimap, TreeOp.store, List.map_cons, List.count_cons_self] at fewBefore
      obtain ⟨tree', done, ⟨-, atMost⟩, -⟩ := BPlusTree.insert_exec represents rid fewBefore
      rw [onTree, TreeOp.apply, Fallible.exec_bind_ok done]
      exact atMost
    | delete key rid =>
      obtain ⟨tree', done, same, -⟩ := BPlusTree.delete_exec represents key rid
      rw [onTree, TreeOp.apply, done]
      exact same.le.trans (Nat.le_add_right _ _)
  | reopen =>
    have some := represents.header
    rw [onTree, RawFile.openTree, if_neg (by simp [BPlusTree.flushed]; omega)]
    simp [BPlusTree.flushed]

theorem room_of_short {events : List IndexEvent} (typed : ∀ event ∈ events, event.Typed)
    (few : ∀ events', events' <+: events → ∀ key,
      ((Machine.after onMultimap [] events').map Prod.fst).count key ≤ kLeafMaxKeys)
    (short : 33 * events.length + 1 < invalidPageId) :
    ∀ events', events' <+: events → (Machine.after onTree {} events').allocated < invalidPageId := by
  have within : ∀ events', events' <+: events →
      (Machine.after onTree {} events').Represents (Machine.after onMultimap [] events') ∧
        (∀ entry ∈ Machine.after onMultimap [] events', TypedEntry entry) ∧
        (Machine.after onTree {} events').allocated ≤ 33 * events'.length + 1 := by
    intro events' earlier
    induction events' using List.reverseRecOn with
    | nil => exact ⟨BPlusTree.represents_empty, by simp [Machine.after], by decide⟩
    | append_singleton before event ih =>
      obtain ⟨represents, stored, bound⟩ := ih ((List.prefix_append _ _).trans earlier)
      have fewHere := few _ earlier
      have shorter := earlier.length_le
      have isTyped := typed event (earlier.subset (List.mem_append_right _ (List.mem_singleton_self _)))
      rw [List.length_append, List.length_singleton] at shorter ⊢
      rw [Machine.after_snoc] at fewHere
      rw [Machine.after_snoc, Machine.after_snoc]
      have step := onTree_allocated_le represents event fewHere
      obtain ⟨-, after⟩ := onTree_represents represents stored event fewHere (by omega)
      exact ⟨after, onMultimap_typed stored isTyped, by omega⟩
  intro events' earlier
  have bound := (within events' earlier).2.2
  have shorter := earlier.length_le
  omega

def op? : IndexEvent → Option TreeOp
  | .call op => some op
  | .reopen => none

theorem after_onMultimap (stored : List (Int × RID)) (events : List IndexEvent) :
    Machine.after onMultimap stored events = TreeOp.storeAll (events.filterMap op?) stored := by
  induction events generalizing stored with
  | nil => rfl
  | cons event events ih =>
    cases event with
    | call op => exact ih (op.store stored)
    | reopen => exact ih stored

-- The keys fill two leaves. One of them is inserted and another one deleted behind the reopening.
def acrossReopen : List IndexEvent :=
  (TreeOp.ascending 292).map call ++ [.reopen, .call (.insert 292 ⟨292, 0⟩), .call (.delete 5 ⟨5, 0⟩), .reopen]

theorem acrossReopen_ops : acrossReopen.filterMap op? = TreeOp.ascending 293 ++ [.delete 5 ⟨5, 0⟩] := by
  have calls : ∀ ops : List TreeOp, (ops.map call).filterMap op? = ops := fun ops => by
    rw [List.filterMap_map]
    exact List.filterMap_some
  rw [acrossReopen, List.filterMap_append, calls, TreeOp.ascending_succ 292, List.append_assoc]
  rfl

theorem acrossReopen_few {events : List IndexEvent} (isPrefix : events <+: acrossReopen) (key : Int) :
    ((Machine.after onMultimap [] events).map Prod.fst).count key ≤ kLeafMaxKeys := by
  have ops := isPrefix.filterMap op?
  rw [acrossReopen_ops] at ops
  rw [after_onMultimap]
  rcases List.prefix_concat_iff.mp ops with whole | earlier
  · rw [whole, TreeOp.storeAll_append]
    exact ((List.erase_sublist.map _).count_le key).trans (TreeOp.ascending_count 293 key)
  · exact TreeOp.ascending_few earlier key

theorem acrossReopen_typed : ∀ event ∈ acrossReopen, event.Typed := by
  intro event member
  simp only [acrossReopen, List.mem_append, List.mem_map, TreeOp.ascending, List.mem_range] at member
  rcases member with ⟨_, ⟨i, small, rfl⟩, rfl⟩ | member
  · simp only [Typed, TypedEntry, RawNode.IsInt64, RawNode.IsRID]
    omega
  · simp only [List.mem_cons, List.not_mem_nil, or_false] at member
    rcases member with rfl | rfl | rfl | rfl
    all_goals simp [Typed, TypedEntry, RawNode.IsInt64, RawNode.IsRID]

theorem index_file_is_a_multimap_reopened :
    Machine.answers onTree {} acrossReopen = List.replicate 296 (.ok true) ∧
      (∃ node, (Machine.after onTree {} acrossReopen).pages (Machine.after onTree {} acrossReopen).rootPageId =
        some (.internal node)) ∧
      ((Machine.after onTree {} acrossReopen).flushed.search 292).Gives pageSize (.ok [⟨292, 0⟩]) ∧
      ((Machine.after onTree {} acrossReopen).flushed.search 5).Gives pageSize (.ok []) := by
  have room := room_of_short acrossReopen_typed (fun _ => acrossReopen_few) (by decide +kernel)
  obtain ⟨answered, isFlushed, shows⟩ := index_file_is_a_multimap acrossReopen acrossReopen_typed
    (fun _ => acrossReopen_few) room
  obtain ⟨-, represents, -⟩ := run_represents acrossReopen acrossReopen_typed (fun _ => acrossReopen_few) room
  have stored : Machine.after onMultimap [] acrossReopen = (TreeOp.storeAll (TreeOp.ascending 293) []).erase (5, ⟨5, 0⟩) := by
    rw [after_onMultimap, acrossReopen_ops, TreeOp.storeAll_append, TreeOp.storeAll, TreeOp.storeAll, TreeOp.store]
  obtain ⟨rids, found, perm⟩ := (shows _ isFlushed).search 292
  obtain ⟨gone, notFound, none⟩ := (shows _ isFlushed).search 5
  have only : rids = [⟨292, 0⟩] := by
    refine List.perm_singleton.mp (perm.trans (List.Perm.of_eq ?_))
    decide +kernel
  have nothing : gone = [] := by
    refine (none.trans (List.Perm.of_eq ?_)).eq_nil
    decide +kernel
  rw [only] at found
  rw [nothing] at notFound
  refine ⟨answered.trans (by decide +kernel), (represents.exists_internal ?_).2, found, notFound⟩
  rw [stored]
  decide +kernel

end IndexEvent

end FlintDB
