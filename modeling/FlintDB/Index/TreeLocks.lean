import FlintDB.Index.TreeShape
import FlintDB.Txn.CallSystem

set_option autoImplicit false

-- Search, RangeScanAll, Height, Insert and Delete as they run under a transaction: every LockPage call in its place,
-- every page access an action of its own.

namespace FlintDB

open Lib

abbrev TreeProgram := Program PageKey LockMode BPlusTree BTreeError

def kRootHeaderPageId : Nat := 0

namespace TreeProgram

variable (objectId : Nat)

def lockPage (pageId : Nat) (mode : LockMode) : TreeProgram Unit := Program.acquire ⟨objectId, pageId⟩ mode

def lockRoot (mode : LockMode) : TreeProgram Unit := lockPage objectId kRootHeaderPageId mode

def getRootPageId : TreeProgram Nat := Program.whole do return (← get).rootPageId

def fetchPage (pageId : Nat) : TreeProgram Node := Program.whole (BPlusTree.fetchPage pageId)

def storePage (pageId : Nat) (node : Node) : TreeProgram Unit := Program.whole (BPlusTree.storePage pageId node)

-- NewPage and the lock on what it gave.
def newPage : TreeProgram Nat := do
  let pid ← Program.whole BPlusTree.newPage
  lockPage objectId pid .kExclusive
  return pid

def orUndefined {α : Type} : Option α → TreeProgram α
  | some a => return a
  | none => .throw .undefined

def descend (key : Int) : Nat → Nat → TreeProgram LeafNode
  | 0, _ => .throw .traversalStepsExceeded
  | steps + 1, cur => do
    lockPage objectId cur .kShared
    match ← fetchPage cur with
    | .leaf leaf => return leaf
    | .internal node => descend key steps (← orUndefined node.children[upperBound node.keys key]?)

def search (key : Int) : TreeProgram (List RID) := do
  lockRoot objectId .kShared
  let root ← getRootPageId
  if root = invalidPageId then return []
  else
    let leaf ← descend objectId key kMaxTraversalSteps root
    return (leaf.entries.filter fun entry => entry.1 = key).map Prod.snd

def leftmostLeaf : Nat → Nat → TreeProgram LeafNode
  | 0, cur => do
    lockPage objectId cur .kShared
    match ← fetchPage cur with
    | .leaf leaf => return leaf
    | .internal _ => .throw .traversalStepsExceeded
  | steps + 1, cur => do
    lockPage objectId cur .kShared
    match ← fetchPage cur with
    | .leaf leaf => return leaf
    | .internal node => leftmostLeaf steps (← orUndefined node.children.head?)

def walkChain : Nat → LeafNode → TreeProgram (List (Int × RID))
  | 0, _ => .throw .traversalStepsExceeded
  | steps + 1, leaf =>
    if leaf.nextLeaf = invalidPageId then return leaf.entries
    else do
      lockPage objectId leaf.nextLeaf .kShared
      match ← fetchPage leaf.nextLeaf with
      | .leaf next => return leaf.entries ++ (← walkChain steps next)
      | .internal _ => .throw .undefined

def rangeScanAll : TreeProgram (List (Int × RID)) := do
  lockRoot objectId .kShared
  let root ← getRootPageId
  if root = invalidPageId then return []
  else
    let leaf ← leftmostLeaf objectId kMaxTraversalSteps root
    walkChain objectId kMaxTraversalSteps leaf

def heightFrom : Nat → Nat → TreeProgram Nat
  | 0, cur => do
    lockPage objectId cur .kShared
    match ← fetchPage cur with
    | .leaf _ => return 1
    | .internal _ => .throw .traversalStepsExceeded
  | steps + 1, cur => do
    lockPage objectId cur .kShared
    match ← fetchPage cur with
    | .leaf _ => return 1
    | .internal node =>
      let below ← heightFrom steps (← orUndefined node.children.head?)
      return below + 1

def height : TreeProgram Nat := do
  lockRoot objectId .kShared
  let root ← getRootPageId
  if root = invalidPageId then return 0 else heightFrom objectId kMaxTraversalSteps root

def finishLeaf (pageId : Nat) (leaf : LeafNode) : TreeProgram (Option SplitResult) :=
  if leaf.keys.length ≤ kLeafMaxKeys then do
    storePage pageId (.leaf leaf)
    return none
  else do
    let rightPid ← newPage objectId
    let (left, splitKey, right) :=
      leaf.split (findSplitBoundary leaf.keys (leaf.keys.length / 2)) rightPid
    storePage pageId (.leaf left)
    storePage rightPid (.leaf right)
    return some ⟨splitKey, rightPid⟩

def finishInternal (pageId : Nat) (node : InternalNode Nat) : TreeProgram (Option SplitResult) :=
  if node.keys.length ≤ kInternalMaxKeys then do
    storePage pageId (.internal node)
    return none
  else do
    let rightPid ← newPage objectId
    let (left, pushedUp, right) :=
      node.split (findSplitBoundary node.keys (node.keys.length / 2)) rightPid
    storePage pageId (.internal left)
    storePage rightPid (.internal right)
    return some ⟨pushedUp, rightPid⟩

def insertRecursive (key : Int) (rid : RID) : Nat → Nat → TreeProgram (Option SplitResult)
  | 0, _ => .throw .undefined
  | fuel + 1, pageId => do
    lockPage objectId pageId .kExclusive
    match ← fetchPage pageId with
    | .leaf leaf => finishLeaf objectId pageId (leaf.insert key rid)
    | .internal node =>
      let idx := upperBound node.keys key
      let child ← orUndefined node.children[idx]?
      match ← insertRecursive key rid fuel child with
      | none => return none
      | some childSplit =>
        finishInternal objectId pageId (node.insertChild idx childSplit.splitKey childSplit.newRightPageId)

def insert (key : Int) (rid : RID) : TreeProgram Unit := do
  lockRoot objectId .kExclusive
  let tree ← Program.whole get
  let root := tree.rootPageId
  if root = invalidPageId then
    let pid ← newPage objectId
    storePage pid (.leaf { pageId := pid, entries := [(key, rid)] })
    Program.whole (BPlusTree.setRootPageId pid)
  else
    match ← insertRecursive objectId key rid tree.allocated root with
    | none => return ()
    | some split =>
      let newRootPid ← newPage objectId
      storePage newRootPid (.internal
        { pageId := newRootPid, keys := [split.splitKey], children := [root, split.newRightPageId] })
      Program.whole (BPlusTree.setRootPageId newRootPid)

def lockChild (parent : InternalNode Nat) (pos : Nat) : TreeProgram Unit :=
  match parent.children[pos]? with
  | some pageId => lockPage objectId pageId .kExclusive
  | none => return ()

def lockChildIf (there : Bool) (parent : InternalNode Nat) (pos : Nat) : TreeProgram Unit :=
  if there then lockChild objectId parent pos else return ()

def lockLeafSibling (parent : InternalNode Nat) (idx : Nat) : TreeProgram Unit :=
  if 0 < idx then lockChild objectId parent (idx - 1) else lockChild objectId parent (idx + 1)

def lockInternalSiblings (parent : InternalNode Nat) (idx : Nat) : TreeProgram Unit := do
  lockChildIf objectId (0 < idx) parent (idx - 1)
  let tree ← Program.whole get
  if 0 < idx ∧ canLend tree.readInternal parent (idx - 1) then return ()
  else
    lockChildIf objectId (idx + 1 < parent.children.length) parent (idx + 1)
    if idx + 1 < parent.children.length ∧ canLend tree.readInternal parent (idx + 1) then return ()
    else lockLeafSibling objectId parent idx

def storeMended {N : Type} (wrap : N → Node) (pageId : N → Nat) : Mended N → TreeProgram Unit
  | .merged node => storePage (pageId node) (wrap node)
  | .shifted left _ right => do
    storePage (pageId left) (wrap left)
    storePage (pageId right) (wrap right)

-- The child and the sibling are read in one action here: both are locked by then.
def fixUnderflow (parent : InternalNode Nat) (idx : Nat) : TreeProgram (InternalNode Nat) := do
  let childPid ← orUndefined parent.children[idx]?
  lockPage objectId childPid .kExclusive
  match ← fetchPage childPid with
  | .leaf _ =>
    lockLeafSibling objectId parent idx
    let tree ← Program.whole get
    let (pos, mended) ← orUndefined (fixLeaf tree.readLeaf parent idx)
    storeMended .leaf LeafNode.pageId mended
    return mended.adjust parent pos
  | .internal _ =>
    lockInternalSiblings objectId parent idx
    let tree ← Program.whole get
    let (pos, mended) ← orUndefined (fixInternal tree.readInternal parent idx)
    storeMended .internal InternalNode.pageId mended
    return mended.adjust parent pos

def finishDelete (pageId : Nat) (isRoot : Bool) (node : InternalNode Nat) (idx : Nat) (underflow : Bool) :
    TreeProgram DeleteResult := do
  let node ← repair node
  storePage pageId (.internal node)
  return ⟨true, !isRoot && node.keys.length < kInternalMinKeys⟩
where
  repair (node : InternalNode Nat) : TreeProgram (InternalNode Nat) :=
    if underflow then fixUnderflow objectId node idx else pure node

def deleteRecursive (key : Int) (rid : RID) : Nat → Nat → Bool → TreeProgram DeleteResult
  | 0, _, _ => .throw .undefined
  | fuel + 1, pageId, isRoot => do
    lockPage objectId pageId .kExclusive
    match ← fetchPage pageId with
    | .leaf leaf =>
      match leaf.position key rid with
      | none => return ⟨false, false⟩
      | some pos =>
        let leaf := leaf.erase pos
        storePage pageId (.leaf leaf)
        return ⟨true, !isRoot && leaf.keys.length < kLeafMinKeys⟩
    | .internal node =>
      let idx := upperBound node.keys key
      let child ← orUndefined node.children[idx]?
      let childResult ← deleteRecursive key rid fuel child false
      if childResult.found then finishDelete objectId pageId isRoot node idx childResult.underflow
      else return ⟨false, false⟩

def collapseRoot (root : Nat) : TreeProgram Unit := do
  match ← fetchPage root with
  | .leaf leaf =>
    if leaf.keys = [] then Program.whole (BPlusTree.setRootPageId invalidPageId) else return ()
  | .internal node =>
    match node.children with
    | [only] => Program.whole (BPlusTree.setRootPageId only)
    | _ => return ()

def delete (key : Int) (rid : RID) : TreeProgram Bool := do
  lockRoot objectId .kExclusive
  let tree ← Program.whole get
  let root := tree.rootPageId
  if root = invalidPageId then return false
  else
    let result ← deleteRecursive objectId key rid tree.allocated root true
    if result.found then
      collapseRoot root
      return true
    else return false

section Alone

open Program Fallible

variable {objectId : Nat} {tree : BPlusTree}

theorem alone_orUndefined {α : Type} (found : Option α) :
    (orUndefined found).alone.exec = (BPlusTree.orUndefined found).exec := by
  cases found <;> rfl

theorem alone_newPage : (newPage objectId).alone.exec = BPlusTree.newPage.exec := by
  rw [← bind_pure BPlusTree.newPage]
  exact alone_whole_bind fun pid => rfl

theorem alone_lockChild (parent : InternalNode Nat) (pos : Nat) (s : BPlusTree) :
    (lockChild objectId parent pos).alone.exec s = (.ok (), s) := by
  rw [lockChild]
  cases parent.children[pos]? <;> rfl

theorem alone_lockLeafSibling (parent : InternalNode Nat) (idx : Nat) (s : BPlusTree) :
    (lockLeafSibling objectId parent idx).alone.exec s = (.ok (), s) := by
  rw [lockLeafSibling]
  split <;> exact alone_lockChild parent _ s

theorem exec_alone_fetch_bind {β : Type} (pageId : Nat) (f : Node → TreeProgram β) :
    (fetchPage pageId >>= f).alone.exec tree =
      match tree.pages pageId with
      | some node => (f node).alone.exec tree
      | none => (.error .undefined, tree) := by
  rw [exec_alone_bind, exec_bind, fetchPage, exec_alone_whole, BPlusTree.fetchPage,
    exec_bind_ok (exec_get tree)]
  cases tree.pages pageId <;> rfl

theorem exec_alone_root_bind {β : Type} (mode : LockMode) (f : Nat → TreeProgram β) :
    (lockRoot objectId mode >>= fun _ => getRootPageId >>= f).alone.exec tree =
      (f tree.rootPageId).alone.exec tree := rfl

theorem alone_descend (key : Int) (steps cur : Nat) :
    (descend objectId key steps cur).alone.exec tree = (tree.descend key steps cur, tree) := by
  induction steps generalizing cur with
  | zero => rfl
  | succ steps ih =>
    refine (exec_alone_fetch_bind cur _).trans ?_
    rw [BPlusTree.descend]
    rcases tree.pages cur with _ | leaf | node
    · rfl
    · rfl
    · simp only
      rcases node.children[upperBound node.keys key]? with _ | child
      · rfl
      · exact ih child

theorem alone_search (key : Int) :
    (search objectId key).alone.exec tree = (tree.search key, tree) := by
  refine (exec_alone_root_bind .kShared _).trans ?_
  rw [BPlusTree.search]
  split
  · rfl
  · rw [exec_alone_bind, exec_bind, alone_descend]
    cases tree.descend key kMaxTraversalSteps tree.rootPageId <;> rfl

theorem alone_leftmostLeaf (steps cur : Nat) :
    (leftmostLeaf objectId steps cur).alone.exec tree = (tree.leftmostLeaf steps cur, tree) := by
  induction steps generalizing cur with
  | zero =>
    refine (exec_alone_fetch_bind cur _).trans ?_
    rw [BPlusTree.leftmostLeaf]
    rcases tree.pages cur with _ | leaf | node <;> rfl
  | succ steps ih =>
    refine (exec_alone_fetch_bind cur _).trans ?_
    rw [BPlusTree.leftmostLeaf]
    rcases tree.pages cur with _ | leaf | node
    · rfl
    · rfl
    · simp only
      rcases node.children.head? with _ | child
      · rfl
      · exact ih child

theorem alone_walkChain (steps : Nat) (leaf : LeafNode) :
    (walkChain objectId steps leaf).alone.exec tree = (tree.walkChain steps leaf, tree) := by
  induction steps generalizing leaf with
  | zero => rfl
  | succ steps ih =>
    rw [walkChain, BPlusTree.walkChain]
    split
    · rfl
    · refine (exec_alone_fetch_bind leaf.nextLeaf _).trans ?_
      rw [BPlusTree.readLeaf]
      rcases tree.pages leaf.nextLeaf with _ | next | node
      · rfl
      · simp only
        rw [exec_alone_bind, exec_bind, ih]
        cases tree.walkChain steps next <;> rfl
      · rfl

theorem alone_rangeScanAll :
    (rangeScanAll objectId).alone.exec tree = (tree.rangeScanAll, tree) := by
  refine (exec_alone_root_bind .kShared _).trans ?_
  rw [BPlusTree.rangeScanAll, BPlusTree.rangeScan]
  split
  · rfl
  · rw [exec_alone_bind, exec_bind, alone_leftmostLeaf]
    rcases tree.leftmostLeaf kMaxTraversalSteps tree.rootPageId with error | leaf
    · rfl
    · exact alone_walkChain _ leaf

theorem alone_heightFrom (steps cur : Nat) :
    (heightFrom objectId steps cur).alone.exec tree = (tree.heightFrom steps cur, tree) := by
  induction steps generalizing cur with
  | zero =>
    refine (exec_alone_fetch_bind cur _).trans ?_
    rw [BPlusTree.heightFrom]
    rcases tree.pages cur with _ | leaf | node <;> rfl
  | succ steps ih =>
    refine (exec_alone_fetch_bind cur _).trans ?_
    rw [BPlusTree.heightFrom]
    rcases tree.pages cur with _ | leaf | node
    · rfl
    · rfl
    · simp only
      rcases node.children.head? with _ | child
      · rfl
      · show (heightFrom objectId steps child >>= fun below => pure (below + 1)).alone.exec tree = _
        rw [exec_alone_bind, exec_bind, ih]
        simp only
        cases tree.heightFrom steps child <;> rfl

theorem alone_height : (height objectId).alone.exec tree = (tree.height, tree) := by
  refine (exec_alone_root_bind .kShared _).trans ?_
  rw [BPlusTree.height]
  split
  · rfl
  · exact alone_heightFrom _ _

theorem alone_finishLeaf (pageId : Nat) (leaf : LeafNode) :
    (finishLeaf objectId pageId leaf).alone.exec = (BPlusTree.finishLeaf pageId leaf).exec := by
  rw [finishLeaf, BPlusTree.finishLeaf]
  split
  · exact alone_whole_bind fun _ => rfl
  · refine alone_bind alone_newPage fun rightPid => ?_
    exact alone_whole_bind fun _ => alone_whole_bind fun _ => rfl

theorem alone_finishInternal (pageId : Nat) (node : InternalNode Nat) :
    (finishInternal objectId pageId node).alone.exec = (BPlusTree.finishInternal pageId node).exec := by
  rw [finishInternal, BPlusTree.finishInternal]
  split
  · exact alone_whole_bind fun _ => rfl
  · refine alone_bind alone_newPage fun rightPid => ?_
    exact alone_whole_bind fun _ => alone_whole_bind fun _ => rfl

theorem alone_insertRecursive (key : Int) (rid : RID) (fuel pageId : Nat) :
    (insertRecursive objectId key rid fuel pageId).alone.exec =
      (BPlusTree.insertRecursive key rid fuel pageId).exec := by
  induction fuel generalizing pageId with
  | zero => rfl
  | succ fuel ih =>
    refine alone_acquire_bind (alone_whole_bind fun node => ?_)
    cases node with
    | leaf leaf => exact alone_finishLeaf pageId _
    | internal node =>
      refine alone_bind (alone_orUndefined _) fun child => alone_bind (ih child) fun split => ?_
      cases split with
      | none => rfl
      | some childSplit => exact alone_finishInternal pageId _

theorem alone_insert (key : Int) (rid : RID) :
    (insert objectId key rid).alone.exec = (BPlusTree.insert key rid).exec := by
  refine alone_acquire_bind (alone_whole_bind fun before => ?_)
  simp only
  split
  · refine alone_bind alone_newPage fun pid => alone_whole_bind fun _ => alone_whole _
  · refine alone_bind (alone_insertRecursive key rid _ _) fun split => ?_
    cases split with
    | none => rfl
    | some split => exact alone_bind alone_newPage fun pid => alone_whole_bind fun _ => alone_whole _

theorem alone_storeMended {N : Type} (wrap : N → Node) (pageId : N → Nat) (mended : Mended N) :
    (storeMended wrap pageId mended).alone.exec = (BPlusTree.storeMended wrap pageId mended).exec := by
  cases mended with
  | merged node => exact alone_whole _
  | shifted left key right => exact alone_whole_bind fun _ => alone_whole _

theorem exec_alone_get_bind {β : Type} (f : BPlusTree → TreeProgram β) :
    (Program.whole get >>= f).alone.exec tree = (f tree).alone.exec tree := rfl

theorem alone_lockInternalSiblings (parent : InternalNode Nat) (idx : Nat) (s : BPlusTree) :
    (lockInternalSiblings objectId parent idx).alone.exec s = (.ok (), s) := by
  have lockIf : ∀ there pos, (lockChildIf objectId there parent pos).alone.exec s = (.ok (), s) := by
    intro there pos
    cases there with
    | false => rfl
    | true => exact alone_lockChild parent pos s
  rw [lockInternalSiblings, exec_alone_bind, exec_bind_ok (lockIf _ _), exec_alone_get_bind]
  split
  · rfl
  · rw [exec_alone_bind, exec_bind_ok (lockIf _ _)]
    split
    · rfl
    · exact alone_lockLeafSibling parent idx s

theorem alone_fixUnderflow (parent : InternalNode Nat) (idx : Nat) :
    (fixUnderflow objectId parent idx).alone.exec = (BPlusTree.fixUnderflow parent idx).exec := by
  refine alone_bind (alone_orUndefined _) fun childPid => ?_
  funext s
  refine (exec_alone_fetch_bind childPid _).trans ?_
  rw [exec_bind_ok (exec_get s), exec_bind, BPlusTree.fetchPage, exec_bind_ok (exec_get s)]
  rcases s.pages childPid with _ | leaf | node
  · rfl
  · refine (exec_alone_bind _ _ s).trans ?_
    rw [exec_bind_ok (alone_lockLeafSibling parent idx s), exec_alone_get_bind]
    refine congrFun (alone_bind (alone_orUndefined _) fun found => ?_) s
    exact alone_bind (alone_storeMended _ _ _) fun _ => rfl
  · refine (exec_alone_bind _ _ s).trans ?_
    rw [exec_bind_ok (alone_lockInternalSiblings parent idx s), exec_alone_get_bind]
    refine congrFun (alone_bind (alone_orUndefined _) fun found => ?_) s
    exact alone_bind (alone_storeMended _ _ _) fun _ => rfl

theorem alone_finishDelete (pageId : Nat) (isRoot : Bool) (node : InternalNode Nat) (idx : Nat)
    (underflow : Bool) : (finishDelete objectId pageId isRoot node idx underflow).alone.exec =
      (BPlusTree.finishDelete pageId isRoot node idx underflow).exec := by
  refine alone_bind ?_ fun node => alone_whole_bind fun _ => rfl
  rw [finishDelete.repair, BPlusTree.finishDelete.repair]
  split
  · exact alone_fixUnderflow node idx
  · rfl

theorem alone_deleteRecursive (key : Int) (rid : RID) (fuel pageId : Nat) (isRoot : Bool) :
    (deleteRecursive objectId key rid fuel pageId isRoot).alone.exec =
      (BPlusTree.deleteRecursive key rid fuel pageId isRoot).exec := by
  induction fuel generalizing pageId isRoot with
  | zero => rfl
  | succ fuel ih =>
    refine alone_acquire_bind (alone_whole_bind fun node => ?_)
    cases node with
    | leaf leaf =>
      simp only
      cases leaf.position key rid with
      | none => rfl
      | some pos => exact alone_whole_bind fun _ => rfl
    | internal node =>
      refine alone_bind (alone_orUndefined _) fun child => alone_bind (ih child false) fun result => ?_
      split
      · exact alone_finishDelete ..
      · rfl

theorem alone_collapseRoot (root : Nat) :
    (collapseRoot root).alone.exec = (BPlusTree.collapseRoot root).exec := by
  refine alone_whole_bind fun node => ?_
  cases node with
  | leaf leaf =>
    simp only
    split
    · exact alone_whole _
    · rfl
  | internal node =>
    simp only
    rcases node.children with _ | ⟨only, _ | ⟨_, _⟩⟩
    · rfl
    · exact alone_whole _
    · rfl

theorem alone_delete (key : Int) (rid : RID) :
    (delete objectId key rid).alone.exec = (BPlusTree.delete key rid).exec := by
  refine alone_acquire_bind (alone_whole_bind fun before => ?_)
  simp only
  split
  · rfl
  · refine alone_bind (alone_deleteRecursive key rid _ _ _) fun result => ?_
    split
    · exact alone_bind (alone_collapseRoot _) fun _ => rfl
    · rfl

end Alone

section Locks

open Program

variable {objectId : Nat}

def OfTree (objectId : Nat) (key : PageKey) (_ : LockMode) : Prop := key.objectId = objectId

theorem locks_lockPage (pageId : Nat) (mode : LockMode) :
    (lockPage objectId pageId mode).Locks (OfTree objectId) := Locks.acquire rfl

theorem locks_pure {α : Type} (a : α) : (pure a : TreeProgram α).Locks (OfTree objectId) := trivial

theorem locks_orUndefined {α : Type} (found : Option α) : (orUndefined found).Locks (OfTree objectId) := by
  cases found <;> trivial

theorem locks_newPage : (newPage objectId).Locks (OfTree objectId) :=
  (Locks.whole _).bind fun pid => (locks_lockPage pid _).bind fun _ => locks_pure pid

theorem locks_lockChild (parent : InternalNode Nat) (pos : Nat) :
    (lockChild objectId parent pos).Locks (OfTree objectId) := by
  rw [lockChild]
  split
  · exact locks_lockPage _ _
  · trivial

theorem locks_lockChildIf (there : Bool) (parent : InternalNode Nat) (pos : Nat) :
    (lockChildIf objectId there parent pos).Locks (OfTree objectId) := by
  cases there with
  | false => trivial
  | true => exact locks_lockChild parent pos

theorem locks_lockLeafSibling (parent : InternalNode Nat) (idx : Nat) :
    (lockLeafSibling objectId parent idx).Locks (OfTree objectId) := by
  rw [lockLeafSibling]
  split <;> exact locks_lockChild parent _

theorem locks_lockInternalSiblings (parent : InternalNode Nat) (idx : Nat) :
    (lockInternalSiblings objectId parent idx).Locks (OfTree objectId) := by
  refine (locks_lockChildIf _ parent _).bind fun _ => (Locks.whole _).bind fun tree => ?_
  split
  · trivial
  · refine (locks_lockChildIf _ parent _).bind fun _ => ?_
    split
    · trivial
    · exact locks_lockLeafSibling parent idx

theorem locks_storeMended {N : Type} (wrap : N → Node) (pageId : N → Nat) (mended : Mended N) :
    (storeMended wrap pageId mended).Locks (OfTree objectId) := by
  cases mended with
  | merged node => exact Locks.whole _
  | shifted left key right => exact (Locks.whole _).bind fun _ => Locks.whole _

theorem locks_fixUnderflow (parent : InternalNode Nat) (idx : Nat) :
    (fixUnderflow objectId parent idx).Locks (OfTree objectId) := by
  refine (locks_orUndefined _).bind fun childPid => (locks_lockPage childPid _).bind fun _ =>
    (Locks.whole _).bind fun node => ?_
  cases node with
  | leaf leaf =>
    refine (locks_lockLeafSibling parent idx).bind fun _ => (Locks.whole _).bind fun tree => ?_
    exact (locks_orUndefined _).bind fun found => (locks_storeMended _ _ _).bind fun _ => locks_pure _
  | internal node =>
    refine (locks_lockInternalSiblings parent idx).bind fun _ => (Locks.whole _).bind fun tree => ?_
    exact (locks_orUndefined _).bind fun found => (locks_storeMended _ _ _).bind fun _ => locks_pure _

theorem locks_finishLeaf (pageId : Nat) (leaf : LeafNode) :
    (finishLeaf objectId pageId leaf).Locks (OfTree objectId) := by
  rw [finishLeaf]
  split
  · exact (Locks.whole _).bind fun _ => locks_pure _
  · exact locks_newPage.bind fun pid => (Locks.whole _).bind fun _ => (Locks.whole _).bind fun _ => locks_pure _

theorem locks_finishInternal (pageId : Nat) (node : InternalNode Nat) :
    (finishInternal objectId pageId node).Locks (OfTree objectId) := by
  rw [finishInternal]
  split
  · exact (Locks.whole _).bind fun _ => locks_pure _
  · exact locks_newPage.bind fun pid => (Locks.whole _).bind fun _ => (Locks.whole _).bind fun _ => locks_pure _

theorem locks_insertRecursive (key : Int) (rid : RID) (fuel pageId : Nat) :
    (insertRecursive objectId key rid fuel pageId).Locks (OfTree objectId) := by
  induction fuel generalizing pageId with
  | zero => trivial
  | succ fuel ih =>
    refine (locks_lockPage pageId _).bind fun _ => (Locks.whole _).bind fun node => ?_
    cases node with
    | leaf leaf => exact locks_finishLeaf pageId _
    | internal node =>
      refine (locks_orUndefined _).bind fun child => (ih child).bind fun split => ?_
      cases split with
      | none => trivial
      | some childSplit => exact locks_finishInternal pageId _

theorem locks_insert (key : Int) (rid : RID) : (insert objectId key rid).Locks (OfTree objectId) := by
  refine (locks_lockPage _ _).bind fun _ => (Locks.whole _).bind fun tree => ?_
  simp only
  split
  · exact locks_newPage.bind fun pid => (Locks.whole _).bind fun _ => Locks.whole _
  · refine (locks_insertRecursive key rid _ _).bind fun split => ?_
    cases split with
    | none => trivial
    | some split => exact locks_newPage.bind fun pid => (Locks.whole _).bind fun _ => Locks.whole _

theorem locks_deleteRecursive (key : Int) (rid : RID) (fuel pageId : Nat) (isRoot : Bool) :
    (deleteRecursive objectId key rid fuel pageId isRoot).Locks (OfTree objectId) := by
  induction fuel generalizing pageId isRoot with
  | zero => trivial
  | succ fuel ih =>
    refine (locks_lockPage pageId _).bind fun _ => (Locks.whole _).bind fun node => ?_
    cases node with
    | leaf leaf =>
      simp only
      cases leaf.position key rid with
      | none => trivial
      | some pos => exact (Locks.whole _).bind fun _ => locks_pure _
    | internal node =>
      refine (locks_orUndefined _).bind fun child => (ih child false).bind fun result => ?_
      split
      · refine Locks.bind ?_ fun node => (Locks.whole _).bind fun _ => locks_pure _
        rw [finishDelete.repair]
        split
        · exact locks_fixUnderflow _ _
        · trivial
      · trivial

theorem locks_delete (key : Int) (rid : RID) : (delete objectId key rid).Locks (OfTree objectId) := by
  refine (locks_lockPage _ _).bind fun _ => (Locks.whole _).bind fun tree => ?_
  simp only
  split
  · trivial
  · refine (locks_deleteRecursive key rid _ _ _).bind fun result => ?_
    split
    · refine Locks.bind ((Locks.whole _).bind fun node => ?_) fun _ => locks_pure _
      cases node with
      | leaf leaf =>
        simp only
        split
        · exact Locks.whole _
        · trivial
      | internal node =>
        simp only
        split
        · exact Locks.whole _
        · trivial
    · trivial

end Locks

end TreeProgram

end FlintDB
