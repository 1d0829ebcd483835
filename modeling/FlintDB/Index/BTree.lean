import FlintDB.Index.BTreeNode
import FlintDB.Lib.Fallible

set_option autoImplicit false

-- The tree as its file holds it: nodes by page id, and the root's page id in the header page 0. The page bytes of a
-- node are the business of its codec; an operation here reads and writes whole nodes.

namespace FlintDB

open Lib

inductive Node
  | leaf (leaf : LeafNode)
  | internal (node : InternalNode Nat)
  deriving DecidableEq

structure BPlusTree where
  pages : Nat → Option Node := fun _ => none
  rootPageId : Nat := invalidPageId
  -- pages handed out so far, the header among them
  allocated : Nat := 1

inductive BTreeError
  | traversalStepsExceeded
  -- bytes that are no node, an index past the end of a vector, recursion without end: what the source
  -- does there is not defined
  | undefined
  deriving DecidableEq

abbrev BTreeM := Fallible BPlusTree BTreeError

structure SplitResult where
  splitKey : Int
  newRightPageId : Nat

structure DeleteResult where
  found : Bool
  underflow : Bool

namespace BPlusTree

def readLeaf (tree : BPlusTree) (pageId : Nat) : Option LeafNode :=
  match tree.pages pageId with
  | some (.leaf leaf) => some leaf
  | _ => none

def readInternal (tree : BPlusTree) (pageId : Nat) : Option (InternalNode Nat) :=
  match tree.pages pageId with
  | some (.internal node) => some node
  | _ => none

def writePage (tree : BPlusTree) (pageId : Nat) (node : Node) : BPlusTree :=
  { tree with pages := fun other => if other = pageId then some node else tree.pages other }

def descend (tree : BPlusTree) (key : Int) : Nat → Nat → Except BTreeError LeafNode
  | 0, _ => .error .traversalStepsExceeded
  | steps + 1, cur =>
    match tree.pages cur with
    | some (.leaf leaf) => .ok leaf
    | some (.internal node) =>
      match node.children[upperBound node.keys key]? with
      | some child => tree.descend key steps child
      | none => .error .undefined
    | none => .error .undefined

def search (tree : BPlusTree) (key : Int) : Except BTreeError (List RID) :=
  if tree.rootPageId = invalidPageId then .ok []
  else do
    let leaf ← tree.descend key kMaxTraversalSteps tree.rootPageId
    return (leaf.entries.filter fun entry => entry.1 = key).map Prod.snd

def leftmostLeaf (tree : BPlusTree) : Nat → Nat → Except BTreeError LeafNode
  | 0, cur =>
    match tree.pages cur with
    | some (.leaf leaf) => .ok leaf
    | some (.internal _) => .error .traversalStepsExceeded
    | none => .error .undefined
  | steps + 1, cur =>
    match tree.pages cur with
    | some (.leaf leaf) => .ok leaf
    | some (.internal node) =>
      match node.children.head? with
      | some child => tree.leftmostLeaf steps child
      | none => .error .undefined
    | none => .error .undefined

def walkChain (tree : BPlusTree) : Nat → LeafNode → Except BTreeError (List (Int × RID))
  | 0, _ => .error .traversalStepsExceeded
  | steps + 1, leaf =>
    if leaf.nextLeaf = invalidPageId then .ok leaf.entries
    else
      match tree.readLeaf leaf.nextLeaf with
      | some next => do return leaf.entries ++ (← tree.walkChain steps next)
      | none => .error .undefined

-- RangeScanAll with another limit in place of kMaxTraversalSteps.
def rangeScan (tree : BPlusTree) (maxSteps : Nat) : Except BTreeError (List (Int × RID)) :=
  if tree.rootPageId = invalidPageId then .ok []
  else do
    let leaf ← tree.leftmostLeaf maxSteps tree.rootPageId
    tree.walkChain maxSteps leaf

def rangeScanAll (tree : BPlusTree) : Except BTreeError (List (Int × RID)) :=
  tree.rangeScan kMaxTraversalSteps

def fetchPage (pageId : Nat) : BTreeM Node := do
  match (← get).pages pageId with
  | some node => return node
  | none => throw .undefined

def storePage (pageId : Nat) (node : Node) : BTreeM Unit := modify (·.writePage pageId node)

-- next_page_id_ is a uint32_t.
def wrapPageId (count : Nat) : Nat := count % 2 ^ 32

def newPage : BTreeM Nat := do
  let tree ← get
  set { tree with allocated := tree.allocated + 1 }
  return wrapPageId tree.allocated

def setRootPageId (pageId : Nat) : BTreeM Unit := modify ({ · with rootPageId := pageId })

def orUndefined {α : Type} : Option α → BTreeM α
  | some a => return a
  | none => throw .undefined

@[simp] theorem writePage_pages (tree : BPlusTree) (pageId other : Nat) (node : Node) :
    (tree.writePage pageId node).pages other = if other = pageId then some node else tree.pages other :=
  rfl

@[simp] theorem writePage_allocated (tree : BPlusTree) (pageId : Nat) (node : Node) :
    (tree.writePage pageId node).allocated = tree.allocated := rfl

@[simp] theorem writePage_rootPageId (tree : BPlusTree) (pageId : Nat) (node : Node) :
    (tree.writePage pageId node).rootPageId = tree.rootPageId := rfl

theorem fetchPage_exec {tree : BPlusTree} {pageId : Nat} {node : Node}
    (stored : tree.pages pageId = some node) : (fetchPage pageId).exec tree = (.ok node, tree) := by
  rw [fetchPage, Fallible.exec_bind_ok (Fallible.exec_get tree), stored]
  rfl

@[simp] theorem storePage_exec (tree : BPlusTree) (pageId : Nat) (node : Node) :
    (storePage pageId node).exec tree = (.ok (), tree.writePage pageId node) := rfl

theorem wrapPageId_of_lt {count : Nat} (small : count < 2 ^ 32) : wrapPageId count = count :=
  Nat.mod_eq_of_lt small

@[simp] theorem newPage_exec (tree : BPlusTree) :
    newPage.exec tree = (.ok (wrapPageId tree.allocated), { tree with allocated := tree.allocated + 1 }) :=
  rfl

@[simp] theorem setRootPageId_exec (tree : BPlusTree) (pageId : Nat) :
    (setRootPageId pageId).exec tree = (.ok (), { tree with rootPageId := pageId }) := rfl

@[simp] theorem orUndefined_exec {α : Type} (tree : BPlusTree) (a : α) :
    (orUndefined (some a)).exec tree = (.ok a, tree) := rfl

-- The end of InsertRecursive on a leaf: write it, or split it where it overflowed.
def finishLeaf (pageId : Nat) (leaf : LeafNode) : BTreeM (Option SplitResult) :=
  if leaf.keys.length ≤ kLeafMaxKeys then do
    storePage pageId (.leaf leaf)
    return none
  else do
    let rightPid ← newPage
    let (left, splitKey, right) :=
      leaf.split (findSplitBoundary leaf.keys (leaf.keys.length / 2)) rightPid
    storePage pageId (.leaf left)
    storePage rightPid (.leaf right)
    return some ⟨splitKey, rightPid⟩

def finishInternal (pageId : Nat) (node : InternalNode Nat) : BTreeM (Option SplitResult) :=
  if node.keys.length ≤ kInternalMaxKeys then do
    storePage pageId (.internal node)
    return none
  else do
    let rightPid ← newPage
    let (left, pushedUp, right) :=
      node.split (findSplitBoundary node.keys (node.keys.length / 2)) rightPid
    storePage pageId (.internal left)
    storePage rightPid (.internal right)
    return some ⟨pushedUp, rightPid⟩

def insertRecursive (key : Int) (rid : RID) : Nat → Nat → BTreeM (Option SplitResult)
  | 0, _ => throw .undefined
  | fuel + 1, pageId => do
    match ← fetchPage pageId with
    | .leaf leaf => finishLeaf pageId (leaf.insert key rid)
    | .internal node =>
      let idx := upperBound node.keys key
      let child ← orUndefined node.children[idx]?
      match ← insertRecursive key rid fuel child with
      | none => return none
      | some childSplit =>
        finishInternal pageId (node.insertChild idx childSplit.splitKey childSplit.newRightPageId)

-- No path through a tree is longer than its pages are many: that is the fuel.
def insert (key : Int) (rid : RID) : BTreeM Unit := do
  let tree ← get
  let root := tree.rootPageId
  if root = invalidPageId then
    let pid ← newPage
    storePage pid (.leaf { pageId := pid, entries := [(key, rid)] })
    setRootPageId pid
  else
    match ← insertRecursive key rid tree.allocated root with
    | none => return ()
    | some split =>
      let newRootPid ← newPage
      storePage newRootPid (.internal
        { pageId := newRootPid, keys := [split.splitKey], children := [root, split.newRightPageId] })
      setRootPageId newRootPid

-- Write back the neighbours FixUnderflow has changed.
def storeMended {N : Type} (wrap : N → Node) (pageId : N → Nat) : Mended N → BTreeM Unit
  | .merged node => storePage (pageId node) (wrap node)
  | .shifted left _ right => do
    storePage (pageId left) (wrap left)
    storePage (pageId right) (wrap right)

def fixUnderflow (parent : InternalNode Nat) (idx : Nat) : BTreeM (InternalNode Nat) := do
  let childPid ← orUndefined parent.children[idx]?
  let tree ← get
  match ← fetchPage childPid with
  | .leaf _ =>
    let (pos, mended) ← orUndefined (fixLeaf tree.readLeaf parent idx)
    storeMended .leaf LeafNode.pageId mended
    return mended.adjust parent pos
  | .internal _ =>
    let (pos, mended) ← orUndefined (fixInternal tree.readInternal parent idx)
    storeMended .internal InternalNode.pageId mended
    return mended.adjust parent pos

-- The end of DeleteRecursive on an internal node: repair the child if it underflowed, write the node.
def finishDelete (pageId : Nat) (isRoot : Bool) (node : InternalNode Nat) (idx : Nat) (underflow : Bool) :
    BTreeM DeleteResult := do
  let node ← repair node
  storePage pageId (.internal node)
  return ⟨true, !isRoot && node.keys.length < kInternalMinKeys⟩
where
  repair (node : InternalNode Nat) : BTreeM (InternalNode Nat) :=
    if underflow then fixUnderflow node idx else pure node

def deleteRecursive (key : Int) (rid : RID) : Nat → Nat → Bool → BTreeM DeleteResult
  | 0, _, _ => throw .undefined
  | fuel + 1, pageId, isRoot => do
    match ← fetchPage pageId with
    | .leaf leaf =>
      match leaf.position key rid with
      | none => return ⟨false, false⟩
      | some pos =>
        let leaf := leaf.erase pos
        storePage pageId (.leaf leaf)
        return ⟨true, !isRoot && leaf.keys.length < kLeafMinKeys⟩
    | .internal node =>
      let idx := upperBound node.keys key
      let child ← orUndefined node.children[idx]?
      let childResult ← deleteRecursive key rid fuel child false
      if childResult.found then finishDelete pageId isRoot node idx childResult.underflow
      else return ⟨false, false⟩

def collapseRoot (root : Nat) : BTreeM Unit := do
  match ← fetchPage root with
  | .leaf leaf => if leaf.keys = [] then setRootPageId invalidPageId else return ()
  | .internal node =>
    match node.children with
    | [only] => setRootPageId only
    | _ => return ()

def delete (key : Int) (rid : RID) : BTreeM Bool := do
  let tree ← get
  let root := tree.rootPageId
  if root = invalidPageId then return false
  else
    let result ← deleteRecursive key rid tree.allocated root true
    if result.found then
      collapseRoot root
      return true
    else return false

def zeroNode : Node := .internal { pageId := 0, keys := [], children := [0] }

def revert (start tree : BPlusTree) : BPlusTree :=
  { start with
    pages := fun pageId =>
      if start.allocated ≤ pageId ∧ pageId < tree.allocated then some zeroNode else start.pages pageId
    allocated := tree.allocated }

end BPlusTree

end FlintDB
