import FlintDB.Index.BTree

set_option autoImplicit false

-- Also where keys are repeated so often that the tree no longer finds them all: pages are never given back, and a
-- leaf never holds more entries than its page has room for.

namespace FlintDB

open Lib Fallible

namespace BPlusTree

section NeverShrinks

variable {n : Nat}

def AtLeast (n : Nat) (tree : BPlusTree) : Prop := n ≤ tree.allocated

theorem fetchPage_keeps (I : BPlusTree → Prop) (pageId : Nat) : Keeps I (fetchPage pageId) := by
  refine Meets.get_bind fun tree holds => ?_
  split
  · exact Meets.pure _ fun s same => same ▸ holds
  · exact Meets.throw _ fun s same => same ▸ holds

theorem orUndefined_keeps (I : BPlusTree → Prop) {α : Type} (value : Option α) : Keeps I (orUndefined value) := by
  cases value with
  | none => exact Meets.throw _ fun _ holds => holds
  | some a => exact Meets.pure _ fun _ holds => holds

theorem storePage_keeps (pageId : Nat) (node : Node) : Keeps (AtLeast n) (storePage pageId node) :=
  fun _ holds => holds

theorem newPage_keeps : Keeps (AtLeast n) newPage := fun _ holds => Nat.le_succ_of_le holds

theorem setRootPageId_keeps (pageId : Nat) : Keeps (AtLeast n) (setRootPageId pageId) := fun _ holds => holds

theorem finishLeaf_keeps (pageId : Nat) (leaf : LeafNode) : Keeps (AtLeast n) (finishLeaf pageId leaf) := by
  unfold finishLeaf
  split
  · exact Meets.bind (storePage_keeps pageId _) fun _ => Meets.pure _ fun _ holds => holds
  · refine Meets.bind newPage_keeps fun rightPid => Meets.bind (storePage_keeps pageId _) fun _ => ?_
    exact Meets.bind (storePage_keeps rightPid _) fun _ => Meets.pure _ fun _ holds => holds

theorem finishInternal_keeps (pageId : Nat) (node : InternalNode Nat) :
    Keeps (AtLeast n) (finishInternal pageId node) := by
  unfold finishInternal
  split
  · exact Meets.bind (storePage_keeps pageId _) fun _ => Meets.pure _ fun _ holds => holds
  · refine Meets.bind newPage_keeps fun rightPid => Meets.bind (storePage_keeps pageId _) fun _ => ?_
    exact Meets.bind (storePage_keeps rightPid _) fun _ => Meets.pure _ fun _ holds => holds

theorem insertRecursive_keeps (key : Int) (rid : RID) (fuel pageId : Nat) :
    Keeps (AtLeast n) (insertRecursive key rid fuel pageId) := by
  induction fuel generalizing pageId with
  | zero => exact Meets.throw _ fun _ holds => holds
  | succ fuel ih =>
    refine Meets.bind (fetchPage_keeps _ pageId) fun node => ?_
    cases node with
    | leaf leaf => exact finishLeaf_keeps pageId _
    | internal node =>
      refine Meets.bind (orUndefined_keeps _ _) fun child => Meets.bind (ih child) fun split => ?_
      cases split with
      | none => exact Meets.pure _ fun _ holds => holds
      | some childSplit => exact finishInternal_keeps pageId _

theorem insert_keeps (key : Int) (rid : RID) : Keeps (AtLeast n) (insert key rid) := by
  refine Meets.get_bind_any fun tree _ => ?_
  simp only
  split
  · refine Meets.bind newPage_keeps fun pid => Meets.bind (storePage_keeps pid _) fun _ => setRootPageId_keeps pid
  · refine Meets.bind (insertRecursive_keeps key rid _ _) fun split => ?_
    cases split with
    | none => exact Meets.pure _ fun _ holds => holds
    | some split =>
      refine Meets.bind newPage_keeps fun newRootPid => Meets.bind (storePage_keeps newRootPid _) fun _ => ?_
      exact setRootPageId_keeps newRootPid

theorem storeMended_keeps {N : Type} (wrap : N → Node) (pageId : N → Nat) (mended : Mended N) :
    Keeps (AtLeast n) (storeMended wrap pageId mended) := by
  cases mended with
  | merged node => exact storePage_keeps _ _
  | shifted left key right => exact Meets.bind (storePage_keeps _ _) fun _ => storePage_keeps _ _

theorem fixUnderflow_keeps (parent : InternalNode Nat) (idx : Nat) : Keeps (AtLeast n) (fixUnderflow parent idx) := by
  refine Meets.bind (orUndefined_keeps _ _) fun childPid => ?_
  refine Meets.get_bind_any fun tree _ => ?_
  refine Meets.bind (fetchPage_keeps _ childPid) fun node => ?_
  cases node with
  | leaf leaf =>
    refine Meets.bind (orUndefined_keeps _ _) fun (pos, mended) => ?_
    exact Meets.bind (storeMended_keeps _ _ mended) fun _ => Meets.pure _ fun _ holds => holds
  | internal node =>
    refine Meets.bind (orUndefined_keeps _ _) fun (pos, mended) => ?_
    exact Meets.bind (storeMended_keeps _ _ mended) fun _ => Meets.pure _ fun _ holds => holds

theorem finishDelete_keeps (pageId : Nat) (isRoot : Bool) (node : InternalNode Nat) (idx : Nat) (underflow : Bool) :
    Keeps (AtLeast n) (finishDelete pageId isRoot node idx underflow) := by
  have repaired : Keeps (AtLeast n) (finishDelete.repair idx underflow node) := by
    unfold finishDelete.repair
    split
    · exact fixUnderflow_keeps node idx
    · exact Meets.pure _ fun _ holds => holds
  exact Meets.bind repaired fun node => Meets.bind (storePage_keeps pageId _) fun _ => Meets.pure _ fun _ holds => holds

theorem deleteRecursive_keeps (key : Int) (rid : RID) (fuel pageId : Nat) (isRoot : Bool) :
    Keeps (AtLeast n) (deleteRecursive key rid fuel pageId isRoot) := by
  induction fuel generalizing pageId isRoot with
  | zero => exact Meets.throw _ fun _ holds => holds
  | succ fuel ih =>
    refine Meets.bind (fetchPage_keeps _ pageId) fun node => ?_
    cases node with
    | leaf leaf =>
      simp only
      split
      · exact Meets.pure _ fun _ holds => holds
      · exact Meets.bind (storePage_keeps pageId _) fun _ => Meets.pure _ fun _ holds => holds
    | internal node =>
      refine Meets.bind (orUndefined_keeps _ _) fun child => Meets.bind (ih child false) fun result => ?_
      split
      · exact finishDelete_keeps pageId isRoot node _ _
      · exact Meets.pure _ fun _ holds => holds

theorem collapseRoot_keeps (root : Nat) : Keeps (AtLeast n) (collapseRoot root) := by
  refine Meets.bind (fetchPage_keeps _ root) fun node => ?_
  cases node with
  | leaf leaf =>
    simp only
    split
    · exact setRootPageId_keeps _
    · exact Meets.pure _ fun _ holds => holds
  | internal node =>
    simp only
    split
    · exact setRootPageId_keeps _
    · exact Meets.pure _ fun _ holds => holds

theorem delete_keeps (key : Int) (rid : RID) : Keeps (AtLeast n) (delete key rid) := by
  refine Meets.get_bind_any fun tree _ => ?_
  simp only
  split
  · exact Meets.pure _ fun _ holds => holds
  · refine Meets.bind (deleteRecursive_keeps key rid _ _ _) fun result => ?_
    split
    · exact Meets.bind (collapseRoot_keeps _) fun _ => Meets.pure _ fun _ holds => holds
    · exact Meets.pure _ fun _ holds => holds

end NeverShrinks

theorem findSplitBoundary_within {keys : List Int} {mid : Nat} (positive : 0 < mid) (within : mid < keys.length) :
    0 < findSplitBoundary keys mid ∧ findSplitBoundary keys mid < keys.length := by
  unfold findSplitBoundary
  split
  · rename_i i found
    have member := List.mem_range'_1.mp (List.mem_of_find?_eq_some found)
    omega
  · split
    · rename_i i found
      have member := List.mem_of_find?_eq_some found
      rw [List.mem_reverse, List.mem_range'_1] at member
      omega
    · exact ⟨positive, within⟩

def LeavesFit (tree : BPlusTree) : Prop :=
  ∀ pageId leaf, tree.pages pageId = some (.leaf leaf) → leaf.entries.length ≤ kLeafMaxKeys

def NodeFits : Node → Prop
  | .leaf leaf => leaf.entries.length ≤ kLeafMaxKeys
  | .internal _ => True

theorem leavesFit_empty : ({} : BPlusTree).LeavesFit := fun _ _ absent => by cases absent

theorem fetchPage_fits (pageId : Nat) :
    Meets LeavesFit (fetchPage pageId) (fun node tree => LeavesFit tree ∧ NodeFits node) LeavesFit := by
  refine Meets.get_bind fun tree fit => ?_
  split
  · rename_i node present
    refine Meets.pure _ fun s same => ⟨same ▸ fit, ?_⟩
    cases node with
    | leaf leaf => exact fit pageId leaf present
    | internal node => trivial
  · exact Meets.throw _ fun s same => same ▸ fit

theorem storePage_fits (pageId : Nat) {node : Node} (fits : NodeFits node) : Keeps LeavesFit (storePage pageId node) := by
  intro tree fit other leaf present
  simp only [writePage_pages] at present
  split at present
  · cases present
    exact fits
  · exact fit other leaf present

theorem newPage_fits : Keeps LeavesFit newPage := fun _ fit => fit

theorem setRootPageId_fits (pageId : Nat) : Keeps LeavesFit (setRootPageId pageId) := fun _ fit => fit

theorem finishLeaf_fits (pageId : Nat) {leaf : LeafNode} (almost : leaf.entries.length ≤ kLeafMaxKeys + 1) :
    Keeps LeavesFit (finishLeaf pageId leaf) := by
  have length_eq : leaf.keys.length = leaf.entries.length := by simp [LeafNode.keys]
  unfold finishLeaf
  split
  · rename_i fits
    have leafFits : NodeFits (.leaf leaf) := length_eq.ge.trans fits
    exact Meets.bind (storePage_fits pageId leafFits) fun _ => Meets.pure _ fun _ fit => fit
  · rename_i tooMany
    have many : kLeafMaxKeys < leaf.keys.length := Nat.lt_of_not_le tooMany
    rw [kLeafMaxKeys_eq] at many almost
    have middle : 0 < leaf.keys.length / 2 ∧ leaf.keys.length / 2 < leaf.keys.length := by omega
    obtain ⟨positive, within⟩ := findSplitBoundary_within middle.1 middle.2
    refine Meets.bind newPage_fits fun rightPid => ?_
    refine Meets.bind (storePage_fits pageId ?_) fun _ =>
      Meets.bind (storePage_fits rightPid ?_) fun _ => Meets.pure _ fun _ fit => fit
    · simp only [NodeFits, List.length_take, kLeafMaxKeys_eq]
      omega
    · simp only [NodeFits, List.length_drop, kLeafMaxKeys_eq]
      omega

theorem finishInternal_fits (pageId : Nat) (node : InternalNode Nat) : Keeps LeavesFit (finishInternal pageId node) := by
  unfold finishInternal
  split
  · exact Meets.bind (storePage_fits pageId trivial) fun _ => Meets.pure _ fun _ fit => fit
  · refine Meets.bind newPage_fits fun rightPid => Meets.bind (storePage_fits pageId trivial) fun _ => ?_
    exact Meets.bind (storePage_fits rightPid trivial) fun _ => Meets.pure _ fun _ fit => fit

theorem insertRecursive_fits (key : Int) (rid : RID) (fuel pageId : Nat) :
    Keeps LeavesFit (insertRecursive key rid fuel pageId) := by
  induction fuel generalizing pageId with
  | zero => exact Meets.throw _ fun _ fit => fit
  | succ fuel ih =>
    refine Meets.bind (fetchPage_fits pageId) fun node s before => ?_
    cases node with
    | leaf leaf =>
      have fits : leaf.entries.length ≤ kLeafMaxKeys := before.2
      refine finishLeaf_fits pageId ?_ s before.1
      have grows : (leaf.insert key rid).entries.length ≤ leaf.entries.length + 1 := by
        simp only [LeafNode.insert, List.length_insertIdx]
        split <;> omega
      omega
    | internal node =>
      refine Meets.bind (orUndefined_keeps LeavesFit _) (fun child => Meets.bind (ih child) fun split => ?_) s before.1
      cases split with
      | none => exact Meets.pure _ fun _ fit => fit
      | some childSplit => exact finishInternal_fits pageId _

theorem insert_fits (key : Int) (rid : RID) : Keeps LeavesFit (insert key rid) := by
  refine Meets.get_bind_any fun tree _ => ?_
  simp only
  split
  · refine Meets.bind newPage_fits fun pid => Meets.bind (storePage_fits pid ?_) fun _ => setRootPageId_fits pid
    simp [NodeFits, kLeafMaxKeys_eq]
  · refine Meets.bind (insertRecursive_fits key rid _ _) fun split => ?_
    cases split with
    | none => exact Meets.pure _ fun _ fit => fit
    | some split =>
      refine Meets.bind newPage_fits fun newRootPid => Meets.bind (storePage_fits newRootPid trivial) fun _ => ?_
      exact setRootPageId_fits newRootPid

theorem descend_mem {tree : BPlusTree} {key : Int} {steps cur : Nat} {leaf : LeafNode}
    (found : tree.descend key steps cur = .ok leaf) : ∃ pageId, tree.pages pageId = some (.leaf leaf) := by
  induction steps generalizing cur with
  | zero => cases found
  | succ steps ih =>
    rw [descend] at found
    split at found
    · rename_i present
      cases found
      exact ⟨cur, present⟩
    · split at found
      · exact ih found
      · cases found
    · cases found

theorem search_length_le {tree : BPlusTree} (fit : tree.LeavesFit) {key : Int} {rids : List RID}
    (found : tree.search key = .ok rids) : rids.length ≤ kLeafMaxKeys := by
  rw [search] at found
  split at found
  · cases found
    exact Nat.zero_le _
  · obtain ⟨leaf, descended, returned⟩ := bind_eq_ok.mp found
    obtain ⟨pageId, present⟩ := descend_mem descended
    cases returned
    rw [List.length_map]
    exact (List.length_filter_le _ _).trans (fit pageId leaf present)

end BPlusTree

end FlintDB
