import FlintDB.Index.TreeLocks

set_option autoImplicit false

-- Everybody comes in through the header page. Whoever has it exclusively is alone in the tree.

namespace FlintDB

open Lib

inductive TreeCall
  | search (key : Int)
  | rangeScanAll
  | height
  | insert (key : Int) (rid : RID)
  | delete (key : Int) (rid : RID)
  -- A lock that the transaction takes on a page of another file.
  | elsewhere (key : PageKey) (mode : LockMode)

inductive TreeResult
  | rids (rids : List RID)
  | entries (entries : List (Int × RID))
  | height (height : Nat)
  | inserted
  | deleted (found : Bool)
  | locked

namespace TreeCall

def program (objectId : Nat) : TreeCall → TreeProgram TreeResult
  | search key => do return .rids (← TreeProgram.search objectId key)
  | rangeScanAll => do return .entries (← TreeProgram.rangeScanAll objectId)
  | height => do return .height (← TreeProgram.height objectId)
  | insert key rid => do
    TreeProgram.insert objectId key rid
    return .inserted
  | delete key rid => do return .deleted (← TreeProgram.delete objectId key rid)
  | elsewhere key mode =>
    if key.objectId = objectId then return .locked
    else do
      Program.acquire key mode
      return .locked

-- Abort brings the pages of its transaction back; what they hold then does not matter here.
def interface (objectId : Nat) : CallInterface TreeCall (Option BPlusTree) BPlusTree BTreeError TreeResult where
  program _ call := call.program objectId
  finish _ restored tree := restored.getD tree

/-- The mode of LockRoot, in the calls that are on this tree. -/
def rootMode : TreeCall → Option LockMode
  | search _ | rangeScanAll | height => some .kShared
  | insert _ _ | delete _ _ => some .kExclusive
  | elsewhere _ _ => none

abbrev Writes (call : TreeCall) : Prop := call.rootMode = some .kExclusive

theorem program_eq_lock {call : TreeCall} {mode : LockMode} (onTree : call.rootMode = some mode)
    (objectId : Nat) :
    ∃ next, call.program objectId = .lock ⟨objectId, kRootHeaderPageId⟩ mode next := by
  cases call <;> cases onTree <;> exact ⟨_, rfl⟩

theorem locks_of_writes {call : TreeCall} (writes : call.Writes) (objectId : Nat) :
    (call.program objectId).Locks (TreeProgram.OfTree objectId) := by
  cases call with
  | insert key rid => exact (TreeProgram.locks_insert key rid).bind fun _ => TreeProgram.locks_pure _
  | delete key rid => exact (TreeProgram.locks_delete key rid).bind fun _ => TreeProgram.locks_pure _
  | _ => cases writes

theorem locks_of_elsewhere {call : TreeCall} (elsewhere : call.rootMode = none) (objectId : Nat) :
    (call.program objectId).Locks fun key _ => key.objectId ≠ objectId := by
  cases call with
  | elsewhere key mode =>
    rw [program]
    split
    · trivial
    · rename_i different
      exact (Program.Locks.acquire different).bind fun _ => trivial
  | _ => cases elsewhere

end TreeCall

abbrev TreeSystem := CallSystem TreeCall BPlusTree BTreeError TreeResult

namespace TreeSystem

open TreeCall CallSystem

variable {objectId : Nat} {s s' : TreeSystem}

structure Entered (objectId : Nat) (s : TreeSystem) (txnId : Nat) (call : TreeCall) (steps : Nat)
    (rest : TreeProgram TreeResult) : Prop where
  first : steps = 0 → rest = call.program objectId
  header : ∀ mode, call.rootMode = some mode → 0 < steps →
    s.locks.Holds txnId ⟨objectId, kRootHeaderPageId⟩ ∧
      (mode = .kExclusive → s.locks.HoldsExclusive txnId ⟨objectId, kRootHeaderPageId⟩)
  writes : call.Writes → rest.Locks (TreeProgram.OfTree objectId)
  elsewhere : call.rootMode = none → rest.Locks fun key _ => key.objectId ≠ objectId

structure Guarded (objectId : Nat) (s : TreeSystem) : Prop where
  consistent : s.locks.Consistent
  header : ∀ txnId key, s.locks.Holds txnId key → key.objectId = objectId →
    s.locks.Holds txnId ⟨objectId, kRootHeaderPageId⟩
  entered : ∀ txnId call steps rest, s.Calling txnId call steps rest → s.Entered objectId txnId call steps rest

variable {event : CallEvent TreeCall (Option BPlusTree)}

theorem Entered.request_first {txnId : Nat} {call : TreeCall} {key : PageKey} {mode mode' : LockMode}
    {next : TreeProgram TreeResult} (entered : s.Entered objectId txnId call 0 (.lock key mode next))
    (onTree : call.rootMode = some mode') : key = ⟨objectId, kRootHeaderPageId⟩ ∧ mode = mode' := by
  obtain ⟨_, program_eq⟩ := program_eq_lock onTree objectId
  have same := (entered.first rfl).trans program_eq
  cases same
  exact ⟨rfl, rfl⟩

theorem step_entered (guarded : s.Guarded objectId) (taken : step (interface objectId) s event = some s')
    {txnId : Nat} {call : TreeCall} {steps : Nat} {rest : TreeProgram TreeResult}
    (after : s'.Calling txnId call steps rest) : s'.Entered objectId txnId call steps rest := by
  rcases calling_cases taken after with ⟨before, notReleased⟩ | ⟨-, rfl, rfl⟩ |
    ⟨earlier, key, mode, rfl, rfl, before, answer, -⟩ | ⟨earlier, update, next, rfl, rfl, before, rfl, -, locks_eq⟩
  · obtain ⟨first, header, writes, elsewhere⟩ := guarded.entered _ _ _ _ before
    have keeps := step_keeps guarded.consistent taken notReleased ⟨objectId, kRootHeaderPageId⟩
    refine ⟨first, fun mode onTree inside => ?_, writes, elsewhere⟩
    have held := header mode onTree inside
    exact ⟨keeps.2 held.1, fun exclusive => keeps.1 (held.2 exclusive)⟩
  · exact ⟨fun _ => rfl, fun _ _ inside => absurd inside (Nat.lt_irrefl 0),
      fun writes => locks_of_writes writes objectId, fun elsewhere => locks_of_elsewhere elsewhere objectId⟩
  · have entered := guarded.entered _ _ _ _ before
    have spec := LockManager.acquireLock_spec guarded.consistent answer
    refine ⟨by simp, fun mode' onTree _ => ?_, fun writes => (entered.writes writes).2,
      fun elsewhere => (entered.elsewhere elsewhere).2⟩
    cases earlier with
    | zero =>
      obtain ⟨rfl, rfl⟩ := entered.request_first onTree
      exact ⟨(spec.holds_iff _ _).mpr (.inr ⟨rfl, rfl⟩),
        fun exclusive => (spec.exclusive_iff _ _).mpr (.inr ⟨rfl, rfl, exclusive⟩)⟩
    | succ earlier =>
      have held := entered.header mode' onTree (Nat.succ_pos _)
      exact ⟨(spec.holds_iff _ _).mpr (.inl held.1),
        fun exclusive => (spec.exclusive_iff _ _).mpr (.inl (held.2 exclusive))⟩
  · have entered := guarded.entered _ _ _ _ before
    refine ⟨by simp, fun mode' onTree _ => ?_, fun writes => entered.writes writes _,
      fun elsewhere => entered.elsewhere elsewhere _⟩
    cases earlier with
    | zero =>
      obtain ⟨_, program_eq⟩ := program_eq_lock onTree objectId
      have same := (entered.first rfl).trans program_eq
      cases same
    | succ earlier =>
      rw [locks_eq]
      exact entered.header mode' onTree (Nat.succ_pos _)

theorem step_header (guarded : s.Guarded objectId) (taken : step (interface objectId) s event = some s')
    {txnId : Nat} {key : PageKey} (held : s'.locks.Holds txnId key) (ofTree : key.objectId = objectId) :
    s'.locks.Holds txnId ⟨objectId, kRootHeaderPageId⟩ := by
  cases stepped taken with
  | @granted other call steps key' mode next locks calling answer =>
    have spec := LockManager.acquireLock_spec guarded.consistent answer
    have entered := guarded.entered _ _ _ _ calling
    refine (spec.holds_iff _ _).mpr ?_
    rcases (spec.holds_iff _ _).mp held with before | ⟨rfl, rfl⟩
    · exact .inl (guarded.header _ _ before ofTree)
    · cases onTree : call.rootMode with
      | none => exact absurd ofTree (entered.elsewhere onTree).1
      | some mode' =>
        cases steps with
        | zero => exact .inr ⟨rfl, (entered.request_first onTree).1.symm⟩
        | succ steps => exact .inl (entered.header mode' onTree (Nat.succ_pos _)).1
  | released ending =>
    obtain ⟨different, before⟩ := (LockManager.holds_releaseAll guarded.consistent _ _).mp held
    exact (LockManager.holds_releaseAll guarded.consistent _ _).mpr ⟨different, guarded.header _ _ before ofTree⟩
  | _ => exact guarded.header _ _ held ofTree

theorem step_guarded (guarded : s.Guarded objectId) (taken : step (interface objectId) s event = some s') :
    s'.Guarded objectId :=
  ⟨step_consistent guarded.consistent taken, fun _ _ => step_header guarded taken,
    fun _ _ _ _ => step_entered guarded taken⟩

theorem guarded_start (objectId : Nat) (tree : BPlusTree) : Guarded objectId { shared := tree } := by
  refine ⟨LockManager.consistent_empty, fun txnId key held => ?_, fun txnId call steps rest calling => ?_⟩
  · simp [LockManager.Holds, LockManager.HoldsExclusive, LockManager.HoldsShared] at held
  · cases calling

theorem run_guarded {tree : BPlusTree} {events : List (CallEvent TreeCall (Option BPlusTree))}
    (reached : run (step (interface objectId)) { shared := tree } events = some s) : s.Guarded objectId :=
  run_induction (fun _ s => Guarded objectId s) (guarded_start objectId tree)
    (fun _ _ _ _ _ guarded taken => step_guarded guarded taken) reached

theorem Guarded.alone (guarded : s.Guarded objectId) {txnId : Nat}
    (exclusive : s.locks.HoldsExclusive txnId ⟨objectId, kRootHeaderPageId⟩) {other : Nat} {key : PageKey}
    (held : s.locks.Holds other key) (ofTree : key.objectId = objectId) : other = txnId :=
  LockManager.exclusive_unique guarded.consistent exclusive (guarded.header other key held ofTree)

theorem Guarded.granted (guarded : s.Guarded objectId) {txnId : Nat}
    (exclusive : s.locks.HoldsExclusive txnId ⟨objectId, kRootHeaderPageId⟩) {key : PageKey}
    (ofTree : key.objectId = objectId) (mode : LockMode) :
    ∃ locks, s.locks.acquireLock txnId key mode = .granted locks :=
  LockManager.acquireLock_of_free (LockManager.no_conflict_alone
    (fun _ held => guarded.alone exclusive held ofTree) mode)

/-- In every interleaving, from any content of the tree: a transaction with a lock on a page of the tree has one
on the header page; Insert and Delete have it exclusively from their first action on, and then every lock they
ask for is granted at once; so a refusal meets them before they have done anything. -/
theorem writers_are_never_killed (objectId : Nat) (tree : BPlusTree)
    (events : List (CallEvent TreeCall (Option BPlusTree))) (s : TreeSystem)
    (reached : run (step (interface objectId)) { shared := tree } events = some s) :
    (∀ txnId key, s.locks.Holds txnId key → key.objectId = objectId →
      s.locks.Holds txnId ⟨objectId, kRootHeaderPageId⟩) ∧
    (∀ txnId call steps rest, s.Calling txnId call steps rest → call.Writes → 0 < steps →
      s.locks.HoldsExclusive txnId ⟨objectId, kRootHeaderPageId⟩) ∧
    (∀ txnId call steps key mode next, s.Calling txnId call steps (.lock key mode next) → call.Writes →
      key.objectId = objectId ∧
      (s.locks.HoldsExclusive txnId ⟨objectId, kRootHeaderPageId⟩ →
        ∃ locks, s.locks.acquireLock txnId key mode = .granted locks) ∧
      (s.locks.acquireLock txnId key mode = .die → steps = 0)) := by
  have guarded := run_guarded reached
  have inside : ∀ txnId call steps rest, s.Calling txnId call steps rest → call.Writes → 0 < steps →
      s.locks.HoldsExclusive txnId ⟨objectId, kRootHeaderPageId⟩ := fun txnId call steps rest calling writes entered =>
    ((guarded.entered _ _ _ _ calling).header _ writes entered).2 rfl
  refine ⟨guarded.header, inside, fun txnId call steps key mode next calling writes => ?_⟩
  have ofTree : key.objectId = objectId := ((guarded.entered _ _ _ _ calling).writes writes).1
  refine ⟨ofTree, fun exclusive => guarded.granted exclusive ofTree mode, fun refused => ?_⟩
  cases steps with
  | zero => rfl
  | succ steps =>
    obtain ⟨_, granted⟩ := guarded.granted (inside _ _ _ _ calling writes (Nat.succ_pos _)) ofTree mode
    cases granted.symm.trans refused

theorem writers_are_never_killed_insert : ∃ s : TreeSystem,
    run (step (interface 7)) { shared := {} } [.call 1 (.insert 5 ⟨1, 0⟩), .step 1, .step 1] = some s ∧
      s.locks.HoldsExclusive 1 ⟨7, kRootHeaderPageId⟩ :=
  ⟨_, rfl, (writers_are_never_killed 7 {} [.call 1 (.insert 5 ⟨1, 0⟩), .step 1, .step 1] _ rfl).2.1 1 _ _ _ rfl rfl
    (by decide)⟩

end TreeSystem

end FlintDB
