import FlintDB.Index.TreeSystem

set_option autoImplicit false

-- Whatever threads do between its actions, a call returns what it would have returned in one step, at the moment when
-- it returns; and a writer leaves what it would have left.

namespace FlintDB

open Lib Program Fallible

namespace TreeProgram

variable {objectId : Nat}

theorem readOnly_lockPage (pageId : Nat) (mode : LockMode) : (lockPage objectId pageId mode).ReadOnly := trivial

theorem readOnly_fetchPage (pageId : Nat) : (fetchPage pageId).ReadOnly := by
  refine readOnly_whole fun tree => ?_
  rw [BPlusTree.fetchPage, exec_bind_ok (exec_get tree)]
  cases tree.pages pageId <;> rfl

theorem readOnly_orUndefined {α : Type} (found : Option α) : (orUndefined found).ReadOnly := by
  cases found <;> trivial

theorem readOnly_getRootPageId : getRootPageId.ReadOnly := readOnly_whole fun _ => rfl

theorem readOnly_descend (key : Int) (steps cur : Nat) : (descend objectId key steps cur).ReadOnly := by
  induction steps generalizing cur with
  | zero => trivial
  | succ steps ih =>
    refine (readOnly_lockPage cur _).bind fun _ => (readOnly_fetchPage cur).bind fun node => ?_
    cases node with
    | leaf leaf => trivial
    | internal node => exact (readOnly_orUndefined _).bind fun child => ih child

theorem readOnly_search (key : Int) : (search objectId key).ReadOnly := by
  refine (readOnly_lockPage _ _).bind fun _ => readOnly_getRootPageId.bind fun root => ?_
  split
  · trivial
  · exact (readOnly_descend key _ root).bind fun leaf => trivial

theorem readOnly_leftmostLeaf (steps cur : Nat) : (leftmostLeaf objectId steps cur).ReadOnly := by
  induction steps generalizing cur with
  | zero =>
    refine (readOnly_lockPage cur _).bind fun _ => (readOnly_fetchPage cur).bind fun node => ?_
    cases node <;> trivial
  | succ steps ih =>
    refine (readOnly_lockPage cur _).bind fun _ => (readOnly_fetchPage cur).bind fun node => ?_
    cases node with
    | leaf leaf => trivial
    | internal node => exact (readOnly_orUndefined _).bind fun child => ih child

theorem readOnly_walkChain (steps : Nat) (leaf : LeafNode) : (walkChain objectId steps leaf).ReadOnly := by
  induction steps generalizing leaf with
  | zero => trivial
  | succ steps ih =>
    rw [walkChain]
    split
    · trivial
    · refine (readOnly_lockPage leaf.nextLeaf _).bind fun _ => (readOnly_fetchPage leaf.nextLeaf).bind fun node => ?_
      cases node with
      | leaf next => exact (ih next).bind fun entries => trivial
      | internal node => trivial

theorem readOnly_rangeScanAll : (rangeScanAll objectId).ReadOnly := by
  refine (readOnly_lockPage _ _).bind fun _ => readOnly_getRootPageId.bind fun root => ?_
  split
  · trivial
  · exact (readOnly_leftmostLeaf _ root).bind fun leaf => readOnly_walkChain _ leaf

theorem readOnly_heightFrom (steps cur : Nat) : (heightFrom objectId steps cur).ReadOnly := by
  induction steps generalizing cur with
  | zero =>
    refine (readOnly_lockPage cur _).bind fun _ => (readOnly_fetchPage cur).bind fun node => ?_
    cases node <;> trivial
  | succ steps ih =>
    refine (readOnly_lockPage cur _).bind fun _ => (readOnly_fetchPage cur).bind fun node => ?_
    cases node with
    | leaf leaf => trivial
    | internal node =>
      exact (readOnly_orUndefined _).bind fun child => (ih child).bind fun below => trivial

theorem readOnly_height : (height objectId).ReadOnly := by
  refine (readOnly_lockPage _ _).bind fun _ => readOnly_getRootPageId.bind fun root => ?_
  split
  · trivial
  · exact readOnly_heightFrom _ root

end TreeProgram

namespace TreeCall

variable {objectId : Nat} {call : TreeCall}

theorem readOnly_of_reads (reads : call.rootMode = some .kShared) : (call.program objectId).ReadOnly := by
  cases call with
  | search key => exact (TreeProgram.readOnly_search key).bind fun rids => trivial
  | rangeScanAll => exact TreeProgram.readOnly_rangeScanAll.bind fun entries => trivial
  | height => exact TreeProgram.readOnly_height.bind fun height => trivial
  | _ => cases reads

theorem apart_of_elsewhere (elsewhere : call.rootMode = none) : (call.program objectId).Apart := by
  cases call with
  | elsewhere key mode =>
    rw [program]
    split <;> trivial
  | _ => cases elsewhere

/-- The call in one step, without locks. -/
def whole : TreeCall → BTreeM TreeResult
  | search key => do return .rids (← (← get).search key)
  | rangeScanAll => do return .entries (← (← get).rangeScanAll)
  | height => do return .height (← (← get).height)
  | insert key rid => do
    BPlusTree.insert key rid
    return .inserted
  | delete key rid => do return .deleted (← BPlusTree.delete key rid)
  | elsewhere _ _ => return .locked

theorem alone_program (call : TreeCall) (objectId : Nat) : (call.program objectId).alone.exec = call.whole.exec := by
  -- a reading call computes from the tree, and leaves it
  have reads : ∀ {α : Type} {program : TreeProgram α} {f : BPlusTree → Except BTreeError α} (wrap : α → TreeResult),
      (∀ tree, program.alone.exec tree = (f tree, tree)) →
      (program >>= fun a => pure (wrap a)).alone.exec =
        (do return wrap (← f (← get)) : BTreeM TreeResult).exec := by
    intro α program f wrap computes
    funext tree
    rw [exec_alone_bind, exec_bind, computes, exec_bind_ok (exec_get tree), exec_bind, exec_liftM]
    cases f tree <;> rfl
  cases call with
  | search key => exact reads .rids fun tree => TreeProgram.alone_search key
  | rangeScanAll => exact reads .entries fun tree => TreeProgram.alone_rangeScanAll
  | height => exact reads .height fun tree => TreeProgram.alone_height
  | insert key rid => exact alone_bind (TreeProgram.alone_insert key rid) fun _ => rfl
  | delete key rid => exact alone_bind (TreeProgram.alone_delete key rid) fun _ => rfl
  | elsewhere key mode =>
    rw [program]
    split <;> rfl

end TreeCall

-- A call that has come to its end, or a transaction that has.
inductive TreeEntry
  | called (txnId : Nat) (call : TreeCall) (outcome : Except BTreeError TreeResult)
  | finished (txnId : Nat) (restored : Option BPlusTree)

/-- The entries one after the other, each call in one step. -/
inductive PlaysBack (start : BPlusTree) : List TreeEntry → BPlusTree → Prop
  | nil : PlaysBack start [] start
  | called {entries : List TreeEntry} {tree tree' : BPlusTree} {call : TreeCall}
      {outcome : Except BTreeError TreeResult} (txnId : Nat) (before : PlaysBack start entries tree)
      (computes : call.whole.exec tree = (outcome, tree')) :
      PlaysBack start (entries ++ [.called txnId call outcome]) tree'
  | finished {entries : List TreeEntry} {tree : BPlusTree} (txnId : Nat) (restored : Option BPlusTree)
      (before : PlaysBack start entries tree) : PlaysBack start (entries ++ [.finished txnId restored]) (restored.getD tree)

namespace TreeSystem

open TreeCall CallSystem

variable {objectId : Nat} {s s' : TreeSystem} {event : CallEvent TreeCall (Option BPlusTree)}
  {events : List (CallEvent TreeCall (Option BPlusTree))}

-- What the event is the end of. A call that is refused leaves no entry.
def completes (s : TreeSystem) : CallEvent TreeCall (Option BPlusTree) → Option TreeEntry
  | .step txnId =>
    match s.threads txnId with
    | .calling call _ (.done result) => some (.called txnId call (.ok result))
    | .calling call _ (.throw error) => some (.called txnId call (.error error))
    | _ => none
  | .finish txnId restored => some (.finished txnId restored)
  | _ => none

def journal (objectId : Nat) : TreeSystem → List (CallEvent TreeCall (Option BPlusTree)) → List TreeEntry
  | _, [] => []
  | s, event :: events => (completes s event).toList ++
    match step (interface objectId) s event with
    | some next => journal objectId next events
    | none => []

theorem journal_snoc {start : TreeSystem} (reached : run (step (interface objectId)) start events = some s)
    (event : CallEvent TreeCall (Option BPlusTree)) :
    journal objectId start (events ++ [event]) = journal objectId start events ++ (completes s event).toList := by
  induction events generalizing start with
  | nil =>
    cases reached
    rw [List.nil_append, journal, journal, List.nil_append]
    cases step (interface objectId) s event <;> exact List.append_nil _
  | cons first events ih =>
    rw [run] at reached
    obtain ⟨next, taken, onward⟩ := Option.bind_eq_some_iff.mp reached
    simp only [List.cons_append, journal, taken]
    rw [ih onward, List.append_assoc]

-- The transaction has been past the header page in an Insert or a Delete.
def HasWritten (objectId : Nat) (start : TreeSystem) (events : List (CallEvent TreeCall (Option BPlusTree)))
    (txnId : Nat) : Prop :=
  ∃ earlier s call steps rest, earlier <+: events ∧ run (step (interface objectId)) start earlier = some s ∧
    s.Calling txnId call steps rest ∧ call.Writes ∧ 0 < steps

/-- Abort brings back the pages that its transaction has written, and no others. -/
def AbortsOwn (objectId : Nat) (start : TreeSystem) (events : List (CallEvent TreeCall (Option BPlusTree))) : Prop :=
  ∀ before txnId restored, before ++ [.finish txnId (some restored)] <+: events →
    HasWritten objectId start before txnId

/-- No writer is past the header page. -/
def Quiet (s : TreeSystem) : Prop :=
  ∀ txnId call steps rest, s.Calling txnId call steps rest → call.Writes → steps = 0

structure Tracks (objectId : Nat) (s : TreeSystem) (tree : BPlusTree) : Prop where
  quiet : s.Quiet → s.shared = tree
  writing : ∀ txnId call steps rest, s.Calling txnId call steps rest → call.Writes → 0 < steps →
    rest.alone.exec s.shared = call.whole.exec tree
  reading : ∀ txnId call steps rest, s.Calling txnId call steps rest → call.rootMode = some .kShared →
    rest.ReadOnly ∧ (rest.alone.exec tree).1 = (call.whole.exec tree).1
  elsewhere : ∀ txnId call steps rest, s.Calling txnId call steps rest → call.rootMode = none →
    rest.Apart ∧ (rest.alone.exec tree).1 = (call.whole.exec tree).1

theorem tracks_start (objectId : Nat) (tree : BPlusTree) : Tracks objectId { shared := tree } tree := by
  have nobody : ∀ txnId call steps rest,
      ¬ CallSystem.Calling ({ shared := tree } : TreeSystem) txnId call steps rest := by
    intro txnId call steps rest calling
    cases calling
  exact ⟨fun _ => rfl, fun _ _ _ _ calling => (nobody _ _ _ _ calling).elim,
    fun _ _ _ _ calling => (nobody _ _ _ _ calling).elim, fun _ _ _ _ calling => (nobody _ _ _ _ calling).elim⟩

theorem Guarded.inside (guarded : s.Guarded objectId) {txnId : Nat} {call : TreeCall} {steps : Nat}
    {rest : TreeProgram TreeResult} (calling : s.Calling txnId call steps rest) {mode : LockMode}
    (onTree : call.rootMode = some mode) (entered : 0 < steps) :
    s.locks.Holds txnId ⟨objectId, kRootHeaderPageId⟩ ∧
      (mode = .kExclusive → s.locks.HoldsExclusive txnId ⟨objectId, kRootHeaderPageId⟩) :=
  (guarded.entered txnId call steps rest calling).header mode onTree entered

theorem Guarded.outside (guarded : s.Guarded objectId) {txnId : Nat}
    (exclusive : s.locks.HoldsExclusive txnId ⟨objectId, kRootHeaderPageId⟩) {other : Nat} (different : other ≠ txnId)
    {call : TreeCall} {steps : Nat} {rest : TreeProgram TreeResult} (calling : s.Calling other call steps rest)
    {mode : LockMode} (onTree : call.rootMode = some mode) : steps = 0 ∧ rest = call.program objectId := by
  rcases Nat.eq_zero_or_pos steps with rfl | entered
  · exact ⟨rfl, (guarded.entered _ _ _ _ calling).first rfl⟩
  · exact absurd (guarded.alone exclusive (guarded.inside calling onTree entered).1 rfl) different

theorem exec_program (objectId : Nat) (call : TreeCall) (tree : BPlusTree) :
    ((call.program objectId).alone.exec tree).1 = (call.whole.exec tree).1 := by rw [alone_program]

theorem Tracks.replaced {tree tree' : BPlusTree} (tracks : s.Tracks objectId tree) (guarded : s.Guarded objectId)
    {txnId : Nat} (exclusive : s.locks.HoldsExclusive txnId ⟨objectId, kRootHeaderPageId⟩)
    {thread : CallThread TreeCall BPlusTree BTreeError TreeResult}
    (notCalling : ∀ call steps rest, thread ≠ .calling call steps rest) :
    Tracks objectId { s.setThread txnId thread with shared := tree' } tree' := by
  have before : ∀ {other call steps rest}, CallSystem.Calling { s.setThread txnId thread with shared := tree' } other call
      steps rest → s.Calling other call steps rest ∧ other ≠ txnId := by
    intro other call steps rest calling
    by_cases same : other = txnId
    · subst same
      exact absurd ((Function.update_self ..).symm.trans calling) (notCalling call steps rest)
    · exact ⟨(Function.update_of_ne same ..).symm.trans calling, same⟩
  refine ⟨fun _ => rfl, fun other call steps rest calling writes entered => ?_, fun other call steps rest calling reads => ?_,
    fun other call steps rest calling elsewhere => ?_⟩
  · obtain ⟨calling, different⟩ := before calling
    exact absurd (guarded.outside exclusive different calling writes).1 (Nat.pos_iff_ne_zero.mp entered)
  · obtain ⟨calling, different⟩ := before calling
    obtain ⟨rfl, rfl⟩ := guarded.outside exclusive different calling reads
    exact ⟨readOnly_of_reads reads, exec_program objectId call tree'⟩
  · obtain ⟨apart, -⟩ := tracks.elsewhere other call steps rest (before calling).1 elsewhere
    refine ⟨apart, ?_⟩
    have known := (tracks.elsewhere other call steps rest (before calling).1 elsewhere).2
    rw [apart.exec_alone tree' tree, known, ← exec_program objectId, ← exec_program objectId]
    exact Apart.exec_alone (apart_of_elsewhere elsewhere) tree tree'

theorem Tracks.moved {tree : BPlusTree} (tracks : s.Tracks objectId tree) {txnId : Nat}
    {thread : CallThread TreeCall BPlusTree BTreeError TreeResult} {locks : LockManager} {shared : BPlusTree}
    (stays : ∀ other call steps rest, other ≠ txnId → s.Calling other call steps rest → call.Writes → 0 < steps →
      shared = s.shared)
    (quiet : Quiet (s.setThread txnId thread) → shared = tree)
    (own : ∀ call steps rest, thread = .calling call steps rest →
      (call.Writes → 0 < steps → rest.alone.exec shared = call.whole.exec tree) ∧
      (call.rootMode = some .kShared → rest.ReadOnly ∧ (rest.alone.exec tree).1 = (call.whole.exec tree).1) ∧
      (call.rootMode = none → rest.Apart ∧ (rest.alone.exec tree).1 = (call.whole.exec tree).1)) :
    Tracks objectId { s.setThread txnId thread with locks := locks, shared := shared } tree := by
  have before : ∀ {other call steps rest},
      CallSystem.Calling { s.setThread txnId thread with locks := locks, shared := shared } other call steps rest →
      other ≠ txnId ∧ s.Calling other call steps rest ∨ other = txnId ∧ thread = .calling call steps rest := by
    intro other call steps rest calling
    have isThread : Function.update s.threads txnId thread other = .calling call steps rest := calling
    by_cases same : other = txnId
    · rw [same, Function.update_self] at isThread
      exact .inr ⟨same, isThread⟩
    · rw [Function.update_of_ne same] at isThread
      exact .inl ⟨same, isThread⟩
  refine ⟨quiet, fun other call steps rest calling writes entered => ?_, fun other call steps rest calling reads => ?_,
    fun other call steps rest calling elsewhere => ?_⟩
  · rcases before calling with ⟨different, calling⟩ | ⟨-, isThread⟩
    · have computes := tracks.writing other call steps rest calling writes entered
      rwa [← stays other call steps rest different calling writes entered] at computes
    · exact (own call steps rest isThread).1 writes entered
  · rcases before calling with ⟨-, calling⟩ | ⟨-, isThread⟩
    · exact tracks.reading other call steps rest calling reads
    · exact (own call steps rest isThread).2.1 reads
  · rcases before calling with ⟨-, calling⟩ | ⟨-, isThread⟩
    · exact tracks.elsewhere other call steps rest calling elsewhere
    · exact (own call steps rest isThread).2.2 elsewhere

theorem Tracks.looked {tree : BPlusTree} (tracks : s.Tracks objectId tree) {txnId : Nat}
    {thread : CallThread TreeCall BPlusTree BTreeError TreeResult} {locks : LockManager}
    (quiet : Quiet (s.setThread txnId thread) → s.shared = tree)
    (own : ∀ call steps rest, thread = .calling call steps rest →
      (call.Writes → 0 < steps → rest.alone.exec s.shared = call.whole.exec tree) ∧
      (call.rootMode = some .kShared → rest.ReadOnly ∧ (rest.alone.exec tree).1 = (call.whole.exec tree).1) ∧
      (call.rootMode = none → rest.Apart ∧ (rest.alone.exec tree).1 = (call.whole.exec tree).1)) :
    Tracks objectId { s.setThread txnId thread with locks := locks } tree :=
  tracks.moved (fun _ _ _ _ _ _ _ _ => rfl) quiet own

theorem Tracks.quiet_of_moved {tree : BPlusTree} (tracks : s.Tracks objectId tree) {txnId : Nat}
    {thread : CallThread TreeCall BPlusTree BTreeError TreeResult}
    (outside : ∀ call steps rest, s.Calling txnId call steps rest → call.Writes → steps = 0)
    (quiet : Quiet (s.setThread txnId thread)) : s.shared = tree := by
  refine tracks.quiet fun other call steps rest calling writes => ?_
  by_cases same : other = txnId
  · subst same
    exact outside call steps rest calling writes
  · exact quiet other call steps rest ((Function.update_of_ne same ..).trans calling) writes

theorem Tracks.ends {start tree : BPlusTree} {entries : List TreeEntry} (tracks : s.Tracks objectId tree)
    (guarded : s.Guarded objectId) (before : PlaysBack start entries tree) {txnId : Nat} {call : TreeCall} {steps : Nat}
    {rest : TreeProgram TreeResult} (calling : s.Calling txnId call steps rest)
    {outcome : Except BTreeError TreeResult} (atEnd : ∀ tree, rest.alone.exec tree = (outcome, tree))
    (noRequest : ∀ key mode next, rest ≠ .lock key mode next)
    (last : Option (TreeCall × CallOutcome BTreeError TreeResult)) :
    ∃ tree', PlaysBack start (entries ++ [.called txnId call outcome]) tree' ∧
      Tracks objectId (s.setThread txnId (.idle last)) tree' := by
  -- a call that has not written the tree
  have unchanged : (∀ call steps rest, s.Calling txnId call steps rest → call.Writes → steps = 0) →
      (call.program objectId).ReadOnly → (rest.alone.exec tree).1 = (call.whole.exec tree).1 →
      ∃ tree', PlaysBack start (entries ++ [.called txnId call outcome]) tree' ∧
        Tracks objectId (s.setThread txnId (.idle last)) tree' := by
    intro outside readOnly computes
    have stays := readOnly.exec_alone tree
    rw [alone_program] at stays
    rw [atEnd] at computes
    exact ⟨tree, .called txnId before (Prod.ext computes.symm stays),
      tracks.looked (tracks.quiet_of_moved outside) nofun⟩
  have same : ∀ {other steps' rest'}, s.Calling txnId other steps' rest' → other = call := fun calling' => by
    cases Eq.trans (Eq.symm calling) calling'
    rfl
  cases onTree : call.rootMode with
  | none =>
    refine unchanged (fun other _ _ calling' writes => ?_) (apart_of_elsewhere onTree).readOnly
      (tracks.elsewhere txnId call steps rest calling onTree).2
    cases onTree.symm.trans (same calling' ▸ writes)
  | some mode =>
    cases mode with
    | kShared =>
      refine unchanged (fun other _ _ calling' writes => ?_) (readOnly_of_reads onTree)
        (tracks.reading txnId call steps rest calling onTree).2
      cases onTree.symm.trans (same calling' ▸ writes)
    | kExclusive =>
      have entered : 0 < steps := by
        rcases Nat.eq_zero_or_pos steps with rfl | entered
        · obtain ⟨next, program_eq⟩ := program_eq_lock onTree objectId
          exact absurd (((guarded.entered _ _ _ _ calling).first rfl).trans program_eq) (noRequest _ _ next)
        · exact entered
      have exclusive := (guarded.inside calling onTree entered).2 rfl
      have computes := tracks.writing txnId call steps rest calling onTree entered
      rw [atEnd] at computes
      exact ⟨s.shared, .called txnId before computes.symm, tracks.replaced guarded exclusive nofun⟩

theorem Tracks.granted {tree : BPlusTree} (tracks : s.Tracks objectId tree) (guarded : s.Guarded objectId) {txnId : Nat}
    {call : TreeCall} {steps : Nat} {key : PageKey} {mode : LockMode} {next : TreeProgram TreeResult}
    (calling : s.Calling txnId call steps (.lock key mode next)) {locks : LockManager}
    (answer : s.locks.acquireLock txnId key mode = .granted locks) :
    Tracks objectId { s.setThread txnId (.calling call (steps + 1) next) with locks := locks } tree := by
  have entered := guarded.entered _ _ _ _ calling
  refine tracks.looked (fun quiet => ?_) ?_
  · by_cases writes : call.Writes
    · exact absurd (quiet txnId call (steps + 1) next (Function.update_self ..) writes) (Nat.succ_ne_zero steps)
    · refine tracks.quiet_of_moved (fun other steps' rest calling' isWriter => ?_) quiet
      cases Eq.trans (Eq.symm calling) calling'
      exact absurd isWriter writes
  · rintro _ _ _ ⟨⟩
    refine ⟨fun writes _ => ?_, tracks.reading txnId call steps (.lock key mode next) calling,
      tracks.elsewhere txnId call steps (.lock key mode next) calling⟩
    rcases Nat.eq_zero_or_pos steps with rfl | within
    · -- it gets the header page, so no other writer has it
      have spec := LockManager.acquireLock_spec guarded.consistent answer
      obtain ⟨rfl, rfl⟩ := entered.request_first writes
      have exclusive := (spec.exclusive_iff txnId _).mpr (.inr ⟨rfl, rfl, rfl⟩)
      have quiet : s.Quiet := by
        intro other call' steps' rest' calling' writes'
        rcases Nat.eq_zero_or_pos steps' with none | within
        · exact none
        · have held := (guarded.inside calling' writes' within).1
          have same := LockManager.exclusive_unique spec.consistent exclusive ((spec.holds_iff other _).mpr (.inl held))
          subst same
          cases Eq.trans (Eq.symm calling) calling'
          exact absurd within (Nat.lt_irrefl 0)
      rw [tracks.quiet quiet, ← alone_program call objectId, ← entered.first rfl, exec_alone_lock]
    · exact tracks.writing txnId call steps (.lock key mode next) calling writes within

theorem Tracks.acted {tree : BPlusTree} (tracks : s.Tracks objectId tree) (guarded : s.Guarded objectId) {txnId : Nat}
    {call : TreeCall} {steps : Nat} {update : BPlusTree → BPlusTree} {next : BPlusTree → TreeProgram TreeResult}
    (calling : s.Calling txnId call steps (.atomic update next)) :
    Tracks objectId
      { s.setThread txnId (.calling call (steps + 1) (next s.shared)) with shared := update s.shared } tree := by
  have within : ∀ {mode}, call.rootMode = some mode → 0 < steps := by
    intro mode onTree
    rcases Nat.eq_zero_or_pos steps with rfl | within
    · obtain ⟨_, program_eq⟩ := program_eq_lock onTree objectId
      cases ((guarded.entered _ _ _ _ calling).first rfl).trans program_eq
    · exact within
  cases onTree : call.rootMode with
  | none => exact (tracks.elsewhere txnId call steps _ calling onTree).1.elim
  | some mode =>
    cases mode with
    | kShared =>
      obtain ⟨readOnly, computes⟩ := tracks.reading txnId call steps _ calling onTree
      -- no writer is past the header page while a reader is
      have quiet : s.Quiet := by
        intro other call' steps' rest' calling' writes'
        rcases Nat.eq_zero_or_pos steps' with none | entered
        · exact none
        · have exclusive := (guarded.inside calling' writes' entered).2 rfl
          have same := guarded.alone exclusive (guarded.inside calling onTree (within onTree)).1 rfl
          subst same
          cases Eq.trans (Eq.symm calling) calling'
          cases onTree.symm.trans writes'
      have shared_eq := tracks.quiet quiet
      rw [(readOnly s.shared).1]
      refine tracks.looked (fun _ => shared_eq) ?_
      rintro _ _ _ ⟨⟩
      rw [exec_alone_atomic, (readOnly tree).1] at computes
      refine ⟨fun writes => ?_, fun _ => ⟨(readOnly s.shared).2, ?_⟩, fun elsewhere => ?_⟩
      · cases onTree.symm.trans writes
      · rw [shared_eq]
        exact computes
      · cases onTree.symm.trans elsewhere
    | kExclusive =>
      have exclusive := (guarded.inside calling onTree (within onTree)).2 rfl
      have computes := tracks.writing txnId call steps _ calling onTree (within onTree)
      rw [exec_alone_atomic] at computes
      refine tracks.moved (fun other call' steps' rest' different calling' writes' entered => ?_) (fun quiet => ?_) ?_
      · exact absurd (guarded.outside exclusive different calling' writes').1 (Nat.pos_iff_ne_zero.mp entered)
      · have outside := quiet txnId call (steps + 1) (next s.shared) (Function.update_self ..) onTree
        exact absurd outside (Nat.succ_ne_zero steps)
      · rintro _ _ _ ⟨⟩
        refine ⟨fun _ _ => computes, fun reads => ?_, fun elsewhere => ?_⟩
        · cases onTree.symm.trans reads
        · cases onTree.symm.trans elsewhere

theorem Tracks.step {start tree : BPlusTree} {entries : List TreeEntry} (tracks : s.Tracks objectId tree)
    (guarded : s.Guarded objectId) (before : PlaysBack start entries tree)
    (taken : CallSystem.step (interface objectId) s event = some s')
    (own : ∀ txnId restored, event = .finish txnId (some restored) →
      s.locks.HoldsExclusive txnId ⟨objectId, kRootHeaderPageId⟩) :
    ∃ tree', PlaysBack start (entries ++ (completes s event).toList) tree' ∧ s'.Tracks objectId tree' := by
  -- nothing has come to its end
  have goesOn : completes s event = none → s'.Tracks objectId tree →
      ∃ tree', PlaysBack start (entries ++ (completes s event).toList) tree' ∧ s'.Tracks objectId tree' := by
    intro nothing tracks
    rw [nothing, Option.toList_none, List.append_nil]
    exact ⟨tree, before, tracks⟩
  cases stepped taken with
  | @called txnId last call idle =>
    refine goesOn rfl (tracks.looked (tracks.quiet_of_moved fun other steps rest calling => ?_) ?_)
    · cases idle.symm.trans calling
    · rintro _ _ _ ⟨⟩
      exact ⟨fun _ entered => absurd entered (Nat.lt_irrefl 0), fun reads => ⟨readOnly_of_reads reads, exec_program _ _ _⟩,
        fun elsewhere => ⟨apart_of_elsewhere elsewhere, exec_program _ _ _⟩⟩
  | @returned txnId call steps result calling =>
    have completed : completes s (.step txnId) = some (.called txnId call (.ok result)) := by
      rw [completes, show s.threads txnId = _ from calling]
    rw [completed]
    exact tracks.ends guarded before calling (fun _ => rfl) nofun _
  | @threw txnId call steps error calling =>
    have completed : completes s (.step txnId) = some (.called txnId call (.error error)) := by
      rw [completes, show s.threads txnId = _ from calling]
    rw [completed]
    exact tracks.ends guarded before calling (fun _ => rfl) nofun _
  | @granted txnId call steps key mode next locks calling answer =>
    have nothing : completes s (.step txnId) = none := by
      rw [completes, show s.threads txnId = _ from calling]
    exact goesOn nothing (tracks.granted guarded calling answer)
  | @waits txnId call steps key mode next calling answer =>
    have nothing : completes s (.step txnId) = none := by
      rw [completes, show s.threads txnId = _ from calling]
    exact goesOn nothing tracks
  | @refused txnId call steps key mode next calling answer =>
    have nothing : completes s (.step txnId) = none := by
      rw [completes, show s.threads txnId = _ from calling]
    refine goesOn nothing (tracks.looked (tracks.quiet_of_moved fun other steps' rest calling' writes => ?_) nofun)
    cases Eq.trans (Eq.symm calling) calling'
    -- a writer is refused at the header page only
    rcases Nat.eq_zero_or_pos steps with rfl | entered
    · rfl
    · have ofTree := ((guarded.entered _ _ _ _ calling).writes writes).1
      obtain ⟨_, granted⟩ := guarded.granted ((guarded.inside calling writes entered).2 rfl) ofTree mode
      cases granted.symm.trans answer
  | @acted txnId call steps update next calling =>
    have nothing : completes s (.step txnId) = none := by
      rw [completes, show s.threads txnId = _ from calling]
    exact goesOn nothing (tracks.acted guarded calling)
  | @finished txnId last how idle =>
    refine ⟨how.getD tree, .finished txnId how before, ?_⟩
    cases how with
    | some restored => exact tracks.replaced guarded (own txnId restored rfl) nofun
    | none =>
      refine tracks.looked (tracks.quiet_of_moved fun other steps rest calling => ?_) nofun
      cases idle.symm.trans calling
  | @released txnId ending =>
    refine goesOn rfl (tracks.looked (tracks.quiet_of_moved fun other steps rest calling => ?_) nofun)
    cases ending.symm.trans calling

theorem exclusive_of_hasWritten {tree : BPlusTree}
    (reached : run (step (interface objectId)) { shared := tree } events = some s) {txnId : Nat}
    (written : HasWritten objectId { shared := tree } events txnId) :
    s.locks.HoldsExclusive txnId ⟨objectId, kRootHeaderPageId⟩ ∨ s.threads txnId = .ended := by
  obtain ⟨earlier, s₀, call, steps, rest, ⟨later, rfl⟩, reached₀, calling, writes, entered⟩ := written
  obtain ⟨_, again, onward⟩ := run_append_some.mp reached
  cases reached₀.symm.trans again
  have exclusive := ((run_guarded reached₀).inside calling writes entered).2 rfl
  have held := run_induction
    (fun _ s => Guarded objectId s ∧
      (s.locks.HoldsExclusive txnId ⟨objectId, kRootHeaderPageId⟩ ∨ s.threads txnId = .ended))
    ⟨run_guarded reached₀, .inl exclusive⟩
    (fun events s event s' _ before taken => ?_) onward
  · exact held.2
  · refine ⟨step_guarded before.1 taken, ?_⟩
    rcases before.2 with held | ended
    · by_cases releases : event = .releaseAll txnId
      · subst releases
        cases stepped taken with
        | released ending => exact .inr (Function.update_self ..)
      · exact .inl ((step_keeps before.1.consistent taken releases _).1 held)
    · exact .inr (step_ended taken ended)

/-- In every interleaving of calls on one tree, from any content of it: the calls that have come to their end, in the
order in which they did, returned or threw what they would have in one step each, one after the other, and an Abort
between them brought back what it says; the tree that this leaves is the shared one whenever no writer is past the
header page. A call under way will end as it would on that tree in one step. -/
theorem tree_calls_are_atomic (objectId : Nat) (tree : BPlusTree)
    (events : List (CallEvent TreeCall (Option BPlusTree))) (s : TreeSystem)
    (reached : run (step (interface objectId)) { shared := tree } events = some s)
    (own : AbortsOwn objectId { shared := tree } events) :
    ∃ tree', PlaysBack tree (journal objectId { shared := tree } events) tree' ∧ (s.Quiet → s.shared = tree') ∧
      (∀ txnId call steps rest, s.Calling txnId call steps rest → call.Writes → 0 < steps →
        rest.alone.exec s.shared = call.whole.exec tree') ∧
      (∀ txnId call steps rest, s.Calling txnId call steps rest → call.rootMode = some .kShared →
        (rest.alone.exec tree').1 = (call.whole.exec tree').1) := by
  have tracked := run_induction
    (fun events s => AbortsOwn objectId { shared := tree } events →
      ∃ tree', PlaysBack tree (journal objectId { shared := tree } events) tree' ∧ Tracks objectId s tree')
    (fun _ => ⟨tree, .nil, tracks_start objectId tree⟩)
    (fun events s event s' reached ih taken own => ?_) reached own
  · obtain ⟨tree', replays, tracks⟩ := tracked
    exact ⟨tree', replays, tracks.quiet, tracks.writing,
      fun txnId call steps rest calling reads => (tracks.reading txnId call steps rest calling reads).2⟩
  · obtain ⟨tree', replays, tracks⟩ := ih fun before txnId restored within =>
      own before txnId restored (within.trans (List.prefix_append events [event]))
    rw [journal_snoc reached]
    refine tracks.step (run_guarded reached) replays taken fun txnId restored finishes => ?_
    subst finishes
    rcases exclusive_of_hasWritten reached (own events txnId restored (List.prefix_refl _)) with exclusive | ended
    · exact exclusive
    · cases stepped taken with
      | finished how idle => cases idle.symm.trans ended

-- Transaction 2 inserts into the empty tree, while the older transaction 1 waits to search it, and aborts.
def abortedInsert : List (CallEvent TreeCall (Option BPlusTree)) :=
  [.call 2 (.insert 5 ⟨1, 0⟩), .step 2, .call 1 (.search 5), .step 1, .step 2, .step 2, .step 2, .step 2, .step 2, .step 2,
    .finish 2 (some {}), .releaseAll 2, .step 1, .step 1, .step 1]

theorem abortedInsert_abortsOwn : AbortsOwn 7 { shared := {} } abortedInsert := by
  intro before txnId restored within
  have finishes : CallEvent.finish txnId (some restored) ∈ abortedInsert := within.subset (by simp)
  obtain ⟨rfl, -⟩ : txnId = 2 ∧ restored = {} := by simpa [abortedInsert] using finishes
  match before with
  | [] => simp [abortedInsert] at within
  | [_] => simp [abortedInsert] at within
  | _ :: _ :: before =>
    obtain ⟨first, within⟩ := List.cons_prefix_cons.mp within
    obtain ⟨second, -⟩ := List.cons_prefix_cons.mp within
    cases first
    cases second
    exact ⟨[.call 2 (.insert 5 ⟨1, 0⟩), .step 2], _, _, _, _, ⟨before, rfl⟩, rfl, rfl, rfl, Nat.zero_lt_one⟩

theorem tree_calls_are_atomic_aborted : ∃ tree', PlaysBack {}
    [.called 2 (.insert 5 ⟨1, 0⟩) (.ok .inserted), .finished 2 (some {}), .called 1 (.search 5) (.ok (.rids []))] tree' :=
  have atomic := tree_calls_are_atomic 7 {} abortedInsert _ rfl abortedInsert_abortsOwn
  ⟨atomic.choose, atomic.choose_spec.1⟩

end TreeSystem

end FlintDB
