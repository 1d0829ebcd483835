import FlintDB.Txn.CrashAtomicity

set_option autoImplicit false

namespace FlintDB

open Lib

def TxnShown (entries : List (LogEntry Nat PageKey PageImage)) (txnId : Nat) (txn : Transaction) : Prop :=
  match txn.phase with
  | .beginning | .running | .discarding _ | .discarded => Unlogged entries txnId
  | .logging pending => txnId ∉ commits entries ∧
    ∀ key, Updated entries txnId key ↔ key ∈ txn.dirtiedPages ∧ key ∉ pending
  | .forcing _ | .flushing _ => txnId ∈ commits entries ∧ ∀ key, Updated entries txnId key ↔ key ∈ txn.dirtiedPages

def EndShown (entries : List (LogEntry Nat PageKey PageImage)) (events : List Event) (txnId : Nat) : Prop :=
  (txnId ∈ released events ∧ txnId ∈ commits entries ∧
      ∀ key, Updated entries txnId key ↔ key ∈ (writesOf (accessesOf txnId events)).map Prod.fst) ∨
    (txnId ∉ released events ∧ Unlogged entries txnId)

structure LogView (entries : List (LogEntry Nat PageKey PageImage)) (events : List Event) (s : Engine) : Prop where
  isolated : Isolated entries
  faithful : ∀ txnId key image, .update txnId key image ∈ entries → ∀ store,
    applyWrites store (writesOf (accessesOf txnId events)) key = image
  begun : ∀ txnId txn, s.activeTxns txnId = some txn → txn.phase ≠ .beginning → .other txnId ∈ entries
  active : ∀ txnId txn, s.activeTxns txnId = some txn → TxnShown entries txnId txn
  ended : ∀ txnId, s.activeTxns txnId = none → EndShown entries events txnId

section Frame

variable {entries : List (LogEntry Nat PageKey PageImage)} {events : List Event} {event : Event} {txnId : Nat}
  {txn : Transaction}

theorem TxnShown.foreign (shown : TxnShown entries txnId txn) (foreign : Foreign event txnId) :
    TxnShown (entries ++ event.logEntry.toList) txnId txn := by
  unfold TxnShown at shown ⊢
  cases phase : txn.phase with
  | beginning | running | discarding | discarded =>
    simp only [phase] at shown ⊢
    exact (unlogged_foreign foreign).mpr shown
  | logging | forcing | flushing =>
    simp only [phase, updated_foreign foreign, commits_foreign foreign] at shown ⊢
    exact shown

theorem EndShown.foreign (shown : EndShown entries events txnId) (foreign : Foreign event txnId) :
    EndShown (entries ++ event.logEntry.toList) (events ++ [event]) txnId := by
  rcases shown with ⟨done, committed, updated⟩ | ⟨undone, unlogged⟩
  · refine .inl ⟨(released_foreign foreign).mpr done, (commits_foreign foreign).mpr committed, fun key => ?_⟩
    rw [updated_foreign foreign, accessesOf_foreign foreign]
    exact updated key
  · exact .inr ⟨fun done => undone ((released_foreign foreign).mp done), (unlogged_foreign foreign).mpr unlogged⟩

end Frame

namespace LogView

variable {entries : List (LogEntry Nat PageKey PageImage)} {init : PageKey → PageImage} {events : List Event}
  {event : Event} {s s' : Engine} {txnId : Nat} {txn txn' : Transaction}

theorem next (view : LogView entries events s)
    (others : ∀ other, other ≠ event.txnId → s'.activeTxns other = s.activeTxns other)
    (begun : ∀ txn, s'.activeTxns event.txnId = some txn → txn.phase ≠ .beginning →
      .other event.txnId ∈ entries ++ event.logEntry.toList)
    (active : ∀ txn, s'.activeTxns event.txnId = some txn →
      TxnShown (entries ++ event.logEntry.toList) event.txnId txn)
    (ended : s'.activeTxns event.txnId = none →
      EndShown (entries ++ event.logEntry.toList) (events ++ [event]) event.txnId)
    (permits : ∀ entry, event.logEntry = some entry → Permits entries entry)
    (updates : ∀ key image, event = .appendUpdate event.txnId key image → ∀ store,
      applyWrites store (writesOf (accessesOf event.txnId events)) key = image)
    (silent : event.access = none ∨ Unlogged entries event.txnId) :
    LogView (entries ++ event.logEntry.toList) (events ++ [event]) s' := by
  refine ⟨?_, ?_, ?_, ?_, ?_⟩
  · cases logs : event.logEntry with
    | none => simpa using view.isolated
    | some entry => exact isolated_snoc.mpr ⟨view.isolated, permits entry logs⟩
  · intro other key image member store
    rcases List.mem_append.mp member with before | logs
    · have same : accessesOf other (events ++ [event]) = accessesOf other events := by
        rcases silent with noAccess | unlogged
        · exact accessesOf_none noAccess
        · refine accessesOf_other ?_
          rintro rfl
          exact unlogged.no_update key ⟨image, before⟩
      rw [same]
      exact view.faithful other key image before store
    · have here := logEntry_update (Option.mem_toList.mp logs)
      subst here
      rw [accessesOf_none rfl]
      exact updates key image rfl store
  · intro other found present started
    by_cases same : other = event.txnId
    · subst same
      exact begun found present started
    · exact List.mem_append_left _ (view.begun other found (others other same ▸ present) started)
  · intro other found present
    by_cases same : other = event.txnId
    · subst same
      exact active found present
    · exact (view.active other found (others other same ▸ present)).foreign (.inl same)
  · intro other gone
    by_cases same : other = event.txnId
    · subst same
      exact ended gone
    · exact (view.ended other (others other same ▸ gone)).foreign (.inl same)

theorem proceeds (view : LogView entries events s) (event : Event) (noEntry : event.logEntry = none)
    (active : s.activeTxns event.txnId = some txn) (started : txn.phase ≠ .beginning)
    (after : s'.activeTxns = Function.update s.activeTxns event.txnId (some txn'))
    (shown : TxnShown entries event.txnId txn') (silent : event.access = none ∨ Unlogged entries event.txnId) :
    LogView entries (events ++ [event]) s' := by
  have begun := view.begun event.txnId txn active started
  have stepped : LogView (entries ++ event.logEntry.toList) (events ++ [event]) s' := by
    refine view.next (fun other different => by simp [after, different]) (fun _ _ _ => List.mem_append_left _ begun)
      (fun found present => ?_) (fun gone => by simp [after] at gone) (by simp [noEntry])
      (fun key image appends => ?_) silent
    · rw [after, Function.update_self] at present
      cases present
      simpa [noEntry] using shown
    · rw [appends] at noEntry
      cases noEntry
  simpa [noEntry] using stepped

theorem idles (view : LogView entries events s)
    (quietly : event.logEntry = none ∧ event.access = none ∧ ∀ other, event ≠ .commitRelease other)
    (txns : s'.activeTxns = s.activeTxns) : LogView entries (events ++ [event]) s' := by
  have stepped : LogView (entries ++ event.logEntry.toList) (events ++ [event]) s' := by
    refine view.next (fun other _ => by rw [txns]) (fun found present started => ?_) (fun found present => ?_)
      (fun gone => (view.ended _ (txns ▸ gone)).foreign (.inr quietly)) (by simp [quietly.1])
      (fun key image appends => ?_) (.inl quietly.2.1)
    · exact List.mem_append_left _ (view.begun _ found (txns ▸ present) started)
    · exact (view.active _ found (txns ▸ present)).foreign (.inr quietly)
    · rw [appends] at quietly
      cases quietly.1
  simpa [quietly.1] using stepped

theorem appends {entry : LogEntry Nat PageKey PageImage} (view : LogView entries events s) (event : Event)
    (logs : event.logEntry = some entry) (noAccess : event.access = none)
    (after : s'.activeTxns = Function.update s.activeTxns event.txnId (some txn'))
    (begun : .other event.txnId ∈ entries ++ [entry]) (permits : Permits entries entry)
    (updates : ∀ key image, event = .appendUpdate event.txnId key image → ∀ store,
      applyWrites store (writesOf (accessesOf event.txnId events)) key = image)
    (shown : TxnShown (entries ++ [entry]) event.txnId txn') :
    LogView (entries ++ [entry]) (events ++ [event]) s' := by
  have stepped : LogView (entries ++ event.logEntry.toList) (events ++ [event]) s' := by
    refine view.next (fun other different => by simp [after, different]) (fun _ _ _ => by simpa [logs] using begun)
      (fun found present => ?_) (fun gone => by simp [after] at gone) (fun other here => ?_) updates (.inl noAccess)
    · rw [after, Function.update_self] at present
      cases present
      simpa [logs] using shown
    · cases logs.symm.trans here
      exact permits
  simpa [logs] using stepped

theorem finishes (view : LogView entries events s) (event : Event) (noEntry : event.logEntry = none)
    (noAccess : event.access = none) (after : s'.activeTxns = Function.update s.activeTxns event.txnId none)
    (shown : EndShown entries (events ++ [event]) event.txnId) : LogView entries (events ++ [event]) s' := by
  have stepped : LogView (entries ++ event.logEntry.toList) (events ++ [event]) s' := by
    refine view.next (fun other different => by simp [after, different]) (fun found present => by simp [after] at present)
      (fun found present => by simp [after] at present) (fun _ => by simpa [noEntry] using shown) (by simp [noEntry])
      (fun key image appends => ?_) (.inl noAccess)
    rw [appends] at noEntry
    cases noEntry
  simpa [noEntry] using stepped

theorem unlogged_of_running (view : LogView entries events s) (active : s.activeTxns txnId = some txn)
    (running : txn.phase = .running) : Unlogged entries txnId := by
  have mine := view.active txnId txn active
  simpa only [TxnShown, running] using mine

theorem unlogged_other (unlogged : Unlogged entries txnId) : Unlogged (entries ++ [.other txnId]) txnId :=
  ⟨fun key updated => unlogged.no_update key (by simpa [Updated] using updated), by simpa using unlogged.no_commit⟩

theorem updated_of_committed (view : LogView entries events s) (serial : Engine.Serial init events s)
    (committed : txnId ∈ commits entries) (key : PageKey) :
    Updated entries txnId key ↔ key ∈ (writesOf (accessesOf txnId events)).map Prod.fst := by
  cases found : s.activeTxns txnId with
  | none =>
    rcases view.ended txnId found with ⟨-, -, updated⟩ | ⟨-, unlogged⟩
    · exact updated key
    · exact absurd committed unlogged.no_commit
  | some txn =>
    have mine := view.active txnId txn found
    unfold TxnShown at mine
    rw [← serial.dirtied txnId txn found key]
    split at mine
    · exact absurd committed mine.no_commit
    · exact absurd committed mine.no_commit
    · exact absurd committed mine.no_commit
    · exact absurd committed mine.no_commit
    · exact absurd committed mine.1
    · exact mine.2 key
    · exact mine.2 key

theorem appendsUpdate {key : PageKey} {image : PageImage} (view : LogView entries events s)
    (serial : Engine.Serial init events s) (stepped : s.step (.appendUpdate txnId key image) = some s') :
    LogView (entries ++ [.update txnId key image]) (events ++ [.appendUpdate txnId key image]) s' := by
  obtain ⟨txn, pending, pools, log, lsn, active, phase, member, imageEq, appended, rfl, loads, within⟩ :=
    Engine.step_appendUpdate stepped
  have mine : key ∈ txn.dirtiedPages := serial.dirtied_of_pending active phase member
  have begun := view.begun txnId txn active (by simp [phase])
  obtain ⟨uncommitted, updated⟩ : txnId ∉ commits entries ∧ ∀ key,
      Updated entries txnId key ↔ key ∈ txn.dirtiedPages ∧ key ∉ pending := by
    have shown := view.active txnId txn active
    simpa only [TxnShown, phase] using shown
  have written : ∀ store, applyWrites store (writesOf (accessesOf txnId events)) key = image := by
    intro store
    have state := serial.dirty txnId txn active key mine
    rw [phase] at state
    rw [imageEq, state.1]
    exact applyWrites_congr _ _ _ _ (.inl ((serial.dirtied txnId txn active key).mp mine))
  -- everyone else who updated the page has let go of it, so it has committed
  have permits : Permits entries (.update txnId key image) := by
    refine ⟨uncommitted, fun other different updatedBy => ?_⟩
    cases found : s.activeTxns other with
    | none =>
      rcases view.ended other found with ⟨-, committed, -⟩ | ⟨-, unlogged⟩
      · exact committed
      · exact absurd updatedBy (unlogged.no_update key)
    | some txn' =>
      have clean : key ∉ txn'.dirtiedPages := serial.not_dirtied_by_other
        (.inl (serial.exclusive txnId txn active key mine)) found different
      have theirs := view.active other txn' found
      unfold TxnShown at theirs
      split at theirs
      · exact absurd updatedBy (theirs.no_update key)
      · exact absurd updatedBy (theirs.no_update key)
      · exact absurd updatedBy (theirs.no_update key)
      · exact absurd updatedBy (theirs.no_update key)
      · exact absurd ((theirs.2 key).mp updatedBy).1 clean
      · exact theirs.1
      · exact theirs.1
  refine view.appends (.appendUpdate txnId key image) rfl rfl rfl (List.mem_append_left _ begun) permits
    (fun key' image' same => ?_) ?_
  · simp only [Event.txnId, Event.appendUpdate.injEq, true_and] at same
    obtain ⟨rfl, rfl⟩ := same
    exact written
  · simp only [TxnShown, Event.txnId]
    refine ⟨by simpa using uncommitted, fun other => ?_⟩
    have before : Updated (entries ++ [.update txnId key image]) txnId other ↔
        Updated entries txnId other ∨ other = key := by
      simp [Updated, exists_or]
    rw [before, updated other, Finset.mem_erase]
    by_cases same : other = key
    · simp [same, mine]
    · simp [same]

theorem appendsCommit (view : LogView entries events s) (stepped : s.step (.appendCommit txnId) = some s') :
    LogView (entries ++ [.commit txnId]) (events ++ [.appendCommit txnId]) s' := by
  obtain ⟨txn, log, lsn, active, phase, appended, rfl⟩ := Engine.step_appendCommit stepped
  have begun := view.begun txnId txn active (by simp [phase])
  obtain ⟨uncommitted, updated⟩ : txnId ∉ commits entries ∧ ∀ key,
      Updated entries txnId key ↔ key ∈ txn.dirtiedPages ∧ key ∉ (∅ : Finset PageKey) := by
    have shown := view.active txnId txn active
    simpa only [TxnShown, phase] using shown
  refine view.appends (.appendCommit txnId) rfl rfl rfl (List.mem_append_left _ begun) uncommitted (by simp) ?_
  simp only [TxnShown, Event.txnId]
  refine ⟨by simp, fun key => ?_⟩
  have before : Updated (entries ++ [.commit txnId]) txnId key ↔ Updated entries txnId key := by
    simp [Updated]
  rw [before, updated key]
  simp

theorem begins (view : LogView entries events s) (serial : Engine.Serial init events s)
    (stepped : s.step (.begin txnId) = some s') :
    LogView (entries ++ (Event.begin txnId).logEntry.toList) (events ++ [.begin txnId]) s' := by
  obtain ⟨next, small, rfl⟩ := Engine.step_begin stepped
  have fresh : s.activeTxns txnId = none := by
    by_contra active
    exact absurd (serial.born txnId active) (by omega)
  have unlogged : Unlogged entries txnId := by
    rcases view.ended txnId fresh with ⟨done, -⟩ | ⟨-, unlogged⟩
    · exact absurd (serial.ended txnId done).1 (by omega)
    · exact unlogged
  refine view.next (fun _ different => Function.update_of_ne different _ _)
    (fun found present started => ?_) (fun found present => ?_)
    (fun gone => by simp [Engine.setTxn, Event.txnId] at gone) (by simp [Event.logEntry]) (by simp) (.inl rfl)
  · simp only [Engine.setTxn, Event.txnId, Function.update_self, Option.some.injEq] at present
    subst present
    exact absurd rfl started
  · simp only [Engine.setTxn, Event.txnId, Function.update_self, Option.some.injEq] at present
    subst present
    simpa only [TxnShown, Event.logEntry, Option.toList_none, List.append_nil, Event.txnId] using unlogged

theorem silently (noEntry : event.logEntry = none) (view : LogView entries (events ++ [event]) s') :
    LogView (entries ++ event.logEntry.toList) (events ++ [event]) s' := by
  simpa [noEntry] using view

theorem step (view : LogView entries events s) (serial : Engine.Serial init events s)
    (stepped : s.step event = some s') : LogView (entries ++ event.logEntry.toList) (events ++ [event]) s' := by
  cases event with
  | begin txnId => exact view.begins serial stepped
  | appendBegin txnId =>
    obtain ⟨txn, log, lsn, active, phase, -, rfl⟩ := Engine.step_appendBegin stepped
    have mine := view.active txnId txn active
    simp only [TxnShown, phase] at mine
    exact view.appends (.appendBegin txnId) rfl rfl rfl (by simp [Event.txnId]) trivial (by simp) (unlogged_other mine)
  | lock txnId key mode =>
    obtain ⟨txn, active, running, same | ⟨next, -, same⟩⟩ := Engine.step_lock stepped <;> subst same
    all_goals
      exact silently rfl (view.idles ⟨rfl, rfl, by simp⟩ rfl)
  | read txnId key image =>
    obtain ⟨txn, pools, active, running, -, -, rfl, -⟩ := Engine.step_read stepped
    have unlogged := view.unlogged_of_running active running
    exact silently rfl (view.proceeds (.read txnId key image) rfl active (by simp [running])
      (Function.update_eq_self_iff.mpr active.symm).symm (view.active txnId txn active) (.inr unlogged))
  | write txnId key image =>
    obtain ⟨txn, pools, active, running, -, rfl, -⟩ := Engine.step_write stepped
    have unlogged := view.unlogged_of_running active running
    exact silently rfl (view.proceeds (.write txnId key image) rfl active (by simp [running]) rfl
      (by simpa only [TxnShown, running, Event.txnId] using unlogged) (.inr unlogged))
  | allocate txnId key =>
    obtain ⟨txn, pools, locks, active, running, -, rfl, -⟩ := Engine.step_allocate serial.wellFormed stepped
    have unlogged := view.unlogged_of_running active running
    exact silently rfl (view.proceeds (.allocate txnId key) rfl active (by simp [running]) rfl
      (by simpa only [TxnShown, running, Event.txnId] using unlogged) (.inr unlogged))
  | commit txnId =>
    obtain ⟨txn, active, running, rfl⟩ := Engine.step_commit stepped
    have unlogged := view.unlogged_of_running active running
    exact silently rfl (view.proceeds (.commit txnId) rfl active (by simp [running]) rfl
      ⟨unlogged.no_commit, fun key => ⟨fun updated => absurd updated (unlogged.no_update key),
        fun pages => absurd pages.1 pages.2⟩⟩ (.inl rfl))
  | appendUpdate txnId key image => exact view.appendsUpdate serial stepped
  | appendCommit txnId => exact view.appendsCommit stepped
  | flushBegin txnId =>
    obtain ⟨txn, lsn, -, -, -, -, rfl⟩ := Engine.step_flushBegin stepped
    exact silently rfl (view.idles ⟨rfl, rfl, by simp⟩ rfl)
  | fsync txnId covered =>
    obtain ⟨flusher, -, -, -, -, rfl⟩ := Engine.step_fsync stepped
    exact silently rfl (view.idles ⟨rfl, rfl, by simp⟩ rfl)
  | flushEnd txnId =>
    obtain ⟨flusher, -, -, -, rfl⟩ := Engine.step_flushEnd stepped
    exact silently rfl (view.idles ⟨rfl, rfl, by simp⟩ rfl)
  | flushReturn txnId =>
    obtain ⟨txn, lsn, active, phase, -, rfl⟩ := Engine.step_flushReturn stepped
    have mine := view.active txnId txn active
    simp only [TxnShown, phase] at mine
    exact silently rfl (view.proceeds (.flushReturn txnId) rfl active (by simp [phase]) rfl mine (.inl rfl))
  | flushPage txnId key =>
    obtain ⟨txn, pending, pools, active, phase, -, rfl, -⟩ := Engine.step_flushPage stepped
    have mine := view.active txnId txn active
    simp only [TxnShown, phase] at mine
    exact silently rfl (view.proceeds (.flushPage txnId key) rfl active (by simp [phase]) rfl mine (.inl rfl))
  | flushPageTorn txnId key written =>
    obtain ⟨txn, pending, pools, active, phase, -, rfl, -⟩ := Engine.step_flushPageTorn stepped
    exact silently rfl (view.proceeds (.flushPageTorn txnId key written) rfl active (by simp [phase])
      (Function.update_eq_self_iff.mpr active.symm).symm (view.active txnId txn active) (.inl rfl))
  | commitRelease txnId =>
    obtain ⟨txn, active, phase, rfl⟩ := Engine.step_commitRelease stepped
    have mine := view.active txnId txn active
    simp only [TxnShown, phase] at mine
    have shown : EndShown entries (events ++ [.commitRelease txnId]) txnId := by
      refine .inl ⟨by simp [released_commitRelease], mine.1, fun key => ?_⟩
      rw [accessesOf_none rfl]
      exact (mine.2 key).trans (serial.dirtied txnId txn active key)
    exact silently rfl (view.finishes (.commitRelease txnId) rfl rfl rfl shown)
  | abort txnId =>
    obtain ⟨txn, active, running, rfl⟩ := Engine.step_abort stepped
    exact silently rfl (view.proceeds (.abort txnId) rfl active (by simp [running]) rfl
      (view.unlogged_of_running active running) (.inl rfl))
  | discardPage txnId key =>
    obtain ⟨txn, pending, pools, active, phase, -, rfl, -⟩ := Engine.step_discardPage stepped
    have mine := view.active txnId txn active
    simp only [TxnShown, phase] at mine
    exact silently rfl (view.proceeds (.discardPage txnId key) rfl active (by simp [phase]) rfl mine (.inl rfl))
  | appendAbort txnId =>
    obtain ⟨txn, log, lsn, active, phase, -, rfl⟩ := Engine.step_appendAbort stepped
    have mine := view.active txnId txn active
    simp only [TxnShown, phase] at mine
    exact view.appends (.appendAbort txnId) rfl rfl rfl (by simp [Event.txnId]) trivial (by simp) (unlogged_other mine)
  | abortRelease txnId =>
    obtain ⟨txn, active, phase, rfl⟩ := Engine.step_abortRelease stepped
    have mine := view.active txnId txn active
    simp only [TxnShown, phase] at mine
    have shown : EndShown entries (events ++ [.abortRelease txnId]) txnId := by
      refine .inr ⟨fun done => ?_, mine⟩
      rw [released_other (by simp)] at done
      exact absurd (serial.ended txnId done).2 (by simp [active])
    exact silently rfl (view.finishes (.abortRelease txnId) rfl rfl rfl shown)

theorem start (log : LogManager) (files : Nat → Option DiskManager) : LogView [] [] (Engine.start log files) where
  isolated := isolated_nil
  faithful _ _ _ member := by cases member
  begun _ _ present := by cases present
  active _ _ present := by cases present
  ended txnId _ := by
    refine .inr ⟨by simp [released], ?_, by simp [commits]⟩
    rintro key ⟨image, member⟩
    cases member

theorem forgets {pending : Finset PageKey} (view : LogView entries events s)
    (active : s.activeTxns txnId = some txn) (phase : txn.phase = .logging pending)
    (after : s'.activeTxns =
      Function.update s.activeTxns txnId (some { txn with phase := .discarding txn.dirtiedPages })) :
    LogView (forget (fun other => other = txnId) entries) (events ++ [.abort txnId]) s' := by
  have same : ∀ {other}, other ≠ txnId → ∀ key,
      (Updated (forget (fun other => other = txnId) entries) other key ↔ Updated entries other key) := by
    intro other different key
    simp [Updated, mem_forget_update, different]
  have uncommitted : txnId ∉ commits entries := by
    have mine := view.active txnId txn active
    simp only [TxnShown, phase] at mine
    exact mine.1
  have kept : ∀ {other}, .other other ∈ entries → .other other ∈ forget (fun other => other = txnId) entries := by
    intro other member
    simpa [forget, LogEntry.updater?] using member
  have nothing : Unlogged (forget (fun other => other = txnId) entries) txnId := by
    refine ⟨?_, by rwa [commits_forget]⟩
    rintro key ⟨image, member⟩
    simpa using (mem_forget_update.mp member).2
  refine ⟨view.isolated.forget _, fun other key image member store => ?_, fun other found present started => kept ?_,
    fun other found present => ?_, fun other gone => ?_⟩
  · rw [accessesOf_none rfl]
    exact view.faithful other key image (mem_forget_update.mp member).1 store
  · by_cases own : other = txnId
    · subst own
      exact view.begun other txn active (by simp [phase])
    · rw [after, Function.update_of_ne own] at present
      exact view.begun other found present started
  · by_cases own : other = txnId
    · subst own
      rw [after, Function.update_self] at present
      cases present
      exact nothing
    · rw [after, Function.update_of_ne own] at present
      have shown := view.active other found present
      unfold TxnShown at shown ⊢
      cases theirs : found.phase with
      | beginning | running | discarding | discarded =>
        simp only [theirs] at shown ⊢
        exact ⟨fun key updated => shown.no_update key ((same own key).mp updated),
          by rw [commits_forget]; exact shown.no_commit⟩
      | logging | forcing | flushing =>
        simp only [theirs, same own, commits_forget] at shown ⊢
        exact shown
  · have own : other ≠ txnId := by
      rintro rfl
      simp [after] at gone
    rw [after, Function.update_of_ne own] at gone
    rcases view.ended other gone with ⟨done, committed, updated⟩ | ⟨undone, unlogged⟩
    · refine .inl ⟨by rwa [released_other (by simp)], by rwa [commits_forget], fun key => ?_⟩
      rw [same own, accessesOf_none rfl]
      exact updated key
    · refine .inr ⟨by rwa [released_other (by simp)], ?_, by rw [commits_forget]; exact unlogged.no_commit⟩
      exact fun key updated => unlogged.no_update key ((same own key).mp updated)

end LogView

end FlintDB
