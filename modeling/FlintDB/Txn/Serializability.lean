import FlintDB.Txn.EngineSteps

set_option autoImplicit false

-- The committed transactions, one after another in the order of their ReleaseAll, explain every read and every page.
-- The invariant ties the lock table, the cached pages and the data files to that serial history.

namespace FlintDB

open Lib

section History

variable {event : Event} {events : List Event} {txnId : Nat}

theorem accessesOf_snoc (txnId : Nat) (events : List Event) (event : Event) :
    accessesOf txnId (events ++ [event]) =
      accessesOf txnId events ++ if event.txnId = txnId then event.access.toList else [] := by
  simp only [accessesOf, List.filterMap_append, List.filterMap_cons, List.filterMap_nil]
  split <;> rename_i here
  · split at here
    · rename_i mine
      simp [mine, here]
    · rename_i other
      simp [other]
  · split at here
    · rename_i mine
      simp [mine, here]
    · cases here

theorem accessesOf_other (other : event.txnId ≠ txnId) :
    accessesOf txnId (events ++ [event]) = accessesOf txnId events := by
  simp [accessesOf_snoc, other]

theorem accessesOf_mine (mine : event.txnId = txnId) :
    accessesOf txnId (events ++ [event]) = accessesOf txnId events ++ event.access.toList := by
  simp [accessesOf_snoc, mine]

theorem accessesOf_none (noAccess : event.access = none) :
    accessesOf txnId (events ++ [event]) = accessesOf txnId events := by
  simp [accessesOf_snoc, noAccess]

theorem released_commitRelease (events : List Event) (txnId : Nat) :
    released (events ++ [.commitRelease txnId]) = released events ++ [txnId] := by
  simp [released]

theorem released_other (unreleased : ∀ txnId, event ≠ .commitRelease txnId) :
    released (events ++ [event]) = released events := by
  simp only [released, List.filterMap_append, List.append_right_eq_self]
  cases event <;> simp at unreleased <;> rfl

end History

/-- The accesses of the committed transactions, run one after another. -/
def serialHistory (events : List Event) : List (Access PageKey PageImage) :=
  (released events).flatMap fun txnId => accessesOf txnId events

-- What the committed transactions leave behind.
def committedStore (init : PageKey → PageImage) (events : List Event) : PageKey → PageImage :=
  applyWrites init (writesOf (serialHistory events))

namespace Engine

def PageState (s : Engine) (committed own : PageKey → PageImage) (phase : Phase) (key : PageKey) :
    Prop :=
  match phase with
  | .beginning | .running | .logging _ | .forcing _ =>
    s.content key = own key ∧ s.onDisk key = committed key ∧ s.Unflushed key
  | .flushing pending =>
    s.content key = own key ∧ (key ∈ pending → s.Unflushed key) ∧
      (key ∉ pending → s.onDisk key = own key)
  | .discarding pending =>
    s.onDisk key = committed key ∧ (key ∉ pending → s.content key = committed key)
  | .discarded => s.onDisk key = committed key ∧ s.content key = committed key

structure Serial (init : PageKey → PageImage) (events : List Event) (s : Engine) : Prop where
  wellFormed : s.WellFormed
  consistent : s.locks.Consistent
  born : ∀ txnId, s.activeTxns txnId ≠ none → txnId < s.nextTxnId
  holder : ∀ txnId key, s.locks.Holds txnId key → s.activeTxns txnId ≠ none
  ended : ∀ txnId ∈ released events, txnId < s.nextTxnId ∧ s.activeTxns txnId = none
  unborn : ∀ txnId, s.nextTxnId ≤ txnId → accessesOf txnId events = []
  dirtied : ∀ txnId txn, s.activeTxns txnId = some txn → ∀ key,
    key ∈ txn.dirtiedPages ↔ key ∈ (writesOf (accessesOf txnId events)).map Prod.fst
  pending : ∀ txnId txn, s.activeTxns txnId = some txn → txn.phase.pending ⊆ txn.dirtiedPages
  exclusive : ∀ txnId txn, s.activeTxns txnId = some txn → ∀ key ∈ txn.dirtiedPages,
    s.locks.HoldsExclusive txnId key
  accessed : ∀ txnId, s.activeTxns txnId ≠ none → ∀ access ∈ accessesOf txnId events,
    s.locks.Holds txnId access.key
  reads : ∀ txnId, s.activeTxns txnId ≠ none →
    Replays (committedStore init events) (accessesOf txnId events)
  clean : ∀ key, (∀ txnId txn, s.activeTxns txnId = some txn → key ∉ txn.dirtiedPages) →
    s.content key = committedStore init events key ∧ s.onDisk key = committedStore init events key
  dirty : ∀ txnId txn, s.activeTxns txnId = some txn → ∀ key ∈ txn.dirtiedPages,
    s.PageState (committedStore init events)
      (applyWrites (committedStore init events) (writesOf (accessesOf txnId events))) txn.phase key
  serial : Replays init (serialHistory events)

theorem PageState.congr {s s' : Engine} {committed committed' own own' : PageKey → PageImage}
    {key : PageKey} (phase : Phase) (state : s.PageState committed own phase key)
    (content : s'.content key = s.content key) (onDisk : s'.onDisk key = s.onDisk key)
    (unflushed : s.Unflushed key → s'.Unflushed key) (before : committed' key = committed key)
    (after : own' key = own key) : s'.PageState committed' own' phase key := by
  cases phase with
  | beginning | running | logging | forcing =>
    exact ⟨by rw [content, after, state.1], by rw [onDisk, before, state.2.1],
      unflushed state.2.2⟩
  | flushing pending =>
    exact ⟨by rw [content, after, state.1], fun member => unflushed (state.2.1 member),
      fun gone => by rw [onDisk, after, state.2.2 gone]⟩
  | discarding pending =>
    exact ⟨by rw [onDisk, before, state.1], fun gone => by rw [content, before, state.2 gone]⟩
  | discarded => exact ⟨by rw [onDisk, before, state.1], by rw [content, before, state.2]⟩

namespace Serial

variable {init : PageKey → PageImage} {events : List Event} {event : Event} {s s' : Engine}
  {txnId : Nat} {txn txn' : Transaction}

theorem not_dirtied_by_other (serial : Serial init events s) {other : Nat} {txn : Transaction}
    {key : PageKey} (held : s.locks.Holds txnId key) (active : s.activeTxns other = some txn)
    (different : other ≠ txnId) : key ∉ txn.dirtiedPages := fun member =>
  different (LockManager.exclusive_unique serial.consistent
    (serial.exclusive other txn active key member) held).symm

theorem content_of_held (serial : Serial init events s) (active : s.activeTxns txnId = some txn)
    (running : txn.phase = .running) {key : PageKey} (held : s.locks.Holds txnId key) :
    s.content key = applyWrites (committedStore init events)
      (writesOf (accessesOf txnId events)) key := by
  by_cases mine : key ∈ txn.dirtiedPages
  · have state := serial.dirty txnId txn active key mine
    rw [running] at state
    exact state.1
  · rw [applyWrites_unwritten _ _ _ fun written =>
      mine ((serial.dirtied txnId txn active key).mpr written)]
    refine (serial.clean key fun other found present => ?_).1
    by_cases same : other = txnId
    · subst same
      rw [active] at present
      cases present
      exact mine
    · exact serial.not_dirtied_by_other held present same

theorem serialHistory_unreleased (serial : Serial init events s)
    (unreleased : ∀ txnId, event ≠ .commitRelease txnId)
    (live : event.access = none ∨ s.activeTxns event.txnId ≠ none) :
    serialHistory (events ++ [event]) = serialHistory events := by
  simp only [serialHistory, released_other unreleased]
  refine List.flatMap_congr fun done member => ?_
  rcases live with noAccess | active
  · exact accessesOf_none noAccess
  · refine accessesOf_other ?_
    rintro rfl
    exact active (serial.ended _ member).2

structure Moves (init : PageKey → PageImage) (events : List Event) (event : Event) (s s' : Engine)
    (txn txn' : Transaction) : Prop where
  active : s.activeTxns event.txnId = some txn
  after : s'.activeTxns = Function.update s.activeTxns event.txnId (some txn')
  unreleased : ∀ txnId, event ≠ .commitRelease txnId
  nextTxnId : s'.nextTxnId = s.nextTxnId
  wellFormed : s'.WellFormed
  consistent : s'.locks.Consistent
  gains : ∀ other key, s'.locks.Holds other key → s.locks.Holds other key ∨ other = event.txnId
  keeps : ∀ other key, s.locks.Holds other key → s'.locks.Holds other key
  keepsExclusive : ∀ other key, s.locks.HoldsExclusive other key →
    s'.locks.HoldsExclusive other key
  dirtied : ∀ key, key ∈ txn'.dirtiedPages ↔
    key ∈ txn.dirtiedPages ∨ key ∈ (writesOf event.access.toList).map Prod.fst
  pending : txn'.phase.pending ⊆ txn'.dirtiedPages
  exclusive : ∀ key ∈ txn'.dirtiedPages, s'.locks.HoldsExclusive event.txnId key
  held : ∀ access ∈ event.access, s'.locks.Holds event.txnId access.key
  reads : Replays (applyWrites (committedStore init events)
    (writesOf (accessesOf event.txnId events))) event.access.toList
  frame : ∀ key, key ∉ txn'.dirtiedPages → s'.content key = s.content key ∧
    s'.onDisk key = s.onDisk key ∧ (s.Unflushed key → s'.Unflushed key)
  dirty : ∀ key ∈ txn'.dirtiedPages, s'.PageState (committedStore init events)
    (applyWrites (committedStore init events)
      (writesOf (accessesOf event.txnId events ++ event.access.toList))) txn'.phase key

theorem moves (serial : Serial init events s) (txn txn' : Transaction)
    (moved : Moves init events event s s' txn txn') :
    Serial init (events ++ [event]) s' := by
  have isActive : s.activeTxns event.txnId ≠ none := by simp [moved.active]
  have history : serialHistory (events ++ [event]) = serialHistory events :=
    serial.serialHistory_unreleased moved.unreleased (.inr isActive)
  have store : committedStore init (events ++ [event]) = committedStore init events := by
    simp only [committedStore, history]
  have active_iff : ∀ other, s'.activeTxns other ≠ none ↔ s.activeTxns other ≠ none := by
    intro other
    by_cases same : other = event.txnId
    · subst same
      simp [moved.after, isActive]
    · simp [moved.after, same]
  have others : ∀ other, other ≠ event.txnId → s'.activeTxns other = s.activeTxns other :=
    fun other different => by simp [moved.after, different]
  have mine : s'.activeTxns event.txnId = some txn' := by simp [moved.after]
  have unchanged : ∀ other, other ≠ event.txnId →
      accessesOf other (events ++ [event]) = accessesOf other events :=
    fun other different => accessesOf_other (Ne.symm different)
  have ours : accessesOf event.txnId (events ++ [event]) =
      accessesOf event.txnId events ++ event.access.toList := accessesOf_mine rfl
  refine {
    wellFormed := moved.wellFormed
    consistent := moved.consistent
    born := fun other active => by
      rw [moved.nextTxnId]
      exact serial.born other ((active_iff other).mp active)
    holder := ?_, ended := ?_, unborn := ?_, dirtied := ?_, pending := ?_, exclusive := ?_
    accessed := ?_, reads := ?_, clean := ?_, dirty := ?_
    serial := by rw [history]; exact serial.serial }
  · intro other key held
    rw [active_iff]
    rcases moved.gains other key held with before | same
    · exact serial.holder other key before
    · exact same ▸ isActive
  · intro other member
    rw [released_other moved.unreleased] at member
    obtain ⟨born, inactive⟩ := serial.ended other member
    have different : other ≠ event.txnId := by
      rintro rfl
      exact isActive inactive
    exact ⟨by rwa [moved.nextTxnId], by rw [others other different, inactive]⟩
  · intro other unborn
    rw [moved.nextTxnId] at unborn
    have different : other ≠ event.txnId := by
      rintro rfl
      exact absurd (serial.born _ isActive) (Nat.not_lt.mpr unborn)
    rw [unchanged other different, serial.unborn other unborn]
  · intro other found present key
    by_cases same : other = event.txnId
    · subst same
      rw [mine] at present
      cases present
      rw [ours, writesOf_append, List.map_append, List.mem_append, moved.dirtied,
        serial.dirtied _ txn moved.active]
    · rw [unchanged other same, serial.dirtied other found (others other same ▸ present)]
  · intro other found present
    by_cases same : other = event.txnId
    · subst same
      rw [mine] at present
      cases present
      exact moved.pending
    · exact serial.pending other found (others other same ▸ present)
  · intro other found present key member
    by_cases same : other = event.txnId
    · subst same
      rw [mine] at present
      cases present
      exact moved.exclusive key member
    · exact moved.keepsExclusive other key
        (serial.exclusive other found (others other same ▸ present) key member)
  · intro other active access member
    by_cases same : other = event.txnId
    · subst same
      rw [ours, List.mem_append, Option.mem_toList] at member
      rcases member with before | new
      · exact moved.keeps _ _ (serial.accessed _ isActive access before)
      · exact moved.held access new
    · rw [unchanged other same] at member
      exact moved.keeps _ _ (serial.accessed other ((active_iff other).mp active) access member)
  · intro other active
    rw [store]
    by_cases same : other = event.txnId
    · subst same
      rw [ours, replays_append]
      exact ⟨serial.reads _ isActive, moved.reads⟩
    · rw [unchanged other same]
      exact serial.reads other ((active_iff other).mp active)
  · intro key untouched
    obtain ⟨content, onDisk, -⟩ := moved.frame key (untouched _ txn' mine)
    rw [store, content, onDisk]
    refine serial.clean key fun other found present => ?_
    by_cases same : other = event.txnId
    · subst same
      rw [moved.active] at present
      cases present
      exact fun member => untouched _ txn' mine ((moved.dirtied key).mpr (.inl member))
    · exact untouched other found (by rw [others other same, present])
  · intro other found present key member
    rw [store]
    by_cases same : other = event.txnId
    · subst same
      rw [mine] at present
      cases present
      rw [ours]
      exact moved.dirty key member
    · rw [unchanged other same]
      have before := others other same ▸ present
      have held : s'.locks.HoldsExclusive other key :=
        moved.keepsExclusive _ _ (serial.exclusive other found before key member)
      have notMine : key ∉ txn'.dirtiedPages := fun alsoMine =>
        same (LockManager.exclusive_unique moved.consistent (moved.exclusive key alsoMine)
          (.inl held))
      obtain ⟨content, onDisk, unflushed⟩ := moved.frame key notMine
      exact (serial.dirty other found before key member).congr _ content onDisk unflushed rfl rfl

theorem proceeds (serial : Serial init events s) (event : Event) (phase : Phase)
    (active : s.activeTxns event.txnId = some txn) (noAccess : event.access = none)
    (unreleased : ∀ txnId, event ≠ .commitRelease txnId)
    (after : s'.activeTxns =
      Function.update s.activeTxns event.txnId (some { txn with phase := phase }))
    (nextTxnId : s'.nextTxnId = s.nextTxnId) (locks : s'.locks = s.locks)
    (wellFormed : s.WellFormed → s'.WellFormed) (pending : phase.pending ⊆ txn.dirtiedPages)
    (frame : ∀ key, key ∉ txn.dirtiedPages → s'.content key = s.content key ∧
      s'.onDisk key = s.onDisk key ∧ (s.Unflushed key → s'.Unflushed key))
    (dirty : ∀ committed own, ∀ key ∈ txn.dirtiedPages,
      s.PageState committed own txn.phase key → s'.PageState committed own phase key) :
    Serial init (events ++ [event]) s' := by
  refine serial.moves txn { txn with phase := phase } {
    active := active, after := after, unreleased := unreleased, nextTxnId := nextTxnId
    wellFormed := wellFormed serial.wellFormed
    consistent := locks ▸ serial.consistent
    gains := fun other key held => .inl (locks ▸ held)
    keeps := fun other key held => locks ▸ held
    keepsExclusive := fun other key held => locks ▸ held
    dirtied := by simp [noAccess]
    pending := pending
    exclusive := fun key member => locks ▸ serial.exclusive _ txn active key member
    held := by simp [noAccess]
    reads := by simp [noAccess, Replays]
    frame := frame
    dirty := fun key member => ?_ }
  simpa [noAccess] using dirty _ _ key member (serial.dirty _ txn active key member)

theorem idles (serial : Serial init events s) (noAccess : event.access = none)
    (unreleased : ∀ txnId, event ≠ .commitRelease txnId) (txns : s'.activeTxns = s.activeTxns)
    (nextTxnId : s'.nextTxnId = s.nextTxnId) (locks : s'.locks = s.locks)
    (pools : s'.pools = s.pools) : Serial init (events ++ [event]) s' := by
  have history : serialHistory (events ++ [event]) = serialHistory events :=
    serial.serialHistory_unreleased unreleased (.inl noAccess)
  have store : committedStore init (events ++ [event]) = committedStore init events := by
    simp only [committedStore, history]
  have accesses : ∀ other, accessesOf other (events ++ [event]) = accessesOf other events :=
    fun other => accessesOf_none noAccess
  refine {
    wellFormed := by simpa only [WellFormed, pools] using serial.wellFormed
    consistent := by rw [locks]; exact serial.consistent
    born := by rw [txns, nextTxnId]; exact serial.born
    holder := by rw [txns, locks]; exact serial.holder
    ended := by rw [released_other unreleased, txns, nextTxnId]; exact serial.ended
    unborn := by simpa only [accesses, nextTxnId] using serial.unborn
    dirtied := by simpa only [accesses, txns] using serial.dirtied
    pending := by rw [txns]; exact serial.pending
    exclusive := by rw [txns, locks]; exact serial.exclusive
    accessed := by simpa only [accesses, txns, locks] using serial.accessed
    reads := by simpa only [accesses, txns, store] using serial.reads
    clean := by
      simpa only [txns, store, content_eq_of_pools pools, onDisk_eq_of_pools pools]
        using serial.clean
    dirty := fun other found present key member => ?_
    serial := by rw [history]; exact serial.serial }
  rw [store, accesses]
  exact (serial.dirty other found (txns ▸ present) key member).congr _
    (by rw [content_eq_of_pools pools]) (by rw [onDisk_eq_of_pools pools])
    (unflushed_of_pools pools).mpr rfl rfl

theorem begins (serial : Serial init events s) (next : txnId = s.nextTxnId) :
    Serial init (events ++ [.begin txnId])
      { s.setTxn txnId {} with nextTxnId := txnId + 1 } := by
  have fresh : s.activeTxns txnId = none := by
    by_contra active
    exact absurd (serial.born txnId active) (by omega)
  have unheld : ∀ other key, s.locks.Holds other key → other ≠ txnId := by
    rintro other key held rfl
    exact serial.holder other key held fresh
  have history : serialHistory (events ++ [.begin txnId]) = serialHistory events :=
    serial.serialHistory_unreleased (by simp) (.inl rfl)
  have store : committedStore init (events ++ [.begin txnId]) = committedStore init events := by
    simp only [committedStore, history]
  have accesses : ∀ other, accessesOf other (events ++ [.begin txnId]) = accessesOf other events :=
    fun other => accessesOf_none rfl
  have silent : accessesOf txnId events = [] := serial.unborn txnId next.ge
  have active_or : ∀ other txn, (Function.update s.activeTxns txnId (some {})) other = some txn →
      (other = txnId ∧ txn = {}) ∨ (other ≠ txnId ∧ s.activeTxns other = some txn) := by
    intro other txn present
    by_cases same : other = txnId
    · subst same
      simp only [Function.update_self, Option.some.injEq] at present
      exact .inl ⟨rfl, present.symm⟩
    · rw [Function.update_of_ne same] at present
      exact .inr ⟨same, present⟩
  refine {
    wellFormed := serial.wellFormed
    consistent := serial.consistent
    born := ?_, holder := ?_, ended := ?_
    unborn := fun other unborn => ?_
    dirtied := ?_, pending := ?_, exclusive := ?_, accessed := ?_, reads := ?_, clean := ?_
    dirty := ?_
    serial := by rw [history]; exact serial.serial }
  · intro other active
    obtain ⟨txn, present⟩ := Option.ne_none_iff_exists'.mp active
    rcases active_or other txn present with ⟨rfl, -⟩ | ⟨-, before⟩
    · exact Nat.lt_succ_self _
    · exact Nat.lt_succ_of_lt (next ▸ serial.born other (by simp [before]))
  · intro other key held
    have different := unheld other key held
    simpa [setTxn, different] using serial.holder other key held
  · intro other member
    rw [released_other (by simp)] at member
    obtain ⟨born, inactive⟩ := serial.ended other member
    have different : other ≠ txnId := by omega
    exact ⟨Nat.lt_succ_of_lt (next ▸ born), by simpa [setTxn, different] using inactive⟩
  · rw [accesses]
    exact serial.unborn other (next ▸ Nat.le_of_succ_le unborn)
  · intro other txn present key
    rw [accesses]
    rcases active_or other txn present with ⟨rfl, rfl⟩ | ⟨-, before⟩
    · simp [silent]
    · exact serial.dirtied other txn before key
  · intro other txn present
    rcases active_or other txn present with ⟨rfl, rfl⟩ | ⟨-, before⟩
    · exact Finset.empty_subset _
    · exact serial.pending other txn before
  · intro other txn present key member
    rcases active_or other txn present with ⟨rfl, rfl⟩ | ⟨-, before⟩
    · simp at member
    · exact serial.exclusive other txn before key member
  · intro other active access member
    rw [accesses] at member
    obtain ⟨txn, present⟩ := Option.ne_none_iff_exists'.mp active
    rcases active_or other txn present with ⟨rfl, -⟩ | ⟨-, before⟩
    · simp [silent] at member
    · exact serial.accessed other (by simp [before]) access member
  · intro other active
    rw [accesses, store]
    obtain ⟨txn, present⟩ := Option.ne_none_iff_exists'.mp active
    rcases active_or other txn present with ⟨rfl, -⟩ | ⟨-, before⟩
    · simp [silent, Replays]
    · exact serial.reads other (by simp [before])
  · intro key untouched
    rw [store]
    refine serial.clean key fun other txn before => untouched other txn ?_
    have different : other ≠ txnId := by
      rintro rfl
      simp [fresh] at before
    simpa [setTxn, different] using before
  · intro other txn present key member
    rw [store, accesses]
    rcases active_or other txn present with ⟨rfl, rfl⟩ | ⟨-, before⟩
    · simp at member
    · exact (serial.dirty other txn before key member).congr _ rfl rfl id rfl rfl

theorem finishes (serial : Serial init events s) (event : Event)
    (active : s.activeTxns event.txnId = some txn)
    (noAccess : event.access = none)
    (ended : ∀ other ∈ released (events ++ [event]),
      other ∈ released events ∨ other = event.txnId)
    (history : Replays init (serialHistory (events ++ [event])))
    (dirty : ∀ key ∈ txn.dirtiedPages,
      s.content key = committedStore init (events ++ [event]) key ∧
        s.onDisk key = committedStore init (events ++ [event]) key)
    (frame : ∀ key, key ∉ txn.dirtiedPages →
      committedStore init (events ++ [event]) key = committedStore init events key) :
    Serial init (events ++ [event]) (s.finish event.txnId) := by
  have accesses : ∀ other, accessesOf other (events ++ [event]) = accessesOf other events :=
    fun other => accessesOf_none noAccess
  have holds_iff : ∀ other key, (s.finish event.txnId).locks.Holds other key ↔
      other ≠ event.txnId ∧ s.locks.Holds other key :=
    LockManager.holds_releaseAll serial.consistent
  have active_or : ∀ other found, (s.finish event.txnId).activeTxns other = some found →
      other ≠ event.txnId ∧ s.activeTxns other = some found := by
    intro other found present
    by_cases same : other = event.txnId
    · subst same
      simp [finish] at present
    · exact ⟨same, by simpa [finish, same] using present⟩
  have active_ne : ∀ other, (s.finish event.txnId).activeTxns other ≠ none →
      other ≠ event.txnId ∧ s.activeTxns other ≠ none := by
    intro other active
    obtain ⟨found, present⟩ := Option.ne_none_iff_exists'.mp active
    exact ⟨(active_or other found present).1, by simp [(active_or other found present).2]⟩
  -- what another transaction has locked is not among the pages of this one
  have apart : ∀ other key, other ≠ event.txnId → s.locks.Holds other key →
      committedStore init (events ++ [event]) key = committedStore init events key :=
    fun other key different held =>
      frame key (serial.not_dirtied_by_other held active (Ne.symm different))
  refine {
    wellFormed := serial.wellFormed
    consistent := LockManager.consistent_releaseAll serial.consistent
    born := fun other active => serial.born other (active_ne other active).2
    holder := ?_, ended := ?_
    unborn := fun other unborn => by rw [accesses]; exact serial.unborn other unborn
    dirtied := ?_, pending := ?_, exclusive := ?_, accessed := ?_, reads := ?_, clean := ?_
    dirty := ?_
    serial := history }
  · intro other key held
    obtain ⟨different, before⟩ := (holds_iff other key).mp held
    simpa [finish, different] using serial.holder other key before
  · intro other member
    rcases ended other member with before | same
    · obtain ⟨born, inactive⟩ := serial.ended other before
      refine ⟨born, ?_⟩
      by_cases same : other = event.txnId
      · simp [finish, same]
      · simpa [finish, same] using inactive
    · subst same
      exact ⟨serial.born _ (by simp [active]), by simp [finish]⟩
  · intro other found present key
    rw [accesses]
    exact serial.dirtied other found (active_or other found present).2 key
  · exact fun other found present => serial.pending other found (active_or other found present).2
  · intro other found present key member
    obtain ⟨different, before⟩ := active_or other found present
    exact (LockManager.holdsExclusive_releaseAll serial.consistent other key).mpr
      ⟨different, serial.exclusive other found before key member⟩
  · intro other active access member
    rw [accesses] at member
    obtain ⟨different, before⟩ := active_ne other active
    exact (holds_iff other _).mpr ⟨different, serial.accessed other before access member⟩
  · intro other active
    rw [accesses]
    obtain ⟨different, before⟩ := active_ne other active
    exact replays_congr (fun access member =>
      (apart other _ different (serial.accessed other before access member)).symm)
      (serial.reads other before)
  · intro key untouched
    by_cases mine : key ∈ txn.dirtiedPages
    · exact dirty key mine
    · rw [frame key mine]
      refine serial.clean key fun other found present => ?_
      by_cases same : other = event.txnId
      · subst same
        rw [active] at present
        cases present
        exact mine
      · exact untouched other found (by simpa [finish, same] using present)
  · intro other found present key member
    rw [accesses]
    obtain ⟨different, before⟩ := active_or other found present
    have same := apart other key different (.inl (serial.exclusive other found before key member))
    refine (serial.dirty other found before key member).congr _ rfl rfl id same ?_
    exact applyWrites_congr _ _ _ _ (.inr same)

theorem commits (serial : Serial init events s) (active : s.activeTxns txnId = some txn)
    (flushed : txn.phase = .flushing ∅) :
    Serial init (events ++ [.commitRelease txnId]) (s.finish txnId) := by
  have history : serialHistory (events ++ [.commitRelease txnId]) =
      serialHistory events ++ accessesOf txnId events := by
    have unchanged : ∀ other, accessesOf other (events ++ [.commitRelease txnId]) =
        accessesOf other events := fun other => accessesOf_none rfl
    simp [serialHistory, released_commitRelease, unchanged]
  have store : committedStore init (events ++ [.commitRelease txnId]) =
      applyWrites (committedStore init events) (writesOf (accessesOf txnId events)) := by
    simp [committedStore, history, applyWrites_append]
  refine serial.finishes (.commitRelease txnId) active rfl (fun other member => ?_) ?_
    (fun key member => ?_) fun key clean => ?_
  · rw [released_commitRelease, List.mem_append, List.mem_singleton] at member
    exact member
  · rw [history, replays_append]
    exact ⟨serial.serial, serial.reads txnId (by simp [active])⟩
  · have state := serial.dirty txnId txn active key member
    rw [flushed] at state
    rw [store]
    exact ⟨state.1, state.2.2 (Finset.notMem_empty key)⟩
  · rw [store]
    exact applyWrites_unwritten _ _ _ fun written =>
      clean ((serial.dirtied txnId txn active key).mpr written)

theorem aborts (serial : Serial init events s) (active : s.activeTxns txnId = some txn)
    (discarded : txn.phase = .discarded) :
    Serial init (events ++ [.abortRelease txnId]) (s.finish txnId) := by
  have history : serialHistory (events ++ [.abortRelease txnId]) = serialHistory events :=
    serial.serialHistory_unreleased (by simp) (.inl rfl)
  have store : committedStore init (events ++ [.abortRelease txnId]) =
      committedStore init events := by
    simp only [committedStore, history]
  refine serial.finishes (.abortRelease txnId) active rfl (fun other member => ?_) ?_
    (fun key member => ?_) fun key _ => by rw [store]
  · rw [released_other (by simp)] at member
    exact .inl member
  · rw [history]
    exact serial.serial
  · have state := serial.dirty txnId txn active key member
    rw [discarded] at state
    rw [store]
    exact ⟨state.2, state.1⟩

theorem locks {key : PageKey} {mode : LockMode} {next : LockManager}
    (serial : Serial init events s) (active : s.activeTxns txnId = some txn)
    (granted : s.locks.acquireLock txnId key mode = .granted next) :
    Serial init (events ++ [.lock txnId key mode]) { s with locks := next } := by
  have spec := LockManager.acquireLock_spec serial.consistent granted
  exact serial.moves txn txn {
    active := active
    after := by simp [Event.txnId, ← active]
    unreleased := by simp
    nextTxnId := rfl
    wellFormed := serial.wellFormed
    consistent := spec.consistent
    gains := fun other key' held => ((spec.holds_iff other key').mp held).imp_right And.left
    keeps := fun other key' held => (spec.holds_iff other key').mpr (.inl held)
    keepsExclusive := fun other key' held => (spec.exclusive_iff other key').mpr (.inl held)
    dirtied := by simp [Event.access]
    pending := serial.pending _ txn active
    exclusive := fun key' member =>
      (spec.exclusive_iff _ key').mpr (.inl (serial.exclusive _ txn active key' member))
    held := by simp [Event.access]
    reads := by simp [Event.access, Replays]
    frame := fun _ _ => ⟨rfl, rfl, id⟩
    dirty := fun key' member => by
      have same : PageState { s with locks := next } _ _ txn.phase key' :=
        (serial.dirty _ txn active key' member).congr _ rfl rfl id rfl rfl
      simpa [Event.access, Event.txnId] using same }

theorem readsPage {key : PageKey} {image : PageImage}
    (serial : Serial init events s) (stepped : s.step (.read txnId key image) = some s') :
    Serial init (events ++ [.read txnId key image]) s' := by
  obtain ⟨txn, pools, active, running, held, imageEq, rfl, loads⟩ := step_read stepped
  refine serial.moves txn txn {
    active := active
    after := by simp [Event.txnId, ← active]
    unreleased := by simp
    nextTxnId := rfl
    wellFormed := loads.wellFormed serial.wellFormed
    consistent := serial.consistent
    gains := fun other key' held => .inl held
    keeps := fun other key' held => held
    keepsExclusive := fun other key' held => held
    dirtied := by simp [Event.access]
    pending := serial.pending _ txn active
    exclusive := serial.exclusive _ txn active
    held := by simpa [Event.access, Event.txnId, Access.key] using held
    reads := ?_
    frame := fun key' _ => ⟨by rw [loads.content], by rw [loads.onDisk], loads.unflushed key'⟩
    dirty := fun key' member => ?_ }
  · have seen := serial.content_of_held active running held
    simpa [Event.access, Event.txnId, Replays, imageEq] using seen.symm
  · simpa [Event.access, Event.txnId] using (serial.dirty _ txn active key' member).congr _
      (congrFun loads.content key') (congrFun loads.onDisk key') (loads.unflushed key') rfl rfl

theorem dirties {key : PageKey} {image : PageImage} (serial : Serial init events s)
    (event : Event)
    (active : s.activeTxns event.txnId = some txn) (running : txn.phase = .running)
    (access : event.access = some (.write key image))
    (unreleased : ∀ txnId, event ≠ .commitRelease txnId)
    (after : s'.activeTxns = Function.update s.activeTxns event.txnId
      (some { txn with dirtiedPages := insert key txn.dirtiedPages }))
    (nextTxnId : s'.nextTxnId = s.nextTxnId)
    (granted : s.locks.Granted s'.locks event.txnId key .kExclusive)
    (touches : Touches s s' key) (content : s'.content key = image)
    (onDisk : s'.onDisk key = s.onDisk key) (unflushed : s'.Unflushed key) :
    Serial init (events ++ [event]) s' := by
  have mine : s'.locks.HoldsExclusive event.txnId key :=
    (granted.exclusive_iff _ _).mpr (.inr ⟨rfl, rfl, rfl⟩)
  have untouched : ∀ other found, s.activeTxns other = some found → other ≠ event.txnId →
      key ∉ found.dirtiedPages := fun other found present different member =>
    different (granted.alone rfl other (.inl (serial.exclusive other found present key member)))
  have before : s.onDisk key = committedStore init events key := by
    by_cases already : key ∈ txn.dirtiedPages
    · have state := serial.dirty _ txn active key already
      rw [running] at state
      exact state.2.1
    · refine (serial.clean key fun other found present => ?_).2
      by_cases same : other = event.txnId
      · subst same
        rw [active] at present
        cases present
        exact already
      · exact untouched other found present same
  refine serial.moves txn { txn with dirtiedPages := insert key txn.dirtiedPages } {
    active := active, after := after, unreleased := unreleased, nextTxnId := nextTxnId
    wellFormed := touches.wellFormed serial.wellFormed
    consistent := granted.consistent
    gains := fun other key' held => ((granted.holds_iff other key').mp held).imp_right And.left
    keeps := fun other key' held => (granted.holds_iff other key').mpr (.inl held)
    keepsExclusive := fun other key' held => (granted.exclusive_iff other key').mpr (.inl held)
    dirtied := by simp [access, or_comm]
    pending := (serial.pending _ txn active).trans (Finset.subset_insert _ _)
    exclusive := fun key' member => ?_
    held := by simpa [access, Access.key, LockManager.Holds] using Or.inl mine
    reads := by simp [access, Replays]
    frame := fun key' clean => ?_
    dirty := fun key' member => ?_ }
  · rcases Finset.mem_insert.mp member with rfl | old
    · exact mine
    · exact (granted.exclusive_iff _ key').mpr (.inl (serial.exclusive _ txn active key' old))
  · exact touches.frame (Finset.mem_insert_self _ _) key' clean
  · have written : writesOf (accessesOf event.txnId events ++ event.access.toList) =
        writesOf (accessesOf event.txnId events) ++ [(key, image)] := by
      simp [access]
    rw [written, applyWrites_snoc]
    by_cases same : key' = key
    · subst same
      rw [running]
      exact ⟨by rw [content, Function.update_self], by rw [onDisk, before], unflushed⟩
    · have old := (Finset.mem_insert.mp member).resolve_left same
      exact (serial.dirty _ txn active key' old).congr _ (touches.content key' same)
        (touches.onDisk key' same) (touches.unflushed key' same) rfl
        (Function.update_of_ne same _ _)

theorem dirtied_of_pending (serial : Serial init events s)
    (active : s.activeTxns txnId = some txn) {phase : Phase} (at_phase : txn.phase = phase)
    {key : PageKey} (member : key ∈ phase.pending) : key ∈ txn.dirtiedPages :=
  serial.pending txnId txn active (at_phase ▸ member)

theorem erase_pending (serial : Serial init events s) (active : s.activeTxns txnId = some txn)
    {phase : Phase} (at_phase : txn.phase = phase) (key : PageKey) :
    phase.pending.erase key ⊆ txn.dirtiedPages := fun _ member =>
  serial.dirtied_of_pending active at_phase (Finset.mem_of_mem_erase member)

theorem step (serial : Serial init events s) (stepped : s.step event = some s') :
    Serial init (events ++ [event]) s' := by
  cases event with
  | begin txnId =>
    obtain ⟨next, -, rfl⟩ := step_begin stepped
    exact serial.begins next
  | appendBegin txnId =>
    obtain ⟨txn, log, lsn, active, phase, -, rfl⟩ := step_appendBegin stepped
    refine serial.proceeds (.appendBegin txnId) .running active rfl (by simp) rfl rfl rfl id
      (Finset.empty_subset _) (fun _ _ => ⟨rfl, rfl, id⟩) fun committed own key _ state => ?_
    rw [phase] at state
    exact state
  | lock txnId key mode =>
    obtain ⟨txn, active, -, rfl | ⟨next, granted, rfl⟩⟩ := step_lock stepped
    · exact serial.idles rfl (by simp) rfl rfl rfl rfl
    · exact serial.locks active granted
  | read txnId key image => exact serial.readsPage stepped
  | write txnId key image =>
    obtain ⟨txn, pools, active, running, exclusive, rfl, touches, content, onDisk, unflushed⟩ :=
      step_write stepped
    exact serial.dirties (.write txnId key image) active running rfl (by simp) rfl rfl
      (LockManager.acquireLock_spec serial.consistent
        (LockManager.acquireLock_of_exclusive exclusive _)) touches content onDisk unflushed
  | allocate txnId key =>
    obtain ⟨txn, pools, locks, active, running, granted, rfl, touches, -, before, content, onDisk,
      unflushed⟩ := step_allocate serial.wellFormed stepped
    exact serial.dirties (.allocate txnId key) active running rfl (by simp) rfl rfl
      (LockManager.acquireLock_spec serial.consistent granted) touches content
      (onDisk.trans before.symm) unflushed
  | commit txnId =>
    obtain ⟨txn, active, phase, rfl⟩ := step_commit stepped
    refine serial.proceeds (.commit txnId) (.logging txn.dirtiedPages) active rfl (by simp) rfl rfl rfl id
      (Finset.Subset.refl _) (fun _ _ => ⟨rfl, rfl, id⟩) fun committed own key _ state => ?_
    rw [phase] at state
    exact state
  | appendUpdate txnId key image =>
    obtain ⟨txn, pending, pools, log, lsn, active, phase, -, -, -, rfl, loads, -⟩ :=
      step_appendUpdate stepped
    refine serial.proceeds (.appendUpdate txnId key image) (.logging (pending.erase key)) active rfl (by simp) rfl rfl
      rfl loads.wellFormed (serial.erase_pending active phase _) (fun key _ => ⟨congrFun loads.content key,
        congrFun loads.onDisk key, loads.unflushed key⟩) fun committed own key _ state => ?_
    rw [phase] at state
    exact PageState.congr (.logging (pending.erase _)) state (congrFun loads.content key)
      (congrFun loads.onDisk key) (loads.unflushed key) rfl rfl
  | appendCommit txnId =>
    obtain ⟨txn, log, lsn, active, phase, -, rfl⟩ := step_appendCommit stepped
    refine serial.proceeds (.appendCommit txnId) (.forcing lsn) active rfl (by simp) rfl rfl rfl id
      (Finset.empty_subset _) (fun _ _ => ⟨rfl, rfl, id⟩) fun committed own key _ state => ?_
    rw [phase] at state
    exact state
  | flushBegin txnId =>
    obtain ⟨txn, lsn, -, -, -, -, rfl⟩ := step_flushBegin stepped
    exact serial.idles rfl (by simp) rfl rfl rfl rfl
  | fsync txnId covered =>
    obtain ⟨flusher, -, -, -, -, rfl⟩ := step_fsync stepped
    exact serial.idles rfl (by simp) rfl rfl rfl rfl
  | flushEnd txnId =>
    obtain ⟨flusher, -, -, -, rfl⟩ := step_flushEnd stepped
    exact serial.idles rfl (by simp) rfl rfl rfl rfl
  | flushReturn txnId =>
    obtain ⟨txn, lsn, active, phase, -, rfl⟩ := step_flushReturn stepped
    refine serial.proceeds (.flushReturn txnId) (.flushing txn.dirtiedPages) active rfl (by simp) rfl rfl rfl id
      (Finset.Subset.refl _) (fun _ _ => ⟨rfl, rfl, id⟩) fun committed own key member state => ?_
    rw [phase] at state
    exact ⟨state.1, fun _ => state.2.2, fun gone => absurd member gone⟩
  | flushPage txnId key =>
    obtain ⟨txn, pending, pools, active, phase, member, rfl, touches, content, onDisk⟩ :=
      step_flushPage stepped
    refine serial.proceeds (.flushPage txnId key) (.flushing (pending.erase key)) active rfl (by simp) rfl rfl rfl
      touches.wellFormed (serial.erase_pending active phase key)
      (touches.frame (serial.dirtied_of_pending active phase member))
      fun committed own other _ state => ?_
    rw [phase] at state
    by_cases same : other = key
    · subst same
      exact ⟨content.trans state.1, fun pending => absurd pending (Finset.notMem_erase other _),
        fun _ => (onDisk (state.2.1 member)).trans state.1⟩
    · refine ⟨(touches.content other same).trans state.1, fun pending =>
        touches.unflushed other same (state.2.1 (Finset.mem_of_mem_erase pending)), fun gone => ?_⟩
      rw [touches.onDisk other same]
      exact state.2.2 fun pending => gone (Finset.mem_erase.mpr ⟨same, pending⟩)
  | flushPageTorn txnId key written =>
    obtain ⟨txn, pending, pools, active, phase, member, rfl, touches, content, unflushed⟩ :=
      step_flushPageTorn stepped
    refine serial.proceeds (.flushPageTorn txnId key written) txn.phase active
      rfl (by simp) (Function.update_eq_self_iff.mpr active.symm).symm rfl rfl touches.wellFormed
      (serial.pending _ txn active)
      (touches.frame (serial.dirtied_of_pending active phase member))
      fun committed own other _ state => ?_
    rw [phase] at state ⊢
    by_cases same : other = key
    · subst same
      exact ⟨content.trans state.1, fun pending => unflushed (state.2.1 pending),
        fun gone => absurd member gone⟩
    · exact PageState.congr (.flushing pending) state (touches.content other same)
        (touches.onDisk other same) (touches.unflushed other same) rfl rfl
  | commitRelease txnId =>
    obtain ⟨txn, active, phase, rfl⟩ := step_commitRelease stepped
    exact serial.commits active phase
  | abort txnId =>
    obtain ⟨txn, active, phase, rfl⟩ := step_abort stepped
    refine serial.proceeds (.abort txnId) (.discarding txn.dirtiedPages) active rfl (by simp) rfl rfl rfl id
      (Finset.Subset.refl _) (fun _ _ => ⟨rfl, rfl, id⟩) fun committed own key member state => ?_
    rw [phase] at state
    exact ⟨state.2.1, fun gone => absurd member gone⟩
  | discardPage txnId key =>
    obtain ⟨txn, pending, pools, active, phase, member, rfl, touches, content, onDisk⟩ :=
      step_discardPage stepped
    refine serial.proceeds (.discardPage txnId key) (.discarding (pending.erase key)) active rfl (by simp) rfl rfl rfl
      touches.wellFormed (serial.erase_pending active phase key)
      (touches.frame (serial.dirtied_of_pending active phase member))
      fun committed own other _ state => ?_
    rw [phase] at state
    by_cases same : other = key
    · subst same
      exact ⟨onDisk.trans state.1, fun _ => content.trans state.1⟩
    · refine ⟨(touches.onDisk other same).trans state.1, fun gone => ?_⟩
      rw [touches.content other same]
      exact state.2 fun pending => gone (Finset.mem_erase.mpr ⟨same, pending⟩)
  | appendAbort txnId =>
    obtain ⟨txn, log, lsn, active, phase, -, rfl⟩ := step_appendAbort stepped
    refine serial.proceeds (.appendAbort txnId) .discarded active rfl (by simp) rfl rfl rfl id
      (Finset.empty_subset _) (fun _ _ => ⟨rfl, rfl, id⟩) fun committed own key _ state => ?_
    rw [phase] at state
    exact ⟨state.1, state.2 (Finset.notMem_empty key)⟩
  | abortRelease txnId =>
    obtain ⟨txn, active, phase, rfl⟩ := step_abortRelease stepped
    exact serial.aborts active phase

theorem start (log : LogManager) (files : Nat → Option DiskManager) :
    Serial (Engine.start log files).onDisk [] (Engine.start log files) where
  wellFormed objectId pool present := by
    simp only [Engine.start, Option.map_eq_some_iff] at present
    obtain ⟨disk, -, rfl⟩ := present
    intro pageId isCached
    exact absurd rfl isCached
  consistent := LockManager.consistent_empty
  born := by simp [Engine.start]
  holder := by
    simp [Engine.start, LockManager.Holds, LockManager.HoldsExclusive, LockManager.HoldsShared]
  ended := by simp [released]
  unborn := by simp [accessesOf]
  dirtied := by simp [Engine.start]
  pending := by simp [Engine.start]
  exclusive := by simp [Engine.start]
  accessed := by simp [accessesOf]
  reads := by simp [accessesOf, Replays]
  clean key _ := by
    simp [committedStore, serialHistory, released, start_content]
  dirty := by simp [Engine.start]
  serial := by simp [serialHistory, released, Replays]

theorem reached {log : LogManager} {files : Nat → Option DiskManager}
    (reached : run Engine.step (Engine.start log files) events = some s) :
    Serial (Engine.start log files).onDisk events s :=
  run_induction (Serial (Engine.start log files).onDisk) (start log files)
    (fun _ _ _ _ _ serial stepped => serial.step stepped) reached

end Serial

/-- Run serially in the order of their ReleaseAll, the committed transactions read what they read
and leave every page that no transaction has locked for writing as it is. -/
theorem committed_transactions_serializable (log : LogManager) (files : Nat → Option DiskManager)
    (events : List Event) (s : Engine)
    (reached : run Engine.step (start log files) events = some s) :
    Replays (start log files).onDisk (serialHistory events) ∧
      ∀ key, (∀ txnId, ¬ s.locks.HoldsExclusive txnId key) →
        s.content key =
          applyWrites (start log files).onDisk (writesOf (serialHistory events)) key := by
  have serial := Serial.reached reached
  refine ⟨serial.serial, fun key unlocked => (serial.clean key fun txnId txn active member => ?_).1⟩
  exact unlocked txnId (serial.exclusive txnId txn active key member)

def sharedReadEvents : List Event :=
  [.begin 1, .begin 2, .appendBegin 2, .appendBegin 1, .lock 1 ⟨0, 0⟩ .kShared,
    .lock 2 ⟨0, 0⟩ .kExclusive, .read 1 ⟨0, 0⟩ .zero, .abort 2, .commit 1, .appendCommit 1,
    .flushBegin 1, .appendAbort 2, .fsync 1 120, .flushEnd 1, .flushReturn 1, .commitRelease 1,
    .abortRelease 2]

set_option maxRecDepth 100000 in
theorem committed_transactions_serializable_shared_read :
    ∃ s, run Engine.step
        (start (LogManager.open []) fun objectId => if objectId = 0 then some ⟨[.zero]⟩ else none)
        sharedReadEvents = some s ∧
      Replays (start (LogManager.open []) fun objectId =>
        if objectId = 0 then some ⟨[.zero]⟩ else none).onDisk (serialHistory sharedReadEvents) := by
  obtain ⟨s, reached⟩ := Option.isSome_iff_exists.mp (by decide +kernel :
    (run Engine.step
      (start (LogManager.open []) fun objectId => if objectId = 0 then some ⟨[.zero]⟩ else none)
      sharedReadEvents).isSome = true)
  exact ⟨s, reached, (committed_transactions_serializable _ _ _ s reached).1⟩

end Engine

end FlintDB
