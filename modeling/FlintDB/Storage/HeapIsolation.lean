import FlintDB.Storage.HeapSystem

set_option autoImplicit false

-- Rows stay where they were inserted, and a Scan that nobody appends a page under has locked every page of the file
-- when it returns.

namespace FlintDB

open Lib

def HeapNote.Kept (journal : List HeapNote) (txnId : Nat) (rid : RID) (row : Bytes) : Prop :=
  ∃ before after, journal = before ++ .inserted txnId rid row :: after ∧ ∀ other, .deleted other rid ∉ after

open HeapNote

theorem HeapNote.Kept.mem {journal : List HeapNote} {txnId : Nat} {rid : RID} {row : Bytes}
    (kept : Kept journal txnId rid row) : .inserted txnId rid row ∈ journal := by
  obtain ⟨before, after, rfl, -⟩ := kept
  simp

theorem HeapNote.kept_snoc {journal : List HeapNote} {entry : HeapNote} {txnId : Nat} {rid : RID} {row : Bytes}
    (kept : Kept (journal ++ [entry]) txnId rid row) :
    entry = .inserted txnId rid row ∨ (Kept journal txnId rid row ∧ ∀ other, entry ≠ .deleted other rid) := by
  obtain ⟨before, after, journal_eq, undeleted⟩ := kept
  rcases List.eq_nil_or_concat after with rfl | ⟨after, last, rfl⟩
  · exact .inl (List.append_inj_right' journal_eq rfl |> List.singleton_inj.mp)
  · rw [List.concat_eq_append, ← List.cons_append, ← List.append_assoc] at journal_eq
    have last_eq : entry = last := List.singleton_inj.mp (List.append_inj_right' journal_eq rfl)
    refine .inr ⟨⟨before, after, List.append_inj_left' journal_eq rfl, fun other member => ?_⟩, fun other isDelete => ?_⟩
    · exact undeleted other (by simp [member])
    · exact undeleted other (by simp [← isDelete, last_eq])

namespace HeapStore

def live (store : HeapStore) (rid : RID) : Option Bytes := (store.file.pages rid.pageId).liveRecord rid.slotId

structure Recorded (store : HeapStore) : Prop where
  inserted : ∀ txnId rid row, .inserted txnId rid row ∈ store.journal →
    rid.pageId ∈ store.file.pageIds ∧ rid.pageId ∈ store.dirtied txnId
  once : ∀ txnId, .committed txnId ∈ store.journal → .aborted txnId ∉ store.journal
  stays : ∀ txnId rid row, Kept store.journal txnId rid row → .aborted txnId ∉ store.journal →
    store.live rid = some row ∧
      (.committed txnId ∈ store.journal → (store.saved rid.pageId).liveRecord rid.slotId = some row)

variable {objectId : Nat} {quiet : Nat → Prop} {locks : LockManager} {store store' : HeapStore} {txnId : Nat}
  {call : HeapCall} {rest : HeapProgram HeapResult}

theorem live_writePage (pageId : Nat) (page : Page) (rid : RID) :
    (store.writePage pageId page).live rid =
      if rid.pageId = pageId then page.liveRecord rid.slotId else store.live rid := by
  simp only [live, writePage, HeapFile.writePage, Function.update_apply]
  split <;> rfl

theorem live_insertRecord {pageId slotId : Nat} {page : Page} {row : Bytes}
    (inserted : (store.file.pages pageId).insertRecord row = some (slotId, page)) (rid : RID) :
    (store.writePage pageId page).live rid = if rid = ⟨pageId, slotId⟩ then some row else store.live rid := by
  rw [live_writePage, Page.liveRecord_insertRecord inserted]
  obtain ⟨onPage, slot⟩ := rid
  by_cases samePage : onPage = pageId
  · subst samePage
    simp [live]
  · simp [samePage]

theorem live_deleteRecord (store : HeapStore) (rid other : RID) :
    (store.writePage rid.pageId ((store.file.pages rid.pageId).deleteRecord rid.slotId)).live other =
      if other = rid then none else store.live other := by
  rw [live_writePage, Page.liveRecord_deleteRecord]
  obtain ⟨onPage, slot⟩ := other
  obtain ⟨onPage', slot'⟩ := rid
  by_cases samePage : onPage = onPage'
  · subst samePage
    simp [live]
  · simp [samePage]

theorem live_newHeapPage (orderly : store.Orderly objectId locks) (room : store.file.allocated < 2 ^ 32) {rid : RID}
    (listed : rid.pageId ∈ store.file.pageIds) :
    (store.file.newHeapPage.2.pages rid.pageId).liveRecord rid.slotId = store.live rid := by
  rw [newHeapPage_pages room, if_neg (Nat.ne_of_lt (orderly.listed_lt _ listed)), live]

theorem Action.recorded (action : store.Action objectId quiet locks txnId call store' rest)
    (recorded : store.Recorded) (orderly : store.Orderly objectId locks) (room : store.file.allocated < 2 ^ 32)
    (unfinished : .committed txnId ∉ store.journal) : store'.Recorded := by
  obtain ⟨inserted, once, stays⟩ := recorded
  cases action with
  | looks next => exact ⟨inserted, once, stays⟩
  | lastPage isLast => exact ⟨inserted, once, stays⟩
  | noPage isEmpty => exact ⟨inserted, once, stays⟩
  | @insertRecord row pageId slotId page listed held done =>
    refine ⟨fun other rid row' member => ?_, fun other => by simpa [note, markDirty, writePage] using once other,
      fun other rid row' kept unaborted => ?_⟩
    · rcases List.mem_append.mp member with before | this
      · have known := inserted other rid row' before
        exact ⟨known.1, mem_markDirty.mpr (.inl known.2)⟩
      · cases List.mem_singleton.mp this
        exact ⟨listed, mem_markDirty.mpr (.inr ⟨rfl, rfl⟩)⟩
    · show (store.writePage pageId page).live rid = some row' ∧ _
      rw [live_insertRecord done]
      rcases kept_snoc kept with isNew | ⟨before, -⟩
      · cases isNew
        refine ⟨by simp, fun committed => absurd ?_ unfinished⟩
        simpa [note, markDirty, writePage] using committed
      · have known := stays other rid row' before (by simpa [note, markDirty, writePage] using unaborted)
        refine ⟨?_, fun committed => known.2 (by simpa [note, markDirty, writePage] using committed)⟩
        split
        · -- a new slot holds nothing yet
          rename_i isNew
          have empty := Page.liveRecord_length (store.file.pages pageId)
          rw [← (Page.insertRecord_eq_some done).1] at empty
          rw [isNew] at known
          rw [live, empty] at known
          cases known.1
        · exact known.1
  | newHeapPage entitled =>
    refine ⟨fun other rid row' member => ?_, once, fun other rid row' kept unaborted => ?_⟩
    · have known := inserted other rid row' member
      exact ⟨known.1, mem_markDirty.mpr (.inl known.2)⟩
    · have known := stays other rid row' kept unaborted
      exact ⟨(live_newHeapPage orderly room (inserted other rid row' kept.mem).1).trans known.1, known.2⟩
  | pushPage entitled fresh held =>
    refine ⟨fun other rid row' member => ?_, once, stays⟩
    have known := inserted other rid row' member
    exact ⟨List.mem_append_left _ known.1, known.2⟩
  | @deleteRecord rid₀ row listed held isLive =>
    refine ⟨fun other rid row' member => ?_, fun other => by simpa [note, markDirty, writePage] using once other,
      fun other rid row' kept unaborted => ?_⟩
    · rcases List.mem_append.mp member with before | this
      · have known := inserted other rid row' before
        exact ⟨known.1, mem_markDirty.mpr (.inl known.2)⟩
      · cases List.mem_singleton.mp this
    · show HeapStore.live (store.writePage rid₀.pageId _) rid = some row' ∧ _
      rcases kept_snoc kept with isNew | ⟨before, notThis⟩
      · cases isNew
      · have known := stays other rid row' before (by simpa [note, markDirty, writePage] using unaborted)
        have different : rid ≠ rid₀ := by
          rintro rfl
          exact notThis txnId rfl
        rw [live_deleteRecord, if_neg different]
        exact ⟨known.1, fun committed => known.2 (by simpa [note, markDirty, writePage] using committed)⟩

theorem Action.journal (action : store.Action objectId quiet locks txnId call store' rest) :
    store'.journal = store.journal ∨ ∃ entry, store'.journal = store.journal ++ [entry] ∧
      ((∃ rid row, entry = .inserted txnId rid row) ∨ ∃ rid, entry = .deleted txnId rid) := by
  cases action with
  | insertRecord listed held inserted => exact .inr ⟨_, rfl, .inl ⟨_, _, rfl⟩⟩
  | deleteRecord listed held isLive => exact .inr ⟨_, rfl, .inr ⟨_, rfl⟩⟩
  | _ => exact .inl rfl

theorem recorded_commit (recorded : store.Recorded) (unfinished : .aborted txnId ∉ store.journal) :
    (store.finish txnId true).Recorded := by
  obtain ⟨inserted, once, stays⟩ := recorded
  refine ⟨fun other rid row member => ?_, fun other => ?_, fun other rid row kept unaborted => ?_⟩
  · exact inserted other rid row (by simpa [finish, note] using member)
  · simp only [finish, note, if_true, List.mem_append, List.mem_singleton, HeapNote.committed.injEq, reduceCtorEq,
      or_false]
    rintro (before | rfl)
    · exact once other before
    · exact unfinished
  · rcases kept_snoc kept with isNew | ⟨before, -⟩
    · cases isNew
    · have known := stays other rid row before (by simpa [finish, note] using unaborted)
      refine ⟨known.1, fun committed => ?_⟩
      show (store.flushPages txnId rid.pageId).liveRecord rid.slotId = some row
      rw [flushPages]
      split
      · exact known.1
      · rename_i clean
        simp only [finish, note, if_true, List.mem_append, List.mem_singleton, HeapNote.committed.injEq] at committed
        rcases committed with earlier | rfl
        · exact known.2 earlier
        · exact absurd (inserted other rid row before.mem).2 clean

theorem recorded_abort (recorded : store.Recorded) (unfinished : .committed txnId ∉ store.journal)
    (alone : ∀ other rid row, .inserted other rid row ∈ store.journal → .committed other ∉ store.journal →
      .aborted other ∉ store.journal → rid.pageId ∈ store.dirtied txnId → other = txnId) :
    (store.finish txnId false).Recorded := by
  obtain ⟨inserted, once, stays⟩ := recorded
  refine ⟨fun other rid row member => ?_, fun other => ?_, fun other rid row kept unaborted => ?_⟩
  · exact inserted other rid row (by simpa [finish, note] using member)
  · simp only [finish, note, Bool.false_eq_true, if_false, List.mem_append, List.mem_singleton, reduceCtorEq, or_false,
      HeapNote.aborted.injEq, not_or]
    intro before
    refine ⟨once other before, ?_⟩
    rintro rfl
    exact unfinished before
  · simp only [finish, note, Bool.false_eq_true, if_false, List.mem_append, List.mem_singleton, not_or,
      HeapNote.aborted.injEq] at unaborted
    rcases kept_snoc kept with isNew | ⟨before, -⟩
    · cases isNew
    · have known := stays other rid row before unaborted.1
      refine ⟨?_, fun committed => known.2 (by simpa [finish, note] using committed)⟩
      show (store.discardPages txnId rid.pageId).liveRecord rid.slotId = some row
      rw [discardPages]
      split
      · rename_i dirty
        by_cases committed : .committed other ∈ store.journal
        · exact known.2 committed
        · exact absurd (alone other rid row before.mem committed unaborted.1 dirty) unaborted.2
      · exact known.1

end HeapStore

namespace HeapSystem

open HeapStore CallSystem HeapCall

variable {objectId scanner : Nat} {quiet : Nat → Prop} {s s' : HeapSystem} {event : CallEvent HeapCall Bool}

structure Ledger (s : HeapSystem) : Prop where
  recorded : s.shared.Recorded
  finished : ∀ txnId, (.committed txnId ∈ s.shared.journal ∨ .aborted txnId ∈ s.shared.journal) ↔
    (s.threads txnId = .ending ∨ s.threads txnId = .ended)

theorem ledger_start : Ledger { shared := {} } := by
  refine ⟨⟨by simp, by simp, fun txnId rid row kept => ?_⟩, by simp⟩
  exact absurd kept.mem (by simp)

theorem exclusive_of_inserted (sound : Sound objectId quiet s) (ledger : Ledger s) {txnId : Nat} {rid : RID}
    {row : Bytes} (inserted : .inserted txnId rid row ∈ s.shared.journal) (notEnded : s.threads txnId ≠ .ended) :
    s.locks.HoldsExclusive txnId ⟨objectId, rid.pageId⟩ := by
  obtain ⟨listed, dirty⟩ := ledger.recorded.inserted txnId rid row inserted
  rcases sound.owns txnId _ dirty notEnded with held | ⟨-, fresh⟩
  · exact held
  · exact absurd listed fresh.unlisted

theorem Ledger.unfinished (ledger : Ledger s) {txnId : Nat} {thread : CallThread HeapCall HeapStore HeapError HeapResult}
    (isThread : s.threads txnId = thread) (notEnding : thread ≠ .ending) (notEnded : thread ≠ .ended) :
    .committed txnId ∉ s.shared.journal ∧ .aborted txnId ∉ s.shared.journal := by
  rw [← not_or, ledger.finished, isThread, not_or]
  exact ⟨notEnding, notEnded⟩

theorem step_finish_notes (sound : Sound objectId quiet s) (taken : step (interface objectId) s event = some s')
    (txnId : Nat) :
    (.committed txnId ∈ s'.shared.journal ↔ .committed txnId ∈ s.shared.journal ∨ event = .finish txnId true) ∧
      (.aborted txnId ∈ s'.shared.journal ↔ .aborted txnId ∈ s.shared.journal ∨ event = .finish txnId false) := by
  cases stepped taken with
  | acted calling =>
    have journal := ((sound.at_call _ _ _ _ calling).acted rfl).journal
    rcases journal with same | ⟨entry, journal_eq, isRow⟩
    · simp [same]
    · rcases isRow with ⟨_, _, rfl⟩ | ⟨_, rfl⟩ <;> simp [journal_eq]
  | @finished other last how idle => cases how <;> simp [interface, HeapStore.finish, HeapStore.note, eq_comm]
  | _ => simp

theorem step_ledger (sound : Sound objectId quiet s) (ledger : Ledger s) (room : s.shared.file.allocated < 2 ^ 32)
    (taken : step (interface objectId) s event = some s') : Ledger s' := by
  refine ⟨?_, fun txnId => ?_⟩
  · cases stepped taken with
    | acted calling =>
      exact ((sound.at_call _ _ _ _ calling).acted rfl).recorded ledger.recorded sound.orderly room
        (ledger.unfinished calling (by simp) (by simp)).1
    | @finished txnId last how idle =>
      have unfinished := ledger.unfinished idle (by simp) (by simp)
      cases how with
      | true => exact recorded_commit ledger.recorded unfinished.2
      | false =>
        refine recorded_abort ledger.recorded unfinished.1 fun other rid row inserted uncommitted unaborted dirty => ?_
        have notEnded : s.threads other ≠ .ended := fun ended =>
          not_or.mpr ⟨uncommitted, unaborted⟩ ((ledger.finished other).mpr (.inr ended))
        exact LockManager.exclusive_unique sound.orderly.consistent (sound.exclusive_of_idle idle _ dirty)
          (.inl (exclusive_of_inserted sound ledger inserted notEnded))
    | _ => exact ledger.recorded
  · obtain ⟨committed, aborted⟩ := step_finish_notes sound taken txnId
    rw [committed, aborted, step_ending taken, ← ledger.finished]
    constructor
    · rintro ((before | rfl) | (before | rfl))
      · exact .inl (.inl before)
      · exact .inr ⟨_, rfl⟩
      · exact .inl (.inr before)
      · exact .inr ⟨_, rfl⟩
    · rintro ((before | before) | ⟨how, rfl⟩)
      · exact .inl (.inl before)
      · exact .inr (.inl before)
      · cases how with
        | true => exact .inl (.inr rfl)
        | false => exact .inr (.inr rfl)

def start : HeapSystem := { shared := {} }

/-- No page id wraps around. -/
def Fits (objectId : Nat) (events : List (CallEvent HeapCall Bool)) : Prop :=
  ∀ events' s, events' <+: events → run (step (interface objectId)) start events' = some s →
    s.shared.file.allocated < 2 ^ 32

/-- No page is appended to page_ids_ between the copy that a Scan of `scanner` takes of it and the Scan's return. -/
def ScansUndisturbed (objectId scanner : Nat) (events : List (CallEvent HeapCall Bool)) : Prop :=
  ∀ events' event s s', events' ++ [event] <+: events → run (step (interface objectId)) start events' = some s →
    step (interface objectId) s event = some s' → Undisturbed (· = scanner) s s'

theorem run_sound {events : List (CallEvent HeapCall Bool)} (fits : Fits objectId events)
    (undisturbed : ∀ events' event s s', events' ++ [event] <+: events →
      run (step (interface objectId)) start events' = some s → step (interface objectId) s event = some s' →
      Undisturbed quiet s s')
    (reached : run (step (interface objectId)) start events = some s) : Sound objectId quiet s ∧ Ledger s := by
  refine run_induction (fun events' s => events' <+: events → Sound objectId quiet s ∧ Ledger s)
    (fun _ => ⟨sound_start objectId quiet, ledger_start⟩) ?_ reached (List.prefix_refl _)
  intro events' s event s' before ih taken isEarlier
  have earlier : events' <+: events := (List.prefix_append _ _).trans isEarlier
  obtain ⟨sound, ledger⟩ := ih earlier
  have room := fits events' s earlier before
  exact ⟨step_sound sound room taken (undisturbed events' event s s' isEarlier before taken),
    step_ledger sound ledger room taken⟩

theorem run_sound_any {events : List (CallEvent HeapCall Bool)} (fits : Fits objectId events)
    (reached : run (step (interface objectId)) start events = some s) :
    Sound objectId (fun _ => False) s ∧ Ledger s :=
  run_sound fits (fun _ _ _ _ _ _ _ _ _ _ never => never.elim) reached

theorem step_journal (sound : Sound objectId quiet s) (taken : step (interface objectId) s event = some s') :
    ∃ more, s'.shared.journal = s.shared.journal ++ more ∧
      ∀ txnId rid row, .inserted txnId rid row ∈ more → txnId = event.txnId ∧ s.threads txnId ≠ .ended := by
  cases stepped taken with
  | acted calling =>
    rcases ((sound.at_call _ _ _ _ calling).acted rfl).journal with same | ⟨entry, journal_eq, isRow⟩
    · exact ⟨[], by simp [same], by simp⟩
    · refine ⟨[entry], journal_eq, fun other rid row member => ?_⟩
      rcases isRow with ⟨_, _, rfl⟩ | ⟨_, rfl⟩
      · cases List.mem_singleton.mp member
        exact ⟨rfl, by simp [show s.threads _ = _ from calling]⟩
      · cases List.mem_singleton.mp member
  | finished how idle => cases how <;> exact ⟨[_], rfl, by simp⟩
  | _ => exact ⟨[], by simp, by simp⟩

theorem run_journal {events more : List (CallEvent HeapCall Bool)} (fits : Fits objectId (events ++ more))
    (reached : run (step (interface objectId)) start events = some s)
    (onward : run (step (interface objectId)) s more = some s') :
    ∃ later, s'.shared.journal = s.shared.journal ++ later ∧
      ∀ txnId, s.threads txnId = .ended → s'.threads txnId = .ended ∧ ∀ rid row, .inserted txnId rid row ∉ later := by
  refine run_induction (fun more' s' => more' <+: more → ∃ later, s'.shared.journal = s.shared.journal ++ later ∧
    ∀ txnId, s.threads txnId = .ended → s'.threads txnId = .ended ∧ ∀ rid row, .inserted txnId rid row ∉ later)
    (fun _ => ⟨[], by simp, fun _ ended => ⟨ended, by simp⟩⟩) ?_ onward (List.prefix_refl _)
  intro more' m event m' before ih taken isEarlier
  have earlier : more' <+: more := (List.prefix_append _ _).trans isEarlier
  obtain ⟨later, journal_eq, quietly⟩ := ih earlier
  have reached' : run (step (interface objectId)) start (events ++ more') = some m :=
    run_append_some.mpr ⟨s, reached, before⟩
  have sound := (run_sound_any (fun events' t isEarlier' => fits events' t (isEarlier'.trans
    ((List.prefix_append_right_inj events).mpr earlier))) reached').1
  obtain ⟨now, journal_eq', theirs⟩ := step_journal sound taken
  refine ⟨later ++ now, by rw [journal_eq', journal_eq, List.append_assoc], fun txnId ended => ?_⟩
  obtain ⟨ended', none⟩ := quietly txnId ended
  refine ⟨step_ended taken ended', fun rid row member => ?_⟩
  rcases List.mem_append.mp member with earlier' | this
  · exact none rid row earlier'
  · exact (theirs txnId rid row this).2 ended'

/-- A Scan of `scanner` returns `rows` at `s`. The run goes on to `s'`, where `writer` has committed and nobody else
has deleted a row of it. -/
structure ScanMeetsCommit (objectId scanner writer : Nat) (events more : List (CallEvent HeapCall Bool))
    (s s' : HeapSystem) (rows : List (RID × Bytes)) : Prop where
  different : scanner ≠ writer
  reached : run (step (interface objectId)) start events = some s
  returning : ∃ steps, s.Calling scanner .scan steps (.done (.rows rows))
  onward : run (step (interface objectId)) s more = some s'
  committed : .committed writer ∈ s'.shared.journal
  undeleted : ∀ before rid row after other, s'.shared.journal = before ++ .inserted writer rid row :: after →
    .deleted other rid ∈ after → other = writer

/-- A row the transaction inserted and did not itself delete. -/
def RowOf (s' : HeapSystem) (writer : Nat) (rid : RID) (row : Bytes) : Prop :=
  ∃ before after, s'.shared.journal = before ++ .inserted writer rid row :: after ∧ .deleted writer rid ∉ after

-- A RID can have been somebody else's before: what counts is that the row was there when the Scan returned.
def Seen (s : HeapSystem) (writer : Nat) (rows : List (RID × Bytes)) (rid : RID) (row : Bytes) : Prop :=
  .inserted writer rid row ∈ s.shared.journal ∧ (rid, row) ∈ rows

def SeesAllOrNothing (s s' : HeapSystem) (writer : Nat) (rows : List (RID × Bytes)) : Prop :=
  (∀ rid row, RowOf s' writer rid row → Seen s writer rows rid row) ∨
    ∀ rid row, RowOf s' writer rid row → ¬ Seen s writer rows rid row

theorem scanned_of_returning {locks : LockManager} {store : HeapStore} {txnId : Nat} {call : HeapCall}
    {rest : HeapProgram HeapResult} {rows : List (RID × Bytes)} (here : store.At objectId quiet locks txnId call rest)
    (isScan : call = .scan) (isDone : rest = .done (.rows rows)) :
    ∃ done, store.Scanned objectId quiet locks txnId done [] rows := by
  cases here with
  | begins call =>
    subst isScan
    cases isDone
  | @scanPages done rest out scanned =>
    cases rest with
    | nil =>
      cases isDone
      exact ⟨done, scanned⟩
    | cons pid rest => cases isDone
  | _ => cases isDone

theorem returning_whole (sound : Sound objectId (· = scanner) s) {steps : Nat} {rows : List (RID × Bytes)}
    (returning : s.Calling scanner .scan steps (.done (.rows rows))) :
    rows = s.shared.file.rows ∧ ∀ page ∈ s.shared.file.pageIds, s.locks.Holds scanner ⟨objectId, page⟩ := by
  obtain ⟨done, listed, whole, held, out_eq⟩ := scanned_of_returning (sound.at_call _ _ _ _ returning) rfl rfl
  have done_eq : done = s.shared.file.pageIds := by simpa using whole rfl
  subst done_eq
  exact ⟨out_eq, held⟩

theorem scan_sees_all_or_nothing (objectId scanner writer : Nat) (events more : List (CallEvent HeapCall Bool))
    (s s' : HeapSystem) (rows : List (RID × Bytes))
    (meets : ScanMeetsCommit objectId scanner writer events more s s' rows)
    (undisturbed : ScansUndisturbed objectId scanner events) (fits : Fits objectId (events ++ more)) :
    SeesAllOrNothing s s' writer rows := by
  obtain ⟨different, reached, ⟨steps, returning⟩, onward, committed, undeleted⟩ := meets
  obtain ⟨sound, ledger⟩ := run_sound (fun events' t isEarlier =>
    fits events' t (isEarlier.trans (List.prefix_append _ _))) undisturbed reached
  obtain ⟨rows_eq, held⟩ := returning_whole sound returning
  obtain ⟨later, journal_eq, quietly⟩ := run_journal fits reached onward
  by_cases ended : s.threads writer = .ended
  · -- all its rows are in the file, and the Scan read all of the file
    obtain ⟨-, noneLater⟩ := quietly writer ended
    have unaborted : .aborted writer ∉ s.shared.journal := fun aborted =>
      ((run_sound_any fits (run_append_some.mpr ⟨s, reached, onward⟩)).2.recorded.once writer committed)
        (by rw [journal_eq]; exact List.mem_append_left _ aborted)
    refine .inl fun rid row ⟨before, after, split, notOwn⟩ => ?_
    have kept : Kept s.shared.journal writer rid row := by
      have split' := split
      rw [journal_eq] at split
      rcases List.append_eq_append_iff.mp split with ⟨middle, rfl, later_eq⟩ | ⟨middle, journal_split, after_eq⟩
      · exact absurd (by rw [later_eq]; simp) (noneLater rid row)
      · cases middle with
        | nil =>
          refine absurd ?_ (noneLater rid row)
          rw [List.nil_append] at after_eq
          rw [← after_eq]
          exact List.mem_cons_self
        | cons first middle =>
          obtain ⟨rfl, rfl⟩ := List.cons.inj after_eq
          refine ⟨before, middle, journal_split, fun other member => ?_⟩
          have deleted : .deleted other rid ∈ middle ++ later := List.mem_append_left _ member
          rw [undeleted _ _ _ _ _ split' deleted] at deleted
          exact notOwn deleted
    refine ⟨kept.mem, ?_⟩
    have isLive := (ledger.recorded.stays writer rid row kept unaborted).1
    rw [rows_eq, HeapFile.mem_rows, HeapFile.getRow, if_pos (ledger.recorded.inserted _ _ _ kept.mem).1]
    exact isLive
  · -- it still has its pages exclusively, and the Scan has a lock on every page
    refine .inr fun rid row _ seen => different ?_
    exact LockManager.exclusive_unique sound.orderly.consistent
      (exclusive_of_inserted sound ledger seen.1 ended)
      (held _ (ledger.recorded.inserted _ _ _ seen.1).1)

/-- What a Scan of transaction 1 returns, if it is about to. -/
def returned (s : HeapSystem) : Option (List (RID × Bytes)) :=
  match s.threads 1 with
  | .calling .scan _ (.done (.rows rows)) => some rows
  | _ => none

theorem returned_eq_some {rows : List (RID × Bytes)} (isReturned : returned s = some rows) :
    ∃ steps, s.Calling 1 .scan steps (.done (.rows rows)) := by
  rw [returned] at isReturned
  split at isReturned
  · rename_i steps rows' calling
    cases isReturned
    exact ⟨steps, calling⟩
  · cases isReturned

def largeRow : Bytes := List.replicate HeapFile.kMaxRowSize 0

def committedThenScanned : List (CallEvent HeapCall Bool) :=
  CallEvent.call 2 (HeapCall.insert [7]) :: List.replicate 6 (.step 2) ++
    CallEvent.call 2 (HeapCall.insert largeRow) :: List.replicate 8 (.step 2) ++
    CallEvent.finish 2 true :: .releaseAll 2 :: .call 1 HeapCall.scan :: List.replicate 5 (.step 1)

def testStep (s : HeapSystem) (_ : CallEvent HeapCall Bool) (s' : HeapSystem) : Bool :=
  s'.shared.file.allocated < 2 ^ 32 &&
    match s.threads 1 with
    | .calling .scan (_ + 1) _ => s'.shared.file.pageIds = s.shared.file.pageIds
    | _ => true

theorem scansUndisturbed_of_test {events : List (CallEvent HeapCall Bool)}
    (tested : everyStep (step (interface objectId)) testStep start events = true) :
    ScansUndisturbed objectId 1 events := by
  intro events' event s s' earlier reached taken txnId steps rest isScanner calling
  subst isScanner
  have test := everyStep_iff.mp tested events' event s s' earlier reached taken
  simp only [testStep, show s.threads 1 = _ from calling, Bool.and_eq_true, decide_eq_true_iff] at test
  exact test.2

theorem fits_of_test {events : List (CallEvent HeapCall Bool)}
    (tested : everyStep (step (interface objectId)) testStep start events = true) : Fits objectId events := by
  intro events' s earlier reached
  rcases List.eq_nil_or_concat events' with rfl | ⟨before, event, rfl⟩
  · cases reached
    decide
  · rw [List.concat_eq_append] at earlier reached
    obtain ⟨m, reachedBefore, taken⟩ := run_snoc.mp reached
    have test := everyStep_iff.mp tested before event m s earlier reachedBefore taken
    simp only [testStep, Bool.and_eq_true, decide_eq_true_iff] at test
    exact test.1

set_option maxRecDepth 100000 in
theorem scan_sees_all_or_nothing_committed : ∃ s,
    run (step (interface 0)) start committedThenScanned = some s ∧
      returned s = some [(⟨0, 0⟩, [7]), (⟨1, 0⟩, largeRow)] ∧
      SeesAllOrNothing s s 2 [(⟨0, 0⟩, [7]), (⟨1, 0⟩, largeRow)] := by
  have runs : (run (step (interface 0)) start committedThenScanned).any (fun s =>
      returned s = some [(⟨0, 0⟩, [7]), (⟨1, 0⟩, largeRow)] ∧
        s.shared.journal = [.inserted 2 ⟨0, 0⟩ [7], .inserted 2 ⟨1, 0⟩ largeRow, .committed 2]) = true := by
    decide +kernel
  have tested : everyStep (step (interface 0)) testStep start committedThenScanned = true := by decide +kernel
  obtain ⟨s, reached, known⟩ := (Option.any_eq_true _ _).mp runs
  obtain ⟨isReturned, journal_eq⟩ := decide_eq_true_iff.mp known
  refine ⟨s, reached, isReturned, scan_sees_all_or_nothing 0 1 2 committedThenScanned [] s s _
    ⟨by decide, reached, returned_eq_some isReturned, rfl, by simp [journal_eq], ?_⟩
    (scansUndisturbed_of_test tested) (by simpa using fits_of_test tested)⟩
  intro before rid row after other split deleted
  have impossible : .deleted other rid ∈ s.shared.journal := by
    rw [split]
    exact List.mem_append_right _ (List.mem_cons_of_mem _ deleted)
  simp [journal_eq] at impossible

-- Transaction 2 inserts a row; 1 copies page_ids_ and waits for the page; 2 inserts a row that needs a new page and
-- commits; 1 goes on.
def scannedThenAppended : List (CallEvent HeapCall Bool) :=
  CallEvent.call 2 (HeapCall.insert [7]) :: List.replicate 6 (.step 2) ++
    [CallEvent.call 1 HeapCall.scan, .step 1, .step 1] ++
    CallEvent.call 2 (HeapCall.insert largeRow) :: List.replicate 8 (.step 2) ++
    [CallEvent.finish 2 true, .releaseAll 2, .step 1, .step 1]

set_option maxRecDepth 100000 in
theorem scan_misses_appended_page : ¬ ∀ objectId scanner writer events more s s' rows,
    ScanMeetsCommit objectId scanner writer events more s s' rows → SeesAllOrNothing s s' writer rows := by
  intro always
  have runs : (run (step (interface 0)) start scannedThenAppended).any (fun s =>
      returned s = some [(⟨0, 0⟩, [7])] ∧ s.shared.journal = [.inserted 2 ⟨0, 0⟩ [7],
        .inserted 2 ⟨1, 0⟩ largeRow, .committed 2]) = true := by
    decide +kernel
  obtain ⟨s, reached, known⟩ := (Option.any_eq_true _ _).mp runs
  obtain ⟨isReturned, journal_eq⟩ := decide_eq_true_iff.mp known
  have meets : ScanMeetsCommit 0 1 2 scannedThenAppended [] s s [(⟨0, 0⟩, [7])] := by
    refine ⟨by decide, reached, returned_eq_some isReturned, rfl, by simp [journal_eq], ?_⟩
    intro before rid row after other split deleted
    have impossible : .deleted other rid ∈ s.shared.journal := by
      rw [split]
      exact List.mem_append_right _ (List.mem_cons_of_mem _ deleted)
    simp [journal_eq] at impossible
  have first : RowOf s 2 ⟨0, 0⟩ [7] := ⟨[], _, journal_eq, by simp⟩
  have second : RowOf s 2 ⟨1, 0⟩ largeRow :=
    ⟨[_], _, journal_eq, by simp⟩
  rcases always _ _ _ _ _ _ _ _ meets with all | nothing
  · have seen := (all _ _ second).2
    simp at seen
  · exact nothing _ _ first ⟨by simp [journal_eq], by simp⟩

end HeapSystem

end FlintDB
