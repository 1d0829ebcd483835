import FlintDB.Storage.HeapIsolation

set_option autoImplicit false

-- After a full Scan every Insert of another transaction has to get past the last page of the file, which the scanning
-- transaction has locked. In an empty file there is no such page.

namespace FlintDB

open Lib

namespace HeapStore

open HeapNote

structure Covers (objectId : Nat) (locks : LockManager) (store : HeapStore) (scanner : Nat) : Prop where
  populated : store.file.pageIds ≠ []
  held : ∀ page ∈ store.file.pageIds, locks.Holds scanner ⟨objectId, page⟩
  nobody : ∀ other, other ≠ scanner → store.foundEmpty other = false

variable {objectId scanner txnId : Nat} {quiet : Nat → Prop} {locks : LockManager} {store store' : HeapStore}
  {call : HeapCall} {rest : HeapProgram HeapResult}

theorem Covers.not_exclusive (covers : store.Covers objectId locks scanner) (consistent : locks.Consistent)
    {other page : Nat} (different : other ≠ scanner) (listed : page ∈ store.file.pageIds) :
    ¬ locks.HoldsExclusive other ⟨objectId, page⟩ := fun exclusive =>
  different (LockManager.exclusive_unique consistent exclusive (covers.held page listed)).symm

theorem Covers.not_entitled (covers : store.Covers objectId locks scanner) (consistent : locks.Consistent) {other : Nat}
    (different : other ≠ scanner) : ¬ store.Entitled objectId locks other := by
  rintro (empty | ⟨last, listed, exclusive⟩)
  · rw [covers.nobody other different] at empty
    cases empty
  · exact covers.not_exclusive consistent different listed exclusive

theorem Covers.looks_only (covers : store.Covers objectId locks scanner) (consistent : locks.Consistent)
    (different : txnId ≠ scanner) (action : store.Action objectId quiet locks txnId call store' rest) :
    store' = store ∨ store' = { store with foundEmpty := Function.update store.foundEmpty txnId false } := by
  cases action with
  | looks next => exact .inl rfl
  | lastPage isLast => exact .inr rfl
  | noPage isEmpty => exact absurd isEmpty covers.populated
  | insertRecord listed exclusive inserted => exact absurd exclusive (covers.not_exclusive consistent different listed)
  | newHeapPage entitled => exact absurd entitled (covers.not_entitled consistent different)
  | pushPage entitled fresh exclusive => exact absurd entitled (covers.not_entitled consistent different)
  | deleteRecord listed exclusive isLive => exact absurd exclusive (covers.not_exclusive consistent different listed)

theorem Action.foundEmpty_others (action : store.Action objectId quiet locks txnId call store' rest) {other : Nat}
    (different : other ≠ txnId) : store'.foundEmpty other = store.foundEmpty other := by
  cases action with
  | lastPage isLast => exact Function.update_of_ne different _ _
  | noPage isEmpty => exact Function.update_of_ne different _ _
  | pushPage entitled fresh exclusive => exact Function.update_of_ne different _ _
  | _ => rfl

theorem Action.pageIds_of_scan (action : store.Action objectId quiet locks txnId call store' rest)
    (isScan : call = .scan) : store'.file.pageIds = store.file.pageIds := by
  cases action with
  | looks next => rfl
  | _ => cases isScan

theorem Covers.acted_own (covers : store.Covers objectId locks scanner)
    (action : store.Action objectId quiet locks scanner call store' rest) : store'.Covers objectId locks scanner := by
  obtain ⟨populated, held, nobody⟩ := covers
  cases action with
  | looks next => exact ⟨populated, held, nobody⟩
  | lastPage isLast =>
    refine ⟨populated, held, fun other different => ?_⟩
    simpa [different] using nobody other different
  | noPage isEmpty => exact absurd isEmpty populated
  | insertRecord listed exclusive inserted => exact ⟨populated, held, nobody⟩
  | newHeapPage entitled => exact ⟨populated, held, nobody⟩
  | pushPage entitled fresh exclusive =>
    refine ⟨by simp, fun page listed => ?_, fun other different => ?_⟩
    · rcases List.mem_append.mp listed with before | this
      · exact held page before
      · rw [List.mem_singleton.mp this]
        exact .inl exclusive
    · simpa [different] using nobody other different
  | deleteRecord listed exclusive isLive => exact ⟨populated, held, nobody⟩

theorem Covers.acted (covers : store.Covers objectId locks scanner) (consistent : locks.Consistent)
    (action : store.Action objectId quiet locks txnId call store' rest) : store'.Covers objectId locks scanner := by
  by_cases own : txnId = scanner
  · subst own
    exact covers.acted_own action
  · rcases covers.looks_only consistent own action with rfl | rfl
    · exact covers
    · refine ⟨covers.populated, covers.held, fun other different => ?_⟩
      by_cases same : other = txnId
      · simp [same]
      · simpa [same] using covers.nobody other different

def HasSlot (store : HeapStore) (rid : RID) : Prop :=
  rid.pageId ∈ store.file.pageIds ∧ rid.slotId < (store.file.pages rid.pageId).slots.length

structure Follows (scanner : Nat) (store store' : HeapStore) (later : List HeapNote) : Prop where
  journal_eq : store'.journal = store.journal ++ later
  rows_iff : ∀ rid row, store'.file.getRow rid = some row ↔
    (store.file.getRow rid = some row ∨ .inserted scanner rid row ∈ later) ∧ .deleted scanner rid ∉ later
  slots : ∀ rid, store.HasSlot rid → store'.HasSlot rid
  newSlot : ∀ rid row, .inserted scanner rid row ∈ later → ¬ store.HasSlot rid
  oldSlot : ∀ rid, .deleted scanner rid ∈ later → store'.HasSlot rid

theorem Follows.refl (scanner : Nat) (store : HeapStore) : Follows scanner store store [] :=
  ⟨by simp, by simp, fun _ => id, by simp, by simp⟩

theorem Follows.trans {store'' : HeapStore} {first second : List HeapNote}
    (follows : Follows scanner store store' first) (onward : Follows scanner store' store'' second) :
    Follows scanner store store'' (first ++ second) := by
  refine ⟨?_, fun rid row => ?_, fun rid has => onward.slots rid (follows.slots rid has), fun rid row member => ?_,
    fun rid member => ?_⟩
  · rw [onward.journal_eq, follows.journal_eq, List.append_assoc]
  · have fresh : .inserted scanner rid row ∈ second → .deleted scanner rid ∉ first := fun isNew isOld =>
      onward.newSlot rid row isNew (follows.oldSlot rid isOld)
    rw [onward.rows_iff, follows.rows_iff]
    simp only [List.mem_append]
    tauto
  · rcases List.mem_append.mp member with inFirst | inSecond
    · exact follows.newSlot rid row inFirst
    · exact fun has => onward.newSlot rid row inSecond (follows.slots rid has)
  · rcases List.mem_append.mp member with inFirst | inSecond
    · exact onward.slots rid (follows.oldSlot rid inFirst)
    · exact onward.oldSlot rid inSecond

theorem follows_of_same {later : List HeapNote} (journal_eq : store'.journal = store.journal ++ later)
    (pageIds_eq : store'.file.pageIds = store.file.pageIds)
    (pages_eq : ∀ page ∈ store.file.pageIds, store'.file.pages page = store.file.pages page)
    (noRow : ∀ entry ∈ later, (∀ rid row, entry ≠ .inserted scanner rid row) ∧ ∀ rid, entry ≠ .deleted scanner rid) :
    Follows scanner store store' later := by
  have noInsert : ∀ rid row, .inserted scanner rid row ∉ later := fun rid row member => (noRow _ member).1 rid row rfl
  have noDelete : ∀ rid, .deleted scanner rid ∉ later := fun rid member => (noRow _ member).2 rid rfl
  refine ⟨journal_eq, fun rid row => ?_, fun rid ⟨listed, within⟩ => ⟨?_, ?_⟩,
    fun rid row member => absurd member (noInsert rid row), fun rid member => absurd member (noDelete rid)⟩
  · have same : store'.file.getRow rid = store.file.getRow rid := by
      rw [HeapFile.getRow, HeapFile.getRow, pageIds_eq]
      split
      · rw [pages_eq _ ‹_›]
      · rfl
    simp [same, noInsert, noDelete]
  · rwa [pageIds_eq]
  · rwa [pages_eq _ listed]

theorem follows_insertRecord {pageId slotId : Nat} {page : Page} {row : Bytes} (listed : pageId ∈ store.file.pageIds)
    (done : (store.file.pages pageId).insertRecord row = some (slotId, page)) :
    Follows scanner store
      (((store.writePage pageId page).markDirty scanner pageId).note (.inserted scanner ⟨pageId, slotId⟩ row))
      [.inserted scanner ⟨pageId, slotId⟩ row] := by
  obtain ⟨slotId_eq, slots_eq⟩ := Page.insertRecord_eq_some done
  have unused : ¬ store.HasSlot ⟨pageId, slotId⟩ := fun has => Nat.ne_of_lt has.2 slotId_eq
  refine ⟨rfl, fun rid row' => ?_, fun rid has => ⟨has.1, ?_⟩, fun rid row' member => ?_, by simp⟩
  · have after := live_insertRecord done rid
    simp only [HeapFile.getRow, note, markDirty, writePage, HeapFile.writePage_pageIds, live] at after ⊢
    rw [after]
    by_cases isNew : rid = ⟨pageId, slotId⟩
    · subst isNew
      have empty := Page.liveRecord_length (store.file.pages pageId)
      rw [← slotId_eq] at empty
      simp [listed, empty, eq_comm]
    · simp [isNew]
  · simp only [note, markDirty, writePage, HeapFile.writePage, Function.update_apply]
    split
    · rename_i samePage
      rw [slots_eq, List.length_append, ← samePage]
      exact Nat.lt_add_right _ has.2
    · exact has.2
  · cases List.mem_singleton.mp member
    exact unused

theorem follows_deleteRecord {rid : RID} {row : Bytes} (listed : rid.pageId ∈ store.file.pageIds)
    (isLive : (store.file.pages rid.pageId).liveRecord rid.slotId = some row) :
    Follows scanner store
      (((store.writePage rid.pageId ((store.file.pages rid.pageId).deleteRecord rid.slotId)).markDirty scanner
        rid.pageId).note (.deleted scanner rid))
      [.deleted scanner rid] := by
  have slots_eq : ∀ page, ((store.writePage rid.pageId
      ((store.file.pages rid.pageId).deleteRecord rid.slotId)).file.pages page).slots.length =
      (store.file.pages page).slots.length := by
    intro page
    simp only [writePage, HeapFile.writePage, Function.update_apply]
    split
    · rename_i samePage
      rw [samePage, Page.deleteRecord, List.length_modify]
    · rfl
  have kept : ∀ other, store.HasSlot other → HasSlot (((store.writePage rid.pageId
      ((store.file.pages rid.pageId).deleteRecord rid.slotId)).markDirty scanner rid.pageId).note
        (.deleted scanner rid)) other := fun other has =>
    ⟨has.1, has.2.trans_eq (slots_eq _).symm⟩
  refine ⟨rfl, fun other row' => ?_, kept, by simp, fun other member => ?_⟩
  · have after := live_deleteRecord store rid other
    simp only [HeapFile.getRow, note, markDirty, writePage, HeapFile.writePage_pageIds, live] at after ⊢
    rw [after]
    by_cases same : other = rid <;> simp [same]
  · cases List.mem_singleton.mp member
    refine kept rid ⟨listed, Nat.lt_of_not_le fun beyond => ?_⟩
    rw [Page.liveRecord, List.getElem?_eq_none beyond] at isLive
    cases isLive

theorem follows_pushPage {pid : Nat} (fresh : store.Fresh objectId locks scanner pid) (empty : Nat → Bool) :
    Follows scanner store
      { store with file := { store.file with pageIds := store.file.pageIds ++ [pid] }
                   foundEmpty := empty } [] := by
  refine ⟨by simp, fun rid row => ?_, fun rid has => ⟨List.mem_append_left _ has.1, has.2⟩, by simp, by simp⟩
  by_cases isNew : rid.pageId = pid
  · have blank : (store.file.pages rid.pageId).liveRecord rid.slotId = none := by
      rw [isNew, fresh.blank]
      rfl
    simp [HeapFile.getRow, blank]
  · simp [HeapFile.getRow, isNew]

theorem Covers.follows_own (covers : store.Covers objectId locks scanner)
    (action : store.Action objectId quiet locks scanner call store' rest) (orderly : store.Orderly objectId locks)
    (room : store.file.allocated < 2 ^ 32) : ∃ later, Follows scanner store store' later := by
  cases action with
  | looks next => exact ⟨[], .refl scanner store⟩
  | lastPage isLast => exact ⟨[], follows_of_same (by simp) rfl (fun _ _ => rfl) (by simp)⟩
  | noPage isEmpty => exact absurd isEmpty covers.populated
  | insertRecord listed exclusive done => exact ⟨_, follows_insertRecord listed done⟩
  | newHeapPage entitled =>
    refine ⟨[], follows_of_same (by simp [markDirty]) rfl (fun page listed => ?_) (by simp)⟩
    exact (newHeapPage_pages room page).trans (if_neg (Nat.ne_of_lt (orderly.listed_lt page listed)))
  | pushPage entitled fresh exclusive => exact ⟨[], follows_pushPage fresh _⟩
  | deleteRecord listed exclusive isLive => exact ⟨_, follows_deleteRecord listed isLive⟩

end HeapStore

namespace HeapSystem

open HeapStore CallSystem HeapCall HeapNote

variable {objectId scanner : Nat} {s s' : HeapSystem} {event : CallEvent HeapCall Bool}

abbrev Covered (objectId scanner : Nat) (s : HeapSystem) : Prop := s.shared.Covers objectId s.locks scanner

theorem step_covered (sound : Sound objectId (· = scanner) s) (covered : Covered objectId scanner s)
    (taken : step (interface objectId) s event = some s') (unreleased : event ≠ .releaseAll scanner) :
    Covered objectId scanner s' := by
  have keeps := fun page => (step_keeps sound.orderly.consistent taken unreleased ⟨objectId, page⟩).2
  cases stepped taken with
  | acted calling => exact covered.acted sound.orderly.consistent ((sound.at_call _ _ _ _ calling).acted rfl)
  | finished how idle => cases how <;> exact ⟨covered.populated, covered.held, covered.nobody⟩
  | _ => exact ⟨covered.populated, fun page listed => keeps page (covered.held page listed), covered.nobody⟩

theorem undisturbed_of_covered (sound : Sound objectId (· = scanner) s) (covered : Covered objectId scanner s)
    (taken : step (interface objectId) s event = some s') : Undisturbed (· = scanner) s s' := by
  rintro txnId steps rest rfl scanning
  cases stepped taken with
  | @acted other call steps' update next calling =>
    have action := (sound.at_call _ _ _ _ calling).acted rfl
    by_cases own : other = txnId
    · subst own
      cases Eq.trans (Eq.symm scanning) calling
      exact action.pageIds_of_scan rfl
    · rcases covered.looks_only sound.orderly.consistent own action with same | same <;> rw [same]
  | finished how idle => cases how <;> rfl
  | _ => rfl

theorem step_follows (sound : Sound objectId (· = scanner) s) (covered : Covered objectId scanner s)
    (room : s.shared.file.allocated < 2 ^ 32) (taken : step (interface objectId) s event = some s')
    (unfinished : ∀ how, event ≠ .finish scanner how) : ∃ later, Follows scanner s.shared s'.shared later := by
  cases stepped taken with
  | @acted txnId call steps update next calling =>
    have action := (sound.at_call _ _ _ _ calling).acted rfl
    by_cases own : txnId = scanner
    · subst own
      exact covered.follows_own action sound.orderly room
    · rcases covered.looks_only sound.orderly.consistent own action with same | same
      · exact ⟨[], by rw [same]; exact .refl scanner s.shared⟩
      · exact ⟨[], by rw [same]; exact follows_of_same (by simp) rfl (fun _ _ => rfl) (by simp)⟩
  | @finished txnId last how idle =>
    have different : txnId ≠ scanner := fun same => unfinished how (by rw [same])
    have untouched : ∀ page ∈ s.shared.file.pageIds, page ∉ s.shared.dirtied txnId := fun page listed dirty =>
      covered.not_exclusive sound.orderly.consistent different listed (sound.exclusive_of_idle idle page dirty)
    cases how with
    | true => exact ⟨[.committed txnId], follows_of_same rfl rfl (fun _ _ => rfl) (by simp)⟩
    | false =>
      exact ⟨[.aborted txnId], follows_of_same rfl rfl (fun page listed => if_neg (untouched page listed)) (by simp)⟩
  | _ => exact ⟨[], .refl scanner s.shared⟩

theorem run_covered {events more : List (CallEvent HeapCall Bool)} (fits : Fits objectId (events ++ more))
    (reached : run (step (interface objectId)) start events = some s)
    (onward : run (step (interface objectId)) s more = some s')
    (sound : Sound objectId (· = scanner) s) (covered : Covered objectId scanner s)
    (active : ¬ (s.threads scanner = .ending ∨ s.threads scanner = .ended))
    (unfinished : ∀ how, .finish scanner how ∉ more) :
    Sound objectId (· = scanner) s' ∧ Covered objectId scanner s' ∧
      ∃ later, Follows scanner s.shared s'.shared later := by
  suffices kept : Sound objectId (· = scanner) s' ∧ Covered objectId scanner s' ∧
      ¬ (s'.threads scanner = .ending ∨ s'.threads scanner = .ended) ∧
      ∃ later, Follows scanner s.shared s'.shared later from ⟨kept.1, kept.2.1, kept.2.2.2⟩
  refine run_induction (fun more' m => more' <+: more → Sound objectId (· = scanner) m ∧ Covered objectId scanner m ∧
      ¬ (m.threads scanner = .ending ∨ m.threads scanner = .ended) ∧ ∃ later, Follows scanner s.shared m.shared later)
    (fun _ => ⟨sound, covered, active, [], .refl scanner s.shared⟩) ?_ onward (List.prefix_refl _)
  intro more' m event m' before ih taken isEarlier
  have earlier : more' <+: more := (List.prefix_append _ _).trans isEarlier
  obtain ⟨sound, covered, active, later, follows⟩ := ih earlier
  have room : m.shared.file.allocated < 2 ^ 32 := fits (events ++ more') m
    ((List.prefix_append_right_inj events).mpr earlier) (run_append_some.mpr ⟨s, reached, before⟩)
  have notFinish : ∀ how, event ≠ .finish scanner how := by
    rintro how rfl
    exact unfinished how (isEarlier.subset (by simp))
  have unreleased : event ≠ .releaseAll scanner := by
    rintro rfl
    cases stepped taken with
    | released ending => exact active (.inl ending)
  obtain ⟨now, further⟩ := step_follows sound covered room taken notFinish
  refine ⟨step_sound sound room taken (undisturbed_of_covered sound covered taken),
    step_covered sound covered taken unreleased, fun ends => ?_, later ++ now, follows.trans further⟩
  rcases (step_ending taken scanner).mp ends with already | ⟨how, isFinish⟩
  · exact active already
  · exact notFinish how isFinish

/-- A Scan of `scanner` returns `rows` at `s`, and the run goes on to `s'` without the end of `scanner`. -/
structure ScanThenOn (objectId scanner : Nat) (events more : List (CallEvent HeapCall Bool)) (s s' : HeapSystem)
    (rows : List (RID × Bytes)) : Prop where
  reached : run (step (interface objectId)) start events = some s
  returning : ∃ steps, s.Calling scanner .scan steps (.done (.rows rows))
  onward : run (step (interface objectId)) s more = some s'
  unfinished : ∀ how, .finish scanner how ∉ more

/-- No Insert of another transaction is through, and a Scan returning now differs from the first by what the
transaction has inserted and deleted itself. -/
structure NoPhantoms (scanner : Nat) (s s' : HeapSystem) (rows : List (RID × Bytes)) : Prop where
  nobody : ∀ other row steps rid, other ≠ scanner → ¬ s'.Calling other (.insert row) steps (.done (.inserted rid))
  again : ∀ steps rows', s'.Calling scanner .scan steps (.done (.rows rows')) →
    ∃ later, s'.shared.journal = s.shared.journal ++ later ∧ ∀ rid row, (rid, row) ∈ rows' ↔
      ((rid, row) ∈ rows ∨ .inserted scanner rid row ∈ later) ∧ .deleted scanner rid ∉ later

/-- The file has a page, and no Insert of another transaction that found it empty has yet to append its own. -/
def Populated (scanner : Nat) (s : HeapSystem) : Prop :=
  s.shared.file.pageIds ≠ [] ∧ ∀ other, other ≠ scanner → s.shared.foundEmpty other = false

theorem inserted_exclusive {quiet : Nat → Prop} {locks : LockManager} {store : HeapStore} {txnId : Nat}
    {call : HeapCall} {rest : HeapProgram HeapResult} (here : store.At objectId quiet locks txnId call rest)
    {rid : RID} (isDone : rest = .done (.inserted rid)) :
    rid.pageId ∈ store.file.pageIds ∧ locks.HoldsExclusive txnId ⟨objectId, rid.pageId⟩ := by
  cases here with
  | begins call =>
    cases call with
    | insert row =>
      simp only [HeapCall.program, HeapProgram.insert] at isDone
      split at isDone <;> cases isDone
    | elsewhere key mode =>
      simp only [HeapCall.program, HeapProgram.elsewhere] at isDone
      split at isDone <;> cases isDone
    | _ => cases isDone
  | inserted listed held =>
    cases isDone
    exact ⟨listed, held⟩
  | @scanPages done rest out scanned => cases rest <;> cases isDone
  | _ => cases isDone

theorem no_phantoms (objectId scanner : Nat) (events more : List (CallEvent HeapCall Bool)) (s s' : HeapSystem)
    (rows : List (RID × Bytes)) (scans : ScanThenOn objectId scanner events more s s' rows)
    (populated : Populated scanner s) (undisturbed : ScansUndisturbed objectId scanner events)
    (fits : Fits objectId (events ++ more)) : NoPhantoms scanner s s' rows := by
  obtain ⟨reached, ⟨steps, returning⟩, onward, unfinished⟩ := scans
  have sound := (run_sound (fun events' t isEarlier =>
    fits events' t (isEarlier.trans (List.prefix_append _ _))) undisturbed reached).1
  obtain ⟨rows_eq, held⟩ := returning_whole sound returning
  have active : ¬ (s.threads scanner = .ending ∨ s.threads scanner = .ended) := by
    simp [show s.threads scanner = _ from returning]
  obtain ⟨sound', covered', later, follows⟩ := run_covered fits reached onward sound
    ⟨populated.1, held, populated.2⟩ active unfinished
  refine ⟨fun other row steps' rid different calling => ?_, fun steps' rows' returning' => ?_⟩
  · obtain ⟨listed, exclusive⟩ := inserted_exclusive (sound'.at_call _ _ _ _ calling) rfl
    exact covered'.not_exclusive sound'.orderly.consistent different listed exclusive
  · refine ⟨later, follows.journal_eq, fun rid row => ?_⟩
    rw [(returning_whole sound' returning').1, rows_eq, HeapFile.mem_rows, HeapFile.mem_rows, follows.rows_iff]

theorem foundEmpty_stranger {events : List (CallEvent HeapCall Bool)} (fits : Fits objectId events)
    (reached : run (step (interface objectId)) start events = some s) {other : Nat}
    (stranger : ∀ event ∈ events, other ≠ event.txnId) : s.shared.foundEmpty other = false := by
  refine run_induction (fun events' s => events' <+: events → s.shared.foundEmpty other = false) (fun _ => rfl) ?_
    reached (List.prefix_refl _)
  intro events' m event m' before ih taken isEarlier
  have earlier : events' <+: events := (List.prefix_append _ _).trans isEarlier
  have sound := (run_sound_any (fun events'' t isEarlier' => fits events'' t (isEarlier'.trans earlier)) before).1
  have different : other ≠ event.txnId := stranger event (isEarlier.subset (by simp))
  rw [← ih earlier]
  cases stepped taken with
  | acted calling => exact ((sound.at_call _ _ _ _ calling).acted rfl).foundEmpty_others different
  | finished how idle => cases how <;> rfl
  | _ => rfl

def refusedInsert : List (CallEvent HeapCall Bool) := [.call 3 (.insert [9]), .step 3, .step 3]

set_option maxRecDepth 100000 in
theorem no_phantoms_refused_insert : ∃ s s',
    run (step (interface 0)) start committedThenScanned = some s ∧
      run (step (interface 0)) s refusedInsert = some s' ∧
      NoPhantoms 1 s s' [(⟨0, 0⟩, [7]), (⟨1, 0⟩, largeRow)] := by
  have runs : (run (step (interface 0)) start committedThenScanned).any (fun s =>
      returned s = some [(⟨0, 0⟩, [7]), (⟨1, 0⟩, largeRow)] ∧ s.shared.file.pageIds ≠ [] ∧
        s.shared.foundEmpty 2 = false ∧ (run (step (interface 0)) s refusedInsert).isSome) = true := by
    decide +kernel
  have tested : everyStep (step (interface 0)) testStep start committedThenScanned = true := by decide +kernel
  have tested' : everyStep (step (interface 0)) testStep start (committedThenScanned ++ refusedInsert) = true := by
    decide +kernel
  obtain ⟨s, reached, known⟩ := (Option.any_eq_true _ _).mp runs
  obtain ⟨isReturned, listed, notEmpty, goesOn⟩ := decide_eq_true_iff.mp known
  obtain ⟨s', onward⟩ := Option.isSome_iff_exists.mp goesOn
  have populated : Populated 1 s := by
    refine ⟨listed, fun other different => ?_⟩
    by_cases writer : other = 2
    · rw [writer, notEmpty]
    · refine foundEmpty_stranger (fits_of_test tested) reached fun event member => ?_
      have known : event.txnId = 1 ∨ event.txnId = 2 := by
        revert event
        decide
      rcases known with isScanner | isWriter
      · rwa [isScanner]
      · rwa [isWriter]
  exact ⟨s, s', reached, onward, no_phantoms 0 1 committedThenScanned refusedInsert s s' _
    ⟨reached, returned_eq_some isReturned, onward, by simp [refusedInsert]⟩ populated
    (scansUndisturbed_of_test tested) (fits_of_test tested')⟩

def scannedEmpty : List (CallEvent HeapCall Bool) := [.call 1 .scan, .step 1]

def insertedAfterwards : List (CallEvent HeapCall Bool) := .call 2 (.insert [7]) :: List.replicate 5 (.step 2)

def hasInserted (s : HeapSystem) : Bool :=
  match s.threads 2 with
  | .calling (.insert _) _ (.done (.inserted _)) => true
  | _ => false

set_option maxRecDepth 100000 in
theorem phantom_in_empty_file : ¬ ∀ objectId scanner events more s s' rows,
    ScanThenOn objectId scanner events more s s' rows → NoPhantoms scanner s s' rows := by
  intro always
  have runs : (run (step (interface 0)) start scannedEmpty).any (fun s => returned s = some [] ∧
      (run (step (interface 0)) s insertedAfterwards).any hasInserted) = true := by
    decide +kernel
  obtain ⟨s, reached, known⟩ := (Option.any_eq_true _ _).mp runs
  obtain ⟨isReturned, inserts⟩ := decide_eq_true_iff.mp known
  obtain ⟨s', onward, through⟩ := (Option.any_eq_true _ _).mp inserts
  have none := (always 0 1 scannedEmpty insertedAfterwards s s' []
    ⟨reached, returned_eq_some isReturned, onward, by simp [insertedAfterwards]⟩).nobody
  simp only [hasInserted] at through
  split at through
  · rename_i row steps rid calling
    exact none 2 row steps rid (by decide) calling
  · cases through

end HeapSystem

end FlintDB
