import FlintDB.Wal.LogHistory

set_option autoImplicit false

-- FullWrite throws when a write fails, with whatever part of the record it has written so far left in the file. The
-- LSN is spent either way, and the next append goes to the end of the file as it is.

namespace FlintDB

open Lib

theorem recordsOnOpen_append {records : List LogRecord} (canonical : ∀ record ∈ records, record.Canonical) (tail : Bytes) :
    ∃ found, (LogManager.open (encodeAll records ++ tail)).recordsOnOpen = records ++ found := by
  have enough : records.length ≤ (encodeAll records ++ tail).length := by
    rw [List.length_append]
    exact Nat.le_trans (LogHistory.length_le_encodeAll records) (Nat.le_add_right _ _)
  obtain ⟨fuel, fuel_eq⟩ := Nat.exists_eq_add_of_le enough
  refine ⟨scan parseRecord LogRecord.size fuel tail, ?_⟩
  show scan parseRecord LogRecord.size (encodeAll records ++ tail).length (encodeAll records ++ tail) = _
  rw [fuel_eq]
  exact scan_append (fun record rest canonical => parseRecord_encode record canonical rest) LogRecord.encode_length
    canonical tail fuel

namespace FailedAppend

inductive Event
  | append (call : AppendCall)
  -- FullWrite throws when it has written so many bytes of the record
  | failedAppend (call : AppendCall) (written : Nat)
  deriving DecidableEq

structure State where
  log : LogManager
  -- the records found on open, and those whose append has returned since
  returned : List LogRecord

-- next_lsn_ is a uint64_t.
def nextRecord (log : LogManager) (call : AppendCall) : LogRecord := call.record (log.nextLsn % 2 ^ 64)

def step (s : State) : Event → Option State
  | .append call =>
    (call.apply s.log).map fun (log, _) => { log := log, returned := s.returned ++ [nextRecord s.log call] }
  | .failedAppend call written =>
    let buf := (nextRecord s.log call).encode
    if written < buf.length then
      (s.log.file.write (buf.take written)).map fun file =>
        { s with log := { s.log with file := file, nextLsn := wrapLsn (s.log.nextLsn + 1) } }
    else none

/-- A LogManager that has opened a file with these records. -/
def opened (records : List LogRecord) : State where
  log := LogManager.open (encodeAll records)
  returned := records

def Event.isAppend : Event → Bool
  | .append _ => true
  | .failedAppend _ _ => false

def Event.leavesPart : Event → Bool
  | .append _ => false
  | .failedAppend _ written => 0 < written

/-- Nothing is appended behind a part of a record. -/
def NoAppendBehindPart (events : List Event) : Prop :=
  events.Pairwise fun earlier later => earlier.leavesPart → ¬ later.isAppend

instance (events : List Event) : Decidable (NoAppendBehindPart events) :=
  inferInstanceAs (Decidable (events.Pairwise _))

def Inv (events : List Event) (s : State) : Prop :=
  (∀ record ∈ s.returned, record.Canonical) ∧ ∃ parts, s.log.file.content = encodeAll s.returned ++ parts ∧
    (parts ≠ [] → ∃ event ∈ events, event.leavesPart)

theorem nextRecord_canonical (log : LogManager) (call : AppendCall) : (nextRecord log call).Canonical :=
  call.record_canonical (Nat.mod_lt _ (by decide))

theorem nextRecord_encode (log : LogManager) (call : AppendCall) :
    (nextRecord log call).encode = (call.record log.nextLsn).encode := by
  cases call with
  | begin _ | update _ _ _ _ | commit _ | abort _ => exact recordBuf_lsn_mod ..

theorem inv_opened {records : List LogRecord} (canonical : ∀ record ∈ records, record.Canonical) :
    Inv [] (opened records) := by
  refine ⟨canonical, [], ?_, fun nonempty => absurd rfl nonempty⟩
  have opened := open_cut canonical (encodeAll records).length
  rw [List.take_length, within_all (encodeAll_length records).ge] at opened
  rw [List.append_nil]
  exact opened.1

theorem inv_step {events : List Event} {s s' : State} {event : Event} (inv : Inv events s)
    (behind : ∀ earlier ∈ events, earlier.leavesPart → ¬ event.isAppend)
    (taken : step s event = some s') : Inv (events ++ [event]) s' := by
  obtain ⟨canonical, parts, content_eq, cause⟩ := inv
  cases event with
  | append call =>
    obtain ⟨⟨log, lsn⟩, applied, rfl⟩ := Option.map_eq_some_iff.mp taken
    obtain ⟨rfl, -, rfl⟩ := AppendCall.apply_some applied
    have none : parts = [] := by
      by_contra nonempty
      obtain ⟨earlier, isEarlier, leaves⟩ := cause nonempty
      exact behind earlier isEarlier leaves rfl
    refine ⟨fun record isRecord => ?_, [], ?_, fun nonempty => absurd rfl nonempty⟩
    · rcases List.mem_append.mp isRecord with older | newest
      · exact canonical record older
      · rw [List.mem_singleton.mp newest]
        exact nextRecord_canonical s.log call
    · simp only [content_eq, none, List.append_nil, LogHistory.encodeAll_append, LogHistory.encodeAll_singleton,
        nextRecord_encode]
  | failedAppend call written =>
    simp only [step] at taken
    split at taken
    · obtain ⟨file, wrote, rfl⟩ := Option.map_eq_some_iff.mp taken
      simp only [WalFile.write] at wrote
      split at wrote
      · cases wrote
        refine ⟨canonical, parts ++ (nextRecord s.log call).encode.take written, ?_, fun nonempty => ?_⟩
        · simp only [content_eq, List.append_assoc]
        · by_cases none : written = 0
          · rw [none, List.take_zero, List.append_nil] at nonempty
            obtain ⟨earlier, isEarlier, leaves⟩ := cause nonempty
            exact ⟨earlier, List.mem_append_left _ isEarlier, leaves⟩
          · exact ⟨.failedAppend call written, by simp, decide_eq_true (Nat.pos_of_ne_zero none)⟩
      · cases wrote
    · cases taken

theorem inv_run {records : List LogRecord} (canonical : ∀ record ∈ records, record.Canonical) {events : List Event}
    (clean : NoAppendBehindPart events) {s : State} (reached : run step (opened records) events = some s) :
    Inv events s := by
  induction events using List.reverseRecOn generalizing s with
  | nil =>
    cases reached
    exact inv_opened canonical
  | append_singleton events event ih =>
    obtain ⟨m, before, last⟩ := run_snoc.mp reached
    obtain ⟨earlier, -, behind⟩ := List.pairwise_append.mp clean
    exact inv_step (ih earlier before) (fun other isOther => behind other isOther event (by simp)) last

/-- Every append that returned is there at the next open, if none came behind a part of a record. -/
theorem returned_appends_are_found (records : List LogRecord) (canonical : ∀ record ∈ records, record.Canonical)
    (events : List Event) (clean : NoAppendBehindPart events) (s : State)
    (reached : run step (opened records) events = some s) :
    s.returned <+: (LogManager.open s.log.file.content).recordsOnOpen := by
  obtain ⟨allCanonical, parts, content_eq, -⟩ := inv_run canonical clean reached
  obtain ⟨found, found_eq⟩ := recordsOnOpen_append allCanonical parts
  rw [content_eq, found_eq]
  exact List.prefix_append _ _

theorem returned_appends_are_found_around_failures :
    ∃ s, run step (opened []) [.failedAppend (.begin 1) 0, .append (.begin 2), .append (.commit 2),
        .failedAppend (.begin 3) 10] = some s ∧
      s.returned.map LogRecord.lsn = [2, 3] ∧ s.returned <+: (LogManager.open s.log.file.content).recordsOnOpen := by
  obtain ⟨s, reached⟩ : ∃ s, run step (opened []) [.failedAppend (.begin 1) 0, .append (.begin 2), .append (.commit 2),
      .failedAppend (.begin 3) 10] = some s := ⟨_, rfl⟩
  have clean : NoAppendBehindPart [.failedAppend (.begin 1) 0, .append (.begin 2), .append (.commit 2),
      .failedAppend (.begin 3) 10] := by decide
  have lsns : s.returned.map LogRecord.lsn = [2, 3] := by
    cases reached
    decide
  exact ⟨s, reached, lsns, returned_appends_are_found [] (by simp) _ clean s reached⟩

/-- A Commit record behind ten bytes of another record: AppendCommit has returned, and the next open does not find it. -/
theorem append_behind_part_is_lost :
    ∃ s, run step (opened []) [.failedAppend (.begin 1) 10, .append (.commit 2)] = some s ∧
      s.returned.map LogRecord.type = [.kCommit] ∧ (LogManager.open s.log.file.content).recordsOnOpen = [] ∧
      ¬ s.returned <+: (LogManager.open s.log.file.content).recordsOnOpen := by
  obtain ⟨s, reached⟩ : ∃ s, run step (opened []) [.failedAppend (.begin 1) 10, .append (.commit 2)] = some s := ⟨_, rfl⟩
  have ended : s.returned.map LogRecord.type = [.kCommit] ∧ (LogManager.open s.log.file.content).recordsOnOpen = [] := by
    cases reached
    decide
  refine ⟨s, reached, ended.1, ended.2, fun isPrefix => ?_⟩
  rw [ended.2, List.prefix_nil] at isPrefix
  rw [isPrefix] at ended
  cases ended.1

end FailedAppend

end FlintDB
