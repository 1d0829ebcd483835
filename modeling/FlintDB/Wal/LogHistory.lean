import FlintDB.Lib.Run
import FlintDB.Wal.Recovery

set_option autoImplicit false

-- Appends, crashes that cut the file anywhere, reopens and checkpoints. The records of the file are kept as history,
-- to be compared with what the next open finds.

namespace FlintDB

open Lib

-- A call of one of the append functions.
inductive AppendCall
  | begin (txnId : UInt64)
  | update (txnId : UInt64) (objectId pageId : UInt32) (image : PageImage)
  | commit (txnId : UInt64)
  | abort (txnId : UInt64)
  deriving DecidableEq

namespace AppendCall

def apply (log : LogManager) : AppendCall → Option (LogManager × Nat)
  | begin txnId => log.appendBegin txnId.toNat
  | update txnId objectId pageId image => log.appendUpdate txnId.toNat objectId.toNat pageId.toNat image
  | commit txnId => log.appendCommit txnId.toNat
  | abort txnId => log.appendAbort txnId.toNat

/-- The record that the call is about. -/
def record (lsn : Nat) : AppendCall → LogRecord
  | begin txnId => { lsn, type := .kBegin, txnId := txnId.toNat }
  | update txnId objectId pageId image =>
    { lsn, type := .kUpdate, txnId := txnId.toNat, objectId := objectId.toNat, pageId := pageId.toNat, pageImage := image }
  | commit txnId => { lsn, type := .kCommit, txnId := txnId.toNat }
  | abort txnId => { lsn, type := .kAbort, txnId := txnId.toNat }

@[simp] theorem record_lsn (lsn : Nat) (call : AppendCall) : (call.record lsn).lsn = lsn := by
  cases call <;> rfl

theorem record_canonical {lsn : Nat} (small : lsn < 2 ^ 64) (call : AppendCall) : (call.record lsn).Canonical := by
  cases call with
  | update txnId objectId pageId image =>
    exact ⟨small, txnId.toNat_lt, objectId.toNat_lt, pageId.toNat_lt, fun other => absurd rfl other⟩
  | begin txnId | commit txnId | abort txnId =>
    have invalid : invalidObjectId < 2 ^ 32 ∧ invalidPageId < 2 ^ 32 := by decide
    exact ⟨small, txnId.toNat_lt, invalid.1, invalid.2, fun _ => rfl⟩

theorem apply_some {log log' : LogManager} {call : AppendCall} {lsn : Nat}
    (applied : call.apply log = some (log', lsn)) :
    lsn = log.nextLsn ∧ log.file.content.length + (call.record lsn).encode.length ≤ maxFileSize ∧
      log' = { log with
        file := { log.file with content := log.file.content ++ (call.record lsn).encode }
        nextLsn := wrapLsn (log.nextLsn + 1) } := by
  cases call with
  | begin _ | update _ _ _ _ | commit _ | abort _ =>
    obtain ⟨rfl, fits, rfl⟩ := LogManager.appendRecord_some applied
    exact ⟨rfl, fits, rfl⟩

end AppendCall

namespace LogHistory

inductive Event
  | append (call : AppendCall)
  | crash (length : Nat)
  | reopen
  | checkpoint
  deriving DecidableEq

structure State where
  log : LogManager := .open []
  running : Bool := true
  -- the records of the file, of which a crash may have left only the first bytes
  records : List LogRecord := []

def step (s : State) : Event → Option State
  | .append call =>
    if s.running then
      (call.apply s.log).map fun (log, lsn) => { s with log := log, records := s.records ++ [call.record lsn] }
    else none
  | .crash length => some { s with log := { s.log with file := s.log.file.ftruncate length }, running := false }
  | .reopen =>
    let log := LogManager.open s.log.file.content
    some { log := log, running := true, records := log.recordsOnOpen }
  | .checkpoint => if s.running then some { s with log := s.log.checkpoint, records := [] } else none

structure Inv (s : State) : Prop where
  canonical : ∀ record ∈ s.records, record.Canonical
  lsns : s.records.map LogRecord.lsn = List.range' 1 s.records.length
  size : (encodeAll s.records).length ≤ maxFileSize
  cut : ∃ n, s.log.file.content = (encodeAll s.records).take n
  whole : s.running → s.log.file.content = encodeAll s.records ∧ s.log.nextLsn = s.records.length + 1

theorem encodeAll_append (first second : List LogRecord) :
    encodeAll (first ++ second) = encodeAll first ++ encodeAll second := List.flatMap_append

theorem encodeAll_singleton (record : LogRecord) : encodeAll [record] = record.encode := by simp [encodeAll]

theorem length_le_encodeAll (records : List LogRecord) : records.length ≤ (encodeAll records).length := by
  rw [encodeAll_length, goodLength]
  induction records with
  | nil => exact Nat.le_refl _
  | cons record rest ih =>
    have positive : 33 ≤ record.size := LogRecord.recordLen_pos record.type
    simp only [List.length_cons, List.map_cons, List.sum_cons]
    omega

theorem range'_one_getLast? (n : Nat) : (List.range' 1 n).getLast? = if n = 0 then none else some n := by
  cases n with
  | zero => rfl
  | succ n => simp [List.range'_1_concat, Nat.add_comm]

theorem nextLsn_eq (data : Bytes) : (LogManager.open data).nextLsn =
    (LogManager.open data).recordsOnOpen.getLast?.elim 1 fun last => wrapLsn (last.lsn + 1) := by
  have scanned : (LogManager.open data).recordsOnOpen = scanRecords data := rfl
  rw [scanned, LogManager.open]
  cases (scanRecords data).getLast? <;> rfl

theorem nextLsn_open {data : Bytes} (lsns : (LogManager.open data).recordsOnOpen.map LogRecord.lsn =
      List.range' 1 (LogManager.open data).recordsOnOpen.length)
    (size : (encodeAll (LogManager.open data).recordsOnOpen).length ≤ maxFileSize) :
    (LogManager.open data).nextLsn = (LogManager.open data).recordsOnOpen.length + 1 := by
  have last := congrArg List.getLast? lsns
  rw [range'_one_getLast?, List.getLast?_map] at last
  rw [nextLsn_eq]
  split at last
  · rename_i empty
    rw [Option.map_eq_none_iff] at last
    rw [last, empty, Option.elim_none]
  · obtain ⟨record, found, lsn_eq⟩ := Option.map_eq_some_iff.mp last
    have many := length_le_encodeAll (LogManager.open data).recordsOnOpen
    rw [found, ← lsn_eq, Option.elim_some, wrapLsn_of_lt (by rw [maxFileSize] at size; omega)]

theorem Inv.open_eq {s : State} (inv : Inv s) :
    (LogManager.open s.log.file.content).recordsOnOpen = within LogRecord.size s.records s.log.file.content.length ∧
      (LogManager.open s.log.file.content).file.content =
        encodeAll (within LogRecord.size s.records s.log.file.content.length) := by
  obtain ⟨n, cut⟩ := inv.cut
  have again : s.log.file.content = (encodeAll s.records).take s.log.file.content.length := by
    rw [cut, List.length_take]
    by_cases short : n ≤ (encodeAll s.records).length
    · rw [Nat.min_eq_left short]
    · rw [Nat.min_eq_right (by omega), List.take_of_length_le (by omega), List.take_length]
  have opened := open_cut inv.canonical s.log.file.content.length
  rw [← again] at opened
  exact ⟨opened.2, opened.1⟩

theorem lsns_of_prefix {records before : List LogRecord}
    (lsns : records.map LogRecord.lsn = List.range' 1 records.length) (earlier : before <+: records) :
    before.map LogRecord.lsn = List.range' 1 before.length := by
  have taken := List.prefix_iff_eq_take.mp earlier
  have shorter := earlier.length_le
  have numbered := congrArg (List.take before.length) lsns
  rw [← List.map_take, ← taken, List.take_range'_of_length_ge shorter] at numbered
  exact numbered

theorem Inv.reopen {s : State} (inv : Inv s) :
    Inv { log := LogManager.open s.log.file.content, running := true,
          records := (LogManager.open s.log.file.content).recordsOnOpen } := by
  obtain ⟨records_eq, content_eq⟩ := inv.open_eq
  have earlier : (LogManager.open s.log.file.content).recordsOnOpen <+: s.records := by
    rw [records_eq]
    exact within_isPrefix ..
  have whole : (LogManager.open s.log.file.content).file.content =
      encodeAll (LogManager.open s.log.file.content).recordsOnOpen := by
    rw [content_eq, records_eq]
  have lsns := lsns_of_prefix inv.lsns earlier
  have size : (encodeAll (LogManager.open s.log.file.content).recordsOnOpen).length ≤ maxFileSize := by
    obtain ⟨rest, split⟩ := earlier
    have size := inv.size
    rw [← split, encodeAll_append, List.length_append] at size
    exact Nat.le_trans (Nat.le_add_right _ _) size
  refine ⟨fun record isRecord => inv.canonical record (earlier.subset isRecord), lsns, size,
    ⟨(encodeAll (LogManager.open s.log.file.content).recordsOnOpen).length, ?_⟩, fun _ => ⟨whole, nextLsn_open lsns size⟩⟩
  rw [List.take_length]
  exact whole

theorem inv_step {s s' : State} {event : Event} (inv : Inv s) (taken : step s event = some s') : Inv s' := by
  cases event with
  | append call =>
    simp only [step] at taken
    split at taken
    · rename_i running
      obtain ⟨⟨log, lsn⟩, applied, rfl⟩ := Option.map_eq_some_iff.mp taken
      obtain ⟨rfl, fits, rfl⟩ := AppendCall.apply_some applied
      obtain ⟨whole, next⟩ := inv.whole running
      have enlarged : encodeAll (s.records ++ [call.record s.log.nextLsn]) =
          s.log.file.content ++ (call.record s.log.nextLsn).encode := by
        rw [encodeAll_append, encodeAll_singleton, whole]
      have size : (encodeAll (s.records ++ [call.record s.log.nextLsn])).length ≤ maxFileSize := by
        rw [enlarged, List.length_append]
        exact fits
      have many := length_le_encodeAll (s.records ++ [call.record s.log.nextLsn])
      rw [List.length_append, List.length_singleton] at many
      have below : s.log.nextLsn + 1 < 2 ^ 64 := by
        rw [maxFileSize] at size
        omega
      have small : s.log.nextLsn < 2 ^ 64 := Nat.lt_of_succ_lt below
      refine ⟨fun record isRecord => ?_, ?_, size, ⟨_, ((List.take_length).trans enlarged).symm⟩,
        fun _ => ⟨enlarged.symm, ?_⟩⟩
      · rcases List.mem_append.mp isRecord with older | newest
        · exact inv.canonical record older
        · rw [List.mem_singleton.mp newest]
          exact call.record_canonical small
      · rw [List.map_append, inv.lsns, List.length_append, List.length_singleton, List.range'_1_concat, List.map_singleton,
          AppendCall.record_lsn, next, Nat.add_comm 1]
      · rw [wrapLsn_of_lt below, next, List.length_append, List.length_singleton]
    · cases taken
  | crash length =>
    cases taken
    obtain ⟨n, cut⟩ := inv.cut
    refine ⟨inv.canonical, inv.lsns, inv.size, ⟨min length n, ?_⟩, fun running => by cases running⟩
    simp only [WalFile.ftruncate]
    rw [cut, List.take_take]
  | reopen =>
    cases taken
    exact inv.reopen
  | checkpoint =>
    simp only [step] at taken
    split at taken
    · cases taken
      exact ⟨by simp, rfl, Nat.zero_le _, ⟨0, rfl⟩, fun _ => ⟨rfl, rfl⟩⟩
    · cases taken

theorem inv_run {events : List Event} {s : State} (reached : run step {} events = some s) : Inv s :=
  run_induction (fun _ => Inv) ⟨by simp, rfl, Nat.zero_le _, ⟨0, rfl⟩, fun _ => ⟨rfl, rfl⟩⟩
    (fun _ _ _ _ _ inv taken => inv_step inv taken) reached

/-- Whatever the file has been through: its records are numbered from 1, an append comes right behind the last of them,
and the next open finds those that are complete and cuts off the rest. -/
theorem reopen_finds_complete_records (events : List Event) (s : State) (reached : run step {} events = some s) :
    s.records.map LogRecord.lsn = List.range' 1 s.records.length ∧ s.log.file.content <+: encodeAll s.records ∧
      (s.running → s.log.file.content = encodeAll s.records ∧ s.log.nextLsn = s.records.length + 1) ∧
      ∃ found s', step s .reopen = some s' ∧ s'.log.recordsOnOpen = found ∧ found <+: s.records ∧
        (encodeAll found).length ≤ s.log.file.content.length ∧
        (∀ before, before <+: s.records → (encodeAll before).length ≤ s.log.file.content.length → before <+: found) ∧
        s'.log.file.content = encodeAll found ∧ s'.log.nextLsn = found.length + 1 := by
  have inv := inv_run reached
  obtain ⟨n, cut⟩ := inv.cut
  obtain ⟨records_eq, content_eq⟩ := inv.open_eq
  refine ⟨inv.lsns, by rw [cut]; exact List.take_prefix _ _, inv.whole, _, _, rfl, records_eq, within_isPrefix .., ?_,
    fun before earlier complete => prefix_within earlier ?_, content_eq, ?_⟩
  · rw [encodeAll_length]
    exact within_size ..
  · rwa [encodeAll_length] at complete
  · rw [← records_eq]
    exact (inv.reopen.whole rfl).2

theorem reopen_finds_complete_records_after_cut :
    ∃ s, run step {} [.append (.begin 1), .append (.commit 1), .crash 40, .reopen, .append (.abort 2)] = some s ∧
      s.records.map LogRecord.lsn = [1, 2] ∧ s.records.map LogRecord.type = [.kBegin, .kAbort] ∧
      s.log.file.content = encodeAll s.records := by
  obtain ⟨s, reached⟩ : ∃ s, run step {} [.append (.begin 1), .append (.commit 1), .crash 40, .reopen,
      .append (.abort 2)] = some s := ⟨_, rfl⟩
  have ended : s.running = true ∧ s.records.map LogRecord.lsn = [1, 2] ∧
      s.records.map LogRecord.type = [.kBegin, .kAbort] := by
    cases reached
    decide
  exact ⟨s, reached, ended.2.1, ended.2.2, ((reopen_finds_complete_records _ s reached).2.2.1 ended.1).1⟩

end LogHistory

end FlintDB
