import FlintDB.Db.Restart
import FlintDB.Txn.ForcedLog
import FlintDB.Txn.PowerLoss
import Mathlib.Data.List.DropRight

set_option autoImplicit false

-- Database::Checkpoint writes what is dirty and empties the log. Nothing fsyncs a data file in between, so whether a
-- transaction outlives a power loss afterwards depends on which page writes the kernel had put on the disk by itself.

namespace FlintDB

open Lib

namespace Checkpoint

-- Where a Checkpoint call stands. No other thread has a transaction while it runs.
inductive Phase
  | idle
  -- FlushAll has still to be called, or to return, for these objects
  | flushing (objects : List Nat)
  deriving DecidableEq

inductive Event
  | txn (event : FlintDB.Event)
  | call
  -- WritePage of FlushAll
  | writePage (pageId : Nat)
  | flushed
  -- LogManager::Checkpoint
  | truncate
  deriving DecidableEq

structure State where
  engine : Engine
  phase : Phase := .idle

end Checkpoint

namespace Engine

def hasActiveTransaction (s : Engine) : Bool := (List.range s.nextTxnId).any fun txnId => (s.activeTxns txnId).isSome

end Engine

namespace Checkpoint

-- `objects` lists the keys of objects_ in the order of its iteration.
def step (objects : List Nat) (s : State) : Event → Option State
  | .txn event =>
    match s.phase with
    | .idle => (s.engine.step event).map fun engine => { s with engine := engine }
    | .flushing _ => none
  | .call =>
    if s.phase = .idle ∧ s.engine.hasActiveTransaction = false then some { s with phase := .flushing objects } else none
  | .writePage pageId =>
    match s.phase with
    | .flushing (objectId :: _) => do
      let pool ← s.engine.pools objectId
      if pageId ∈ pool.dirty ∧ pool.pages pageId ≠ none then
        let pool ← pool.flushPage pageId
        some { s with engine := s.engine.setPool objectId pool }
      else none
    | _ => none
  -- a dirty page that is not cached is passed over
  | .flushed =>
    match s.phase with
    | .flushing (objectId :: rest) => do
      let pool ← s.engine.pools objectId
      if ∀ pageId ∈ pool.dirty, pool.pages pageId = none then
        some { engine := s.engine.setPool objectId { pool with dirty := ∅ }, phase := .flushing rest }
      else none
    | _ => none
  | .truncate =>
    match s.phase with
    | .flushing [] => some { engine := { s.engine with log := s.engine.log.checkpoint } }
    | _ => none

def diskOp (s : State) : Event → Option DiskOp
  | .txn event => s.engine.diskOp event
  | .writePage pageId =>
    match s.phase with
    | .flushing (objectId :: _) => (s.engine.flushedImage ⟨objectId, pageId⟩).map (.write ⟨objectId, pageId⟩ pageSize)
    | _ => none
  | _ => none

def diskOps (objects : List Nat) : State → List Event → List DiskOp
  | _, [] => []
  | s, event :: events =>
    (diskOp s event).toList ++
      match step objects s event with
      | none => []
      | some next => diskOps objects next events

def start (data : DataFiles) : State := { engine := .start (LogManager.open []) data.file }

def Event.txn? : Event → Option FlintDB.Event
  | txn event => some event
  | _ => none

def Event.isTruncate : Event → Bool
  | truncate => true
  | _ => false

def Event.isCall : Event → Bool
  | call => true
  | _ => false

def txnEvents (events : List Event) : List FlintDB.Event := events.filterMap Event.txn?

-- The run up to the point where the log was last emptied.
def untilEmptied (events : List Event) : List Event := events.rdropWhile fun event => !event.isTruncate

def sinceEmptied (events : List Event) : List Event := events.rtakeWhile fun event => !event.isTruncate

-- The run up to the last call of Checkpoint.
def untilCall (events : List Event) : List Event := events.rdropWhile fun event => !event.isCall

def sinceCall (events : List Event) : List Event := events.rtakeWhile fun event => !event.isCall

section Parts

variable {events : List Event} {event : Event}

theorem txnEvents_append (first second : List Event) :
    txnEvents (first ++ second) = txnEvents first ++ txnEvents second := by
  simp [txnEvents]

theorem txnEvents_snoc : txnEvents (events ++ [event]) = txnEvents events ++ event.txn?.toList := by
  rw [txnEvents_append]
  cases event <;> rfl

theorem emptied_parts (events : List Event) :
    txnEvents (untilEmptied events) ++ txnEvents (sinceEmptied events) = txnEvents events := by
  rw [← txnEvents_append, untilEmptied, sinceEmptied, List.rdropWhile_append_rtakeWhile]

theorem call_parts (events : List Event) :
    txnEvents (untilCall events) ++ txnEvents (sinceCall events) = txnEvents events := by
  rw [← txnEvents_append, untilCall, sinceCall, List.rdropWhile_append_rtakeWhile]

theorem untilEmptied_snoc (other : event.isTruncate = false) : untilEmptied (events ++ [event]) = untilEmptied events :=
  List.rdropWhile_concat_pos _ _ _ (by simp [other])

theorem sinceEmptied_snoc (other : event.isTruncate = false) :
    sinceEmptied (events ++ [event]) = sinceEmptied events ++ [event] :=
  List.rtakeWhile_concat_pos _ _ _ (by simp [other])

theorem untilEmptied_truncate : untilEmptied (events ++ [.truncate]) = events ++ [.truncate] :=
  List.rdropWhile_concat_neg _ _ _ (by simp [Event.isTruncate])

theorem sinceEmptied_truncate : sinceEmptied (events ++ [.truncate]) = [] :=
  List.rtakeWhile_concat_neg _ _ _ (by simp [Event.isTruncate])

theorem untilCall_snoc (other : event.isCall = false) : untilCall (events ++ [event]) = untilCall events :=
  List.rdropWhile_concat_pos _ _ _ (by simp [other])

theorem untilCall_call : untilCall (events ++ [.call]) = events ++ [.call] :=
  List.rdropWhile_concat_neg _ _ _ (by simp [Event.isCall])

end Parts

theorem diskOps_snoc {objects : List Nat} {first s : State} {events : List Event}
    (reached : run (step objects) first events = some s) (event : Event) :
    diskOps objects first (events ++ [event]) = diskOps objects first events ++ (diskOp s event).toList := by
  induction events generalizing first with
  | nil =>
    cases Option.some.inj reached
    simp only [List.nil_append, diskOps]
    split <;> simp
  | cons head events ih =>
    obtain ⟨m, stepped, onward⟩ := Option.bind_eq_some_iff.mp reached
    simp only [List.cons_append, diskOps, stepped, ih onward, List.append_assoc]

end Checkpoint

namespace Engine

variable {old : List LogRecord} {init : PageKey → PageImage} {events : List FlintDB.Event} {s s' : Engine}

theorem nobody_active (born : ∀ txnId, s.activeTxns txnId ≠ none → txnId < s.nextTxnId)
    (inactive : s.hasActiveTransaction = false) (txnId : Nat) : s.activeTxns txnId = none := by
  by_contra active
  have some_active : s.hasActiveTransaction = true :=
    List.any_eq_true.mpr ⟨txnId, List.mem_range.mpr (born txnId active), Option.isSome_iff_ne_none.mpr active⟩
  cases inactive.symm.trans some_active

theorem Serial.quiescent (serial : Serial init events s) (nobody : ∀ txnId, s.activeTxns txnId = none) (key : PageKey) :
    s.content key = committedStore init events key ∧ s.onDisk key = committedStore init events key :=
  serial.clean key fun txnId txn active => by cases (nobody txnId).symm.trans active

theorem numPages_setPool_same {objectId : Nat} {pool next : BufferPool} (found : s.pools objectId = some pool)
    (same : next.disk.numPages = pool.disk.numPages) : (s.setPool objectId next).numPages = s.numPages := by
  funext other
  by_cases here : other = objectId
  · subst here
    simp [numPages, setPool, found, same]
  · simp [numPages, setPool, here]

theorem flushedImage_content {key : PageKey} {image : PageImage} (written : s.flushedImage key = some image) :
    s.content key = image := by
  simp only [flushedImage, Option.bind_eq_bind, Option.bind_eq_some_iff, Option.ite_none_right_eq_some,
    Option.some.injEq] at written
  obtain ⟨pool, isPool, found, cached, -, rfl⟩ := written
  simp only [content, isPool, BufferPool.content_of_cached cached]

theorem Serial.of_idle (serial : Serial init events s) (nobody : ∀ txnId, s.activeTxns txnId = none)
    (txns : s'.activeTxns = s.activeTxns) (ids : s'.nextTxnId = s.nextTxnId) (locks : s'.locks = s.locks)
    (wellFormed : s'.WellFormed) (content : s'.content = s.content) (onDisk : s'.onDisk = s.onDisk) :
    Serial init events s' where
  wellFormed := wellFormed
  consistent := locks ▸ serial.consistent
  born := by rw [txns, ids]; exact serial.born
  holder := by rw [txns, locks]; exact serial.holder
  ended := by rw [txns, ids]; exact serial.ended
  unborn := by rw [ids]; exact serial.unborn
  dirtied := by simp [txns, nobody]
  pending := by simp [txns, nobody]
  exclusive := by simp [txns, nobody]
  accessed := by simp [txns, nobody]
  reads := by simp [txns, nobody]
  clean key _ := by rw [content, onDisk]; exact serial.quiescent nobody key
  dirty := by simp [txns, nobody]
  serial := serial.serial

theorem Serial.restart (serial : Serial init events s) (nobody : ∀ txnId, s.activeTxns txnId = none) :
    Serial (committedStore init events) [] s where
  wellFormed := serial.wellFormed
  consistent := serial.consistent
  born := serial.born
  holder := serial.holder
  ended := by simp [released]
  unborn := by simp [accessesOf]
  dirtied := by simp [nobody]
  pending := by simp [nobody]
  exclusive := by simp [nobody]
  accessed := by simp [accessesOf]
  reads := by simp [nobody]
  clean key _ := serial.quiescent nobody key
  dirty := by simp [nobody]
  serial := by simp [serialHistory, released, Replays]

theorem Logged.of_pools (logged : Logged old init events s) (log : s'.log = s.log) (flusher : s'.flusher = s.flusher)
    (txns : s'.activeTxns = s.activeTxns) (ids : s'.nextTxnId = s.nextTxnId) (sizes : s'.numPages = s.numPages)
    (onDisk : s'.onDisk = s.onDisk) : Logged old init events s' where
  file := log ▸ logged.file
  flushed := ⟨log ▸ logged.flushed.synced_le, log ▸ logged.flushed.durable,
    by rw [log, flusher]; exact logged.flushed.flusher⟩
  ids := ids ▸ logged.ids
  fits := sizes ▸ logged.fits
  pages := sizes ▸ logged.pages
  isolated := logged.isolated
  faithful := logged.faithful
  active := by rw [log, txns]; exact logged.active
  ended := by rw [log, txns]; exact logged.ended
  disk := by rw [log, onDisk]; exact logged.disk

theorem Logged.restart {init' : PageKey → PageImage} (logged : Logged old init events s)
    (nobody : ∀ txnId, s.activeTxns txnId = none) (onDisk : s.onDisk = init') :
    Logged [] init' [] ({ s with log := s.log.checkpoint } : Engine).forced where
  file := ⟨⟨[], rfl, ⟨by simp, by simp, Nat.zero_le _⟩, rfl⟩, rfl⟩
  flushed := by
    have last : s.log.checkpoint.lastLsn = 0 := wrapLsn_pred (n := 1) Nat.one_pos (by decide)
    refine ⟨Nat.le_refl _, ⟨last.le, fun before isPrefix _ => ?_⟩, by simp [Engine.forced, withLog]⟩
    have empty : before = [] := List.prefix_nil.mp isPrefix
    simp [empty, goodLength, logSize]
  ids := logged.ids
  fits := logged.fits
  pages _ _ updated := by
    obtain ⟨image, member⟩ := updated
    cases member
  isolated := isolated_nil
  faithful _ _ _ member := by cases member
  active txnId txn active := by cases (nobody txnId).symm.trans active
  ended txnId _ := by
    refine .inr ⟨by simp [released], ⟨?_, by simp [logEntries, commits]⟩⟩
    rintro key ⟨image, member⟩
    cases member
  disk key := .inl (congrFun onDisk key)

end Engine

namespace DiskOp

theorem byte_apply (files : Nat → Option DiskManager) (op : DiskOp) (key : PageKey) (i : Nat) :
    (fileImage (op.apply files) key).bytes[i]? = (fileImage files key).bytes[i]? ∨
      ∃ bytes image, op = .write key bytes image ∧ (fileImage (op.apply files) key).bytes[i]? = image.bytes[i]? := by
  rcases fileImage_apply files op key with same | ⟨bytes, image, rfl⟩
  · exact .inl (by rw [same])
  · cases found : files key.objectId with
    | none => exact .inl (by simp [fileImage, apply, objectId, found])
    | some disk =>
      have within : key.pageId < (grow disk (key.pageId + 1)).numPages := by
        rw [numPages_grow]
        omega
      have written : fileImage (apply files (.write key bytes image)) key =
          .overwrite bytes image (fileImage files key) := by
        simp only [fileImage, apply, objectId, found, Function.update_self, Option.map_some, onFile]
        rw [DiskManager.image_set _ _ _ _ within, if_pos rfl]
      rw [written]
      rcases PageImage.overwrite_byte bytes image (fileImage files key) i with new | same
      · exact .inr ⟨bytes, image, rfl, new⟩
      · exact .inl same

theorem byte_foldl (ops : List DiskOp) (files : Nat → Option DiskManager) (key : PageKey) (i : Nat) :
    (fileImage (ops.foldl apply files) key).bytes[i]? = (fileImage files key).bytes[i]? ∨
      ∃ bytes image, .write key bytes image ∈ ops ∧
        (fileImage (ops.foldl apply files) key).bytes[i]? = image.bytes[i]? := by
  induction ops generalizing files with
  | nil => exact .inl rfl
  | cons op ops ih =>
    rcases ih (op.apply files) with same | ⟨bytes, image, member, written⟩
    · rcases byte_apply files op key i with same' | ⟨bytes, image, rfl, written⟩
      · exact .inl (same.trans same')
      · exact .inr ⟨bytes, image, List.mem_cons_self, same.trans written⟩
    · exact .inr ⟨bytes, image, List.mem_cons_of_mem _ member, written⟩

theorem hasPage_foldl {ops : List DiskOp} {files : Nat → Option DiskManager} {key : PageKey}
    (present : HasPage files key) : HasPage (ops.foldl apply files) key := by
  induction ops generalizing files with
  | nil => exact present
  | cons op ops ih =>
    refine ih ?_
    obtain ⟨disk, found, within⟩ := present
    by_cases same : key.objectId = op.objectId
    · refine ⟨op.onFile disk, by simp [apply, ← same, found], Nat.lt_of_lt_of_le within ?_⟩
      cases op with
      | extend objectId numPages =>
        simp only [onFile, numPages_grow]
        exact Nat.le_max_left _ _
      | write key bytes image =>
        have kept := numPages_grow disk (key.pageId + 1)
        simp only [DiskManager.numPages, onFile, List.length_set] at kept ⊢
        omega
    · exact ⟨disk, by simp [apply, same, found], within⟩

end DiskOp

namespace Engine

variable {old : List LogRecord} {init init' : PageKey → PageImage} {events events' : List FlintDB.Event}
  {event : FlintDB.Event} {s s' : Engine} {key : PageKey}

theorem Logged.flushes_logged (logged : Logged old init events s.forced) (serial : Serial init events s)
    (stepped : s.step event = some s') {bytes : Nat} {image : PageImage}
    (flushes : s.diskOp event = some (.write key bytes image)) :
    ∃ txnId ∈ commits (logEntries events), .update txnId key image ∈ logEntries events := by
  have ofFlusher : ∀ {txnId txn pending}, s.activeTxns txnId = some txn → txn.phase = .flushing pending →
      key ∈ pending → s.flushedImage key = some image →
        ∃ txnId ∈ commits (logEntries events), .update txnId key image ∈ logEntries events := by
    intro txnId txn pending active phase member written
    have dirtied := serial.dirtied_of_pending active phase member
    have mine := logged.active txnId txn active
    simp only [TxnLogged, phase] at mine
    obtain ⟨image', updated⟩ := (mine.2 key).mpr dirtied
    have state := serial.dirty txnId txn active key dirtied
    simp only [phase, PageState] at state
    have same : image' = image := by
      rw [← flushedImage_content written, state.1]
      exact (logged.faithful txnId key image' updated _).symm
    exact ⟨txnId, mine.1.committed, same ▸ updated⟩
  cases event with
  | flushPage txnId key' =>
    obtain ⟨txn, pending, pools, active, phase, inPending, -⟩ := step_flushPage stepped
    simp only [diskOp, Option.map_eq_some_iff, DiskOp.write.injEq] at flushes
    obtain ⟨found, written, rfl, -, rfl⟩ := flushes
    exact ofFlusher active phase inPending written
  | flushPageTorn txnId key' bytes' =>
    obtain ⟨txn, pending, pools, active, phase, inPending, -⟩ := step_flushPageTorn stepped
    simp only [diskOp, Option.map_eq_some_iff, DiskOp.write.injEq] at flushes
    obtain ⟨found, written, rfl, -, rfl⟩ := flushes
    exact ofFlusher active phase inPending written
  | _ => simp [diskOp] at flushes

theorem Serial.accessesOf_released (serial : Serial init events s) (stepped : s.step event = some s') {txnId : Nat}
    (done : txnId ∈ released events) : accessesOf txnId (events ++ [event]) = accessesOf txnId events := by
  have gone := (serial.ended txnId done).2
  rcases step_access serial.wellFormed stepped with none | ⟨txn, -, active, -⟩
  · exact accessesOf_none none
  · refine accessesOf_other ?_
    rintro rfl
    cases gone.symm.trans active

theorem Logged.known_released {There : PageKey → Prop} (logged : Logged old init events s.forced)
    (serial : Serial init' events' s) (stepped : s.step event = some s')
    (known : ∀ txnId ∈ released events', ∀ key ∈ (writesOf (accessesOf txnId events')).map Prod.fst,
      There key ∨ ∃ other ∈ released events, Updated (logEntries events) other key) :
    ∀ txnId ∈ released (events' ++ [event]),
      ∀ key ∈ (writesOf (accessesOf txnId (events' ++ [event]))).map Prod.fst,
        There key ∨ ∃ other ∈ released (events ++ [event]), Updated (logEntries (events ++ [event])) other key := by
  intro txnId done key written
  rcases mem_released_snoc.mp done with before | rfl
  · rw [serial.accessesOf_released stepped before] at written
    refine (known txnId before key written).imp_right ?_
    rintro ⟨other, ended, image, updated⟩
    exact ⟨other, mem_released_snoc.mpr (.inl ended), image, (logEntries_grow events event).subset updated⟩
  · obtain ⟨txn, active, phase, -⟩ := step_commitRelease stepped
    rw [accessesOf_none rfl, ← serial.dirtied txnId txn active key] at written
    have mine := logged.active txnId txn active
    simp only [TxnLogged, phase] at mine
    obtain ⟨image, updated⟩ := (mine.2 key).mpr written
    exact .inr ⟨txnId, mem_released_snoc.mpr (.inr rfl), image, (logEntries_grow events _).subset updated⟩

end Engine

theorem PageImage.ext_bytes {image image' : PageImage} (same : ∀ i : Nat, image.bytes[i]? = image'.bytes[i]?) :
    image = image' := by
  obtain ⟨bytes, size⟩ := image
  obtain ⟨bytes', size'⟩ := image'
  have equal : bytes = bytes' := List.ext_getElem? same
  subst equal
  rfl

namespace Checkpoint

def base (data : DataFiles) (events : List Event) : PageKey → PageImage :=
  committedStore (fileImage data.file) (txnEvents (untilEmptied events))

-- The operations on the data files since the log was last emptied.
def opsSince (objects : List Nat) (data : DataFiles) (events : List Event) : List DiskOp :=
  (diskOps objects (start data) events).drop (diskOps objects (start data) (untilEmptied events)).length

def filesThen (objects : List Nat) (data : DataFiles) (events : List Event) : Nat → Option DiskManager :=
  (diskOps objects (start data) (untilEmptied events)).foldl DiskOp.apply data.file

-- The page is one of a transaction that had committed when the log was last emptied.
def WrittenBefore (events : List Event) (key : PageKey) : Prop :=
  ∃ txnId ∈ released (txnEvents (untilEmptied events)),
    key ∈ (writesOf (accessesOf txnId (txnEvents (untilEmptied events)))).map Prod.fst

structure Tracked (objects : List Nat) (data : DataFiles) (events : List Event) (s : State) : Prop where
  whole : Engine.Serial (fileImage data.file) (txnEvents events) s.engine
  part : Engine.Serial (base data events) (txnEvents (sinceEmptied events)) s.engine
  logged : Engine.Logged [] (base data events) (txnEvents (sinceEmptied events)) s.engine.forced
  redone : Engine.Redone (base data events) (txnEvents (sinceEmptied events))
  files : s.engine.files = (diskOps objects (start data) events).foldl DiskOp.apply data.file
  emptied : fileImage (filesThen objects data events) = base data events
  split : diskOps objects (start data) events =
    diskOps objects (start data) (untilEmptied events) ++ opsSince objects data events
  writes : ∀ key bytes image, .write key bytes image ∈ opsSince objects data events →
    image = base data events key ∨ ∃ txnId ∈ commits (logEntries (txnEvents (sinceEmptied events))),
      .update txnId key image ∈ logEntries (txnEvents (sinceEmptied events))
  known : ∀ txnId ∈ released (txnEvents events),
    ∀ key ∈ (writesOf (accessesOf txnId (txnEvents events))).map Prod.fst,
      WrittenBefore events key ∨ ∃ other ∈ released (txnEvents (sinceEmptied events)),
        Updated (logEntries (txnEvents (sinceEmptied events))) other key
  present : ∀ key, WrittenBefore events key → HasPage (filesThen objects data events) key
  idle : s.phase = .idle → txnEvents (untilCall events) = txnEvents (untilEmptied events)
  busy : s.phase ≠ .idle → txnEvents (untilCall events) = txnEvents events ∧ ∀ txnId, s.engine.activeTxns txnId = none

namespace Tracked

variable {objects : List Nat} {data : DataFiles} {events : List Event} {event : Event} {s s' : State}

theorem opsSince_snoc (tracked : Tracked objects data events s)
    (reached : run (step objects) (start data) events = some s) (other : event.isTruncate = false) :
    opsSince objects data (events ++ [event]) = opsSince objects data events ++ (diskOp s event).toList := by
  have split := tracked.split
  rw [opsSince, untilEmptied_snoc other, diskOps_snoc reached, split, List.append_assoc, List.drop_left]

theorem base_snoc (other : event.isTruncate = false) : base data (events ++ [event]) = base data events := by
  rw [base, untilEmptied_snoc other]
  rfl

theorem filesThen_snoc (other : event.isTruncate = false) :
    filesThen objects data (events ++ [event]) = filesThen objects data events := by
  rw [filesThen, untilEmptied_snoc other]
  rfl

theorem writtenBefore_snoc (other : event.isTruncate = false) (key : PageKey) :
    WrittenBefore (events ++ [event]) key ↔ WrittenBefore events key := by
  rw [WrittenBefore, untilEmptied_snoc other]
  rfl

theorem txnEvents_since (other : event.isTruncate = false) :
    txnEvents (sinceEmptied (events ++ [event])) = txnEvents (sinceEmptied events) ++ event.txn?.toList := by
  rw [sinceEmptied_snoc other, txnEvents_snoc]

theorem next (tracked : Tracked objects data events s) (reached : run (step objects) (start data) events = some s)
    (other : event.isTruncate = false)
    (whole : Engine.Serial (fileImage data.file) (txnEvents events ++ event.txn?.toList) s'.engine)
    (part : Engine.Serial (base data events) (txnEvents (sinceEmptied events) ++ event.txn?.toList) s'.engine)
    (logged : Engine.Logged [] (base data events) (txnEvents (sinceEmptied events) ++ event.txn?.toList)
      s'.engine.forced)
    (redone : Engine.Redone (base data events) (txnEvents (sinceEmptied events) ++ event.txn?.toList))
    (files : s'.engine.files = (diskOp s event).toList.foldl DiskOp.apply s.engine.files)
    (writes : ∀ key bytes image, diskOp s event = some (.write key bytes image) →
      image = base data events key ∨ ∃ txnId ∈ commits (logEntries (txnEvents (sinceEmptied events))),
        .update txnId key image ∈ logEntries (txnEvents (sinceEmptied events)))
    (known : ∀ txnId ∈ released (txnEvents events ++ event.txn?.toList),
      ∀ key ∈ (writesOf (accessesOf txnId (txnEvents events ++ event.txn?.toList))).map Prod.fst,
        WrittenBefore events key ∨
          ∃ other ∈ released (txnEvents (sinceEmptied events) ++ event.txn?.toList),
            Updated (logEntries (txnEvents (sinceEmptied events) ++ event.txn?.toList)) other key)
    (idle : s'.phase = .idle → txnEvents (untilCall (events ++ [event])) = txnEvents (untilEmptied events))
    (busy : s'.phase ≠ .idle → txnEvents (untilCall (events ++ [event])) = txnEvents events ++ event.txn?.toList ∧
      ∀ txnId, s'.engine.activeTxns txnId = none) :
    Tracked objects data (events ++ [event]) s' where
  whole := by rw [txnEvents_snoc]; exact whole
  part := by rw [base_snoc other, txnEvents_since other]; exact part
  logged := by rw [base_snoc other, txnEvents_since other]; exact logged
  redone := by rw [base_snoc other, txnEvents_since other]; exact redone
  files := by rw [files, diskOps_snoc reached, List.foldl_append, tracked.files]
  emptied := by rw [base_snoc other, filesThen_snoc other]; exact tracked.emptied
  split := by
    rw [tracked.opsSince_snoc reached other, untilEmptied_snoc other, diskOps_snoc reached, ← List.append_assoc,
      ← tracked.split]
  writes key bytes image member := by
    rw [base_snoc other, txnEvents_since other]
    have known : image = base data events key ∨ ∃ txnId ∈ commits (logEntries (txnEvents (sinceEmptied events))),
        .update txnId key image ∈ logEntries (txnEvents (sinceEmptied events)) := by
      rw [tracked.opsSince_snoc reached other] at member
      rcases List.mem_append.mp member with before | now
      · exact tracked.writes key bytes image before
      · exact writes key bytes image (Option.mem_toList.mp now)
    refine known.imp_right ?_
    rintro ⟨txnId, committed, updated⟩
    simp only [logEntries, List.filterMap_append, commits_append, List.mem_append]
    exact ⟨txnId, .inl committed, .inl updated⟩
  known := by
    rw [txnEvents_snoc, txnEvents_since other]
    simpa only [writtenBefore_snoc other] using known
  present key before := by
    rw [filesThen_snoc other]
    exact tracked.present key ((writtenBefore_snoc other key).mp before)
  idle phase := by rw [untilEmptied_snoc other]; exact idle phase
  busy phase := by rw [txnEvents_snoc]; exact busy phase

theorem txns (tracked : Tracked objects data events s) (reached : run (step objects) (start data) events = some s)
    {event : FlintDB.Event} (stepped : step objects s (.txn event) = some s') :
    Tracked objects data (events ++ [.txn event]) s' := by
  simp only [step] at stepped
  split at stepped
  · rename_i phase
    obtain ⟨engine, ran, rfl⟩ := Option.map_eq_some_iff.mp stepped
    have part := tracked.part.step ran
    have logged := tracked.logged.step_of_forced tracked.part ran
    refine tracked.next reached rfl (tracked.whole.step ran) part logged
      (tracked.redone.step tracked.logged tracked.part logged part ran) (Engine.step_files ran)
      (fun key bytes image flushes => .inr (tracked.logged.flushes_logged tracked.part ran flushes))
      (tracked.logged.known_released tracked.whole ran tracked.known) (fun _ => ?_) fun isBusy => absurd phase isBusy
    rw [untilCall_snoc rfl]
    exact tracked.idle phase
  · cases stepped

theorem calls (tracked : Tracked objects data events s) (reached : run (step objects) (start data) events = some s)
    (stepped : step objects s .call = some s') : Tracked objects data (events ++ [.call]) s' := by
  simp only [step, Option.ite_none_right_eq_some, Option.some.injEq] at stepped
  obtain ⟨⟨phase, inactive⟩, rfl⟩ := stepped
  have same : txnEvents events ++ Event.call.txn?.toList = txnEvents events := by simp [Event.txn?]
  have same' : txnEvents (sinceEmptied events) ++ Event.call.txn?.toList = txnEvents (sinceEmptied events) := by
    simp [Event.txn?]
  refine tracked.next reached rfl (by rw [same]; exact tracked.whole) (by rw [same']; exact tracked.part)
    (by rw [same']; exact tracked.logged) (by rw [same']; exact tracked.redone) rfl (by simp [diskOp])
    (by rw [same, same']; exact tracked.known) (by simp) fun _ => ⟨?_, Engine.nobody_active tracked.whole.born inactive⟩
  rw [untilCall_call, txnEvents_snoc]

theorem flushesAll (tracked : Tracked objects data events s) (reached : run (step objects) (start data) events = some s)
    (quiet : event.txn? = none) (other : event.isTruncate = false) (uncalled : event.isCall = false)
    (busy : s.phase ≠ .idle) (busy' : s'.phase ≠ .idle) {objectId : Nat} {pool : BufferPool}
    (pools : s'.engine = s.engine.setPool objectId pool) (wellFormed : s'.engine.WellFormed)
    (content : s'.engine.content = s.engine.content) (onDisk : s'.engine.onDisk = s.engine.onDisk)
    (sizes : s'.engine.numPages = s.engine.numPages)
    (files : s'.engine.files = (diskOp s event).toList.foldl DiskOp.apply s.engine.files)
    (writes : ∀ key bytes image, diskOp s event = some (.write key bytes image) → image = s.engine.content key) :
    Tracked objects data (events ++ [event]) s' := by
  obtain ⟨called, nobody⟩ := tracked.busy busy
  have txns : s'.engine.activeTxns = s.engine.activeTxns := by rw [pools]; rfl
  have ids : s'.engine.nextTxnId = s.engine.nextTxnId := by rw [pools]; rfl
  have locks : s'.engine.locks = s.engine.locks := by rw [pools]; rfl
  have log : s'.engine.log = s.engine.log := by rw [pools]; rfl
  have same : ∀ past : List FlintDB.Event, past ++ event.txn?.toList = past := by simp [quiet]
  refine tracked.next reached other ?_ ?_ ?_ ?_ files (fun key bytes image flushes => ?_) ?_ ?_ fun _ => ?_
  · rw [same]
    exact tracked.whole.of_idle nobody txns ids locks wellFormed content onDisk
  · rw [same]
    exact tracked.part.of_idle nobody txns ids locks wellFormed content onDisk
  · rw [same]
    exact tracked.logged.of_pools (by simp only [Engine.forced, Engine.withLog, log]) rfl txns ids sizes onDisk
  · rw [same]
    exact tracked.redone
  · rw [writes key bytes image flushes, (tracked.part.quiescent nobody key).1,
      ← congrFun (tracked.redone.idle tracked.logged nobody) key]
    exact redo_cases _ _ _
  · rw [same, same]
    exact tracked.known
  · exact fun phase => absurd phase busy'
  · rw [untilCall_snoc uncalled, same, txns]
    exact ⟨called, nobody⟩

theorem writesPage {pageId : Nat} (tracked : Tracked objects data events s)
    (reached : run (step objects) (start data) events = some s)
    (stepped : step objects s (.writePage pageId) = some s') : Tracked objects data (events ++ [.writePage pageId]) s' := by
  simp only [step] at stepped
  split at stepped
  · rename_i objectId rest phase
    simp only [Option.bind_eq_bind, Option.bind_eq_some_iff, Option.ite_none_right_eq_some, Option.some.injEq] at stepped
    obtain ⟨pool, found, ⟨isDirty, isCached⟩, next, flushed, rfl⟩ := stepped
    have busy : s.phase ≠ .idle := by simp [phase]
    obtain ⟨-, nobody⟩ := tracked.busy busy
    have atKey : s.engine.pools (PageKey.mk objectId pageId).objectId = some pool := found
    obtain ⟨touches, content, diskHere⟩ := Engine.flushPage_spec atKey flushed
    have onDisk : (s.engine.setPool objectId next).onDisk ⟨objectId, pageId⟩ = s.engine.onDisk ⟨objectId, pageId⟩ := by
      obtain ⟨inCache, inFile⟩ := tracked.whole.quiescent nobody ⟨objectId, pageId⟩
      rw [diskHere ⟨pool, found, isCached, isDirty⟩, inCache, inFile]
    have sizes : next.disk.numPages = pool.disk.numPages := by
      rcases BufferPool.flushPage_some flushed with ⟨-, rfl⟩ | ⟨-, -, rfl⟩
      · rfl
      · simp [DiskManager.numPages]
    refine tracked.flushesAll reached rfl rfl rfl busy busy rfl (touches.wellFormed tracked.whole.wellFormed) ?_
      (funext (touches.same_onDisk onDisk)) (Engine.numPages_setPool_same found sizes) ?_ ?_
    · funext key
      by_cases same : key = ⟨objectId, pageId⟩
      · rw [same, content]
      · exact touches.content key same
    · rw [Engine.files_flushPage atKey flushed, diskOp, phase]
    · intro key bytes image flushes
      simp only [diskOp, phase, Option.map_eq_some_iff, DiskOp.write.injEq] at flushes
      obtain ⟨found, written, rfl, -, rfl⟩ := flushes
      exact (Engine.flushedImage_content written).symm
  · cases stepped

theorem returns (tracked : Tracked objects data events s) (reached : run (step objects) (start data) events = some s)
    (stepped : step objects s .flushed = some s') : Tracked objects data (events ++ [.flushed]) s' := by
  simp only [step] at stepped
  split at stepped
  · rename_i objectId rest phase
    simp only [Option.bind_eq_bind, Option.bind_eq_some_iff, Option.ite_none_right_eq_some, Option.some.injEq] at stepped
    obtain ⟨pool, found, -, rfl⟩ := stepped
    have atKey : s.engine.pools (PageKey.mk objectId 0).objectId = some pool := found
    refine tracked.flushesAll reached rfl rfl rfl (by simp [phase]) (by simp) rfl ?_ ?_ ?_
      (Engine.numPages_setPool_same found rfl) (Engine.files_setPool_same found rfl) (by simp [diskOp])
    · exact Engine.wellFormed_setPool tracked.whole.wellFormed (tracked.whole.wellFormed objectId pool found)
    · exact Engine.content_setPool_same atKey fun _ => rfl
    · exact Engine.onDisk_setPool_same atKey fun _ => rfl
  · cases stepped

theorem hasPage (tracked : Tracked objects data events s) : ∀ txnId ∈ released (txnEvents events),
    ∀ key ∈ (writesOf (accessesOf txnId (txnEvents events))).map Prod.fst, HasPage s.engine.files key := by
  intro txnId done key written
  rcases tracked.known txnId done key written with before | ⟨other, -, image, updated⟩
  · rw [tracked.files, tracked.split, List.foldl_append]
    exact DiskOp.hasPage_foldl (tracked.present key before)
  · have logged : Updated ([].map LogRecord.entry ++ logEntries (txnEvents (sinceEmptied events))) other key :=
      ⟨image, List.mem_append_right _ updated⟩
    exact tracked.logged.hasPage_of_updated logged

theorem truncates (tracked : Tracked objects data events s)
    (reached : run (step objects) (start data) events = some s) (stepped : step objects s .truncate = some s') :
    Tracked objects data (events ++ [.truncate]) s' := by
  simp only [step] at stepped
  split at stepped
  · rename_i phase
    cases stepped
    obtain ⟨called, nobody⟩ := tracked.busy (by simp [phase])
    have same : txnEvents (events ++ [.truncate]) = txnEvents events := by simp [txnEvents_snoc, Event.txn?]
    have ops : diskOps objects (start data) (events ++ [.truncate]) = diskOps objects (start data) events := by
      simp [diskOps_snoc reached, diskOp]
    have committed : base data (events ++ [.truncate]) = committedStore (fileImage data.file) (txnEvents events) := by
      rw [base, untilEmptied_truncate, same]
    have then_ : filesThen objects data (events ++ [.truncate]) = s.engine.files := by
      rw [filesThen, untilEmptied_truncate, ops, tracked.files]
    have none_since : txnEvents (sinceEmptied (events ++ [.truncate])) = [] := by
      rw [sinceEmptied_truncate]
      rfl
    have onDisk : s.engine.onDisk = committedStore (fileImage data.file) (txnEvents events) :=
      funext fun key => (tracked.whole.quiescent nobody key).2
    refine {
      whole := ?_, part := ?_, logged := ?_, redone := ?_, files := ?_, emptied := ?_, split := ?_, writes := ?_
      known := ?_, present := ?_, idle := fun _ => ?_, busy := fun isBusy => absurd rfl isBusy }
    · rw [same]
      exact tracked.whole.withLog _ s.engine.flusher
    · rw [committed, none_since]
      exact (tracked.whole.restart nobody).withLog _ s.engine.flusher
    · rw [committed, none_since]
      exact tracked.logged.restart nobody onDisk
    · rw [none_since]
      exact Engine.redone_nil _
    · rw [ops]
      exact tracked.files
    · rw [then_, committed, Engine.fileImage_files, onDisk]
    · rw [opsSince, untilEmptied_truncate]
      simp
    · rw [opsSince, untilEmptied_truncate]
      simp
    · rw [same]
      refine fun txnId done key written => .inl ⟨txnId, ?_⟩
      rw [untilEmptied_truncate, same]
      exact ⟨done, written⟩
    · rintro key ⟨txnId, done, written⟩
      rw [untilEmptied_truncate, same] at done written
      rw [then_]
      exact tracked.hasPage txnId done key written
    · rw [untilCall_snoc rfl, untilEmptied_truncate, same]
      exact called
  · cases stepped

theorem fresh (objects : List Nat) (data : DataFiles) : Tracked objects data [] (start data) := by
  have emptyLog : OpenedLog [] (LogManager.open []) := openedLog_cut [] ⟨by simp, by simp, Nat.zero_le _⟩ 0
  have serial := Engine.Serial.start (LogManager.open []) data.file
  have logged := Engine.Logged.start emptyLog data.fits (by simp [Updated])
  rw [Engine.onDisk_start] at serial logged
  exact {
    whole := serial, part := serial, logged := logged.forced, redone := Engine.redone_nil _
    files := Engine.files_start _ _, emptied := rfl, split := rfl, writes := by simp [opsSince, diskOps]
    known := by simp [txnEvents, released], present := by simp [WrittenBefore, txnEvents, untilEmptied, released]
    idle := fun _ => rfl, busy := fun isBusy => absurd rfl isBusy }

theorem reached (reached : run (step objects) (start data) events = some s) : Tracked objects data events s := by
  refine run_induction (Tracked objects data) (fresh objects data) ?_ reached
  intro events s event s' before tracked stepped
  cases event with
  | txn event => exact tracked.txns before stepped
  | call => exact tracked.calls before stepped
  | writePage pageId => exact tracked.writesPage before stepped
  | flushed => exact tracked.returns before stepped
  | truncate => exact tracked.truncates before stepped

end Tracked

/-- A run with checkpoints, and what a power loss at its end leaves: at least the log records that an fsync has covered,
and any part of the operations on the data files, those before the log was last emptied and those since. -/
structure PowerLoss (objects : List Nat) (data : DataFiles) (events : List Event) (s : State) (early late : List DiskOp)
    (n : Nat) : Prop where
  reached : run (step objects) (start data) events = some s
  early : early.Sublist (diskOps objects (start data) (untilEmptied events))
  late : late.Sublist (opsSince objects data events)
  behind : s.engine.log.file.coveredEnd ≤ n

/-- What of the log is left, of the records since it was last emptied. -/
def left (events : List Event) (n : Nat) : List (LogEntry Nat PageKey PageImage) :=
  surviving (txnEvents (sinceEmptied events)) n

/-- The transactions behind the last call of Checkpoint whose Commit record is left, in the order of these records. -/
def later (events : List Event) (n : Nat) : List Nat :=
  (commits (left events n)).filter fun txnId => txnId ∈ commits (logEntries (txnEvents (sinceCall events)))

/-- The next open goes through, and every transaction whose Commit had returned when Checkpoint was last called is there:
its pages are, with what it left on them, unless a later transaction has written them, which then is there as a whole. -/
def LosesNothing (data : DataFiles) (events : List Event) (s : State) (kept : List DiskOp) (n : Nat) : Prop :=
  ∃ recovered,
    runRecovery (LogManager.open (s.engine.log.file.content.take n)).recordsOnOpen
      (kept.foldl DiskOp.apply data.file) = some recovered ∧
    (∀ txnId ∈ released (txnEvents (untilCall events)),
      ∀ key ∈ (writesOf (accessesOf txnId (txnEvents (untilCall events)))).map Prod.fst, HasPage recovered key) ∧
    ∀ key, fileImage recovered key =
      applyWrites (committedStore (fileImage data.file) (txnEvents (untilCall events)))
        ((later events n).flatMap fun txnId => writesOf (accessesOf txnId (txnEvents (sinceCall events)))) key

-- The page had this content when the log was last emptied, or what is left of the log gives it this content.
def Redoable (objects : List Nat) (data : DataFiles) (events : List Event) (n : Nat) (key : PageKey)
    (image : PageImage) : Prop :=
  image = fileImage (filesThen objects data events) key ∨
    ∃ txnId ∈ commits (left events n), .update txnId key image ∈ left events n

structure Spared (objects : List Nat) (data : DataFiles) (events : List Event) (s : State) (early late : List DiskOp)
    (n : Nat) : Prop where
  -- the pages of the moment the log was last emptied
  written : fileImage (early.foldl DiskOp.apply data.file) = fileImage (filesThen objects data events)
  extended : ∀ key, WrittenBefore events key → HasPage (early.foldl DiskOp.apply data.file) key
  -- between two Checkpoints, of the page writes since then only those that change nothing or whose records are left
  logged : s.phase = .idle → ∀ key bytes image, .write key bytes image ∈ late → Redoable objects data events n key image
  -- in the middle of a Checkpoint, the Commit records of those whose Commit has returned
  committed : s.phase ≠ .idle →
    ∀ txnId ∈ released (txnEvents (sinceEmptied events)), txnId ∈ commits (left events n)
  -- every page that a committed Update record names
  reach : ∀ txnId key, txnId ∈ commits (left events n) → Updated (left events n) txnId key →
    HasPage ((early ++ late).foldl DiskOp.apply data.file) key

section Lost

variable {objects : List Nat} {data : DataFiles} {events : List Event} {s : State} {early late : List DiskOp} {n : Nat}

theorem Tracked.recovers (tracked : Tracked objects data events s) (spared : Spared objects data events s early late n) :
    ∃ recovered,
      runRecovery (LogManager.open (s.engine.log.file.content.take n)).recordsOnOpen
        ((early ++ late).foldl DiskOp.apply data.file) = some recovered ∧
      SameSizes ((early ++ late).foldl DiskOp.apply data.file) recovered ∧
      fileImage recovered = redo (fileImage ((early ++ late).foldl DiskOp.apply data.file)) (left events n) := by
  obtain ⟨records, opened, survived⟩ := tracked.logged.reopened (n := n) (Nat.zero_le n)
  simp only [List.nil_append, goodLength, List.map_nil, List.sum_nil, Nat.sub_zero] at opened survived
  have onOpen : (LogManager.open (s.engine.log.file.content.take n)).recordsOnOpen = records := opened.onOpen
  have present : ∀ record ∈ recoveryWrites records,
      HasPage ((early ++ late).foldl DiskOp.apply data.file) record.key := by
    intro record member
    obtain ⟨txnId, committed, updated⟩ := mem_recoveryWrites_iff.mp ⟨record, member, rfl⟩
    rw [survived] at committed updated
    exact spared.reach txnId record.key committed updated
  obtain ⟨recovered, replayed, sameSizes, image⟩ := runRecovery_of_reaching records present
  exact ⟨recovered, by rw [onOpen]; exact replayed, sameSizes, by rw [image, survived]; rfl⟩

theorem Tracked.redo_left (tracked : Tracked objects data events s)
    (written : fileImage (early.foldl DiskOp.apply data.file) = fileImage (filesThen objects data events))
    (logged : ∀ key bytes image, .write key bytes image ∈ late → Redoable objects data events n key image) :
    redo (fileImage ((early ++ late).foldl DiskOp.apply data.file)) (left events n) =
      redo (base data events) (left events n) := by
  refine redo_congr fun key => ?_
  by_cases updated : ∃ txnId ∈ commits (left events n), ∃ image, .update txnId key image ∈ left events n
  · exact .inr updated
  · refine .inl (PageImage.ext_bytes fun i => ?_)
    rw [List.foldl_append, ← tracked.emptied]
    rcases DiskOp.byte_foldl late (early.foldl DiskOp.apply data.file) key i with same | ⟨bytes, image, member, byte⟩
    · rw [same, written]
    · rcases logged key bytes image member with rfl | ⟨txnId, committed, found⟩
      · exact byte
      · exact absurd ⟨txnId, committed, image, found⟩ updated

theorem Tracked.after (tracked : Tracked objects data events s) (spared : Spared objects data events s early late n)
    (idle : s.phase = .idle) : LosesNothing data events s (early ++ late) n := by
  obtain ⟨recovered, ran, sameSizes, image⟩ := tracked.recovers spared
  have called := tracked.idle idle
  have since : txnEvents (sinceCall events) = txnEvents (sinceEmptied events) := by
    have parts := (call_parts events).trans (emptied_parts events).symm
    rw [called] at parts
    exact List.append_cancel_left parts
  have allLater : later events n = commits (left events n) := by
    rw [later, List.filter_eq_self]
    intro txnId committed
    rw [since]
    have isPrefix := Engine.Logged.surviving_isPrefix (txnEvents (sinceEmptied events)) n
    exact decide_eq_true (mem_commits.mpr (isPrefix.subset (mem_commits.mp committed)))
  refine ⟨recovered, ran, fun txnId done key written => sameSizes.hasPage.mpr ?_, fun key => ?_⟩
  · rw [called] at done written
    rw [List.foldl_append]
    exact DiskOp.hasPage_foldl (spared.extended key ⟨txnId, done, written⟩)
  · have serial := tracked.part.withLog s.engine.log.forced none
    rw [image, tracked.redo_left spared.written (spared.logged idle), allLater, since, called]
    exact congrFun (tracked.logged.redo_surviving serial n (base data events)) key

theorem Tracked.during (tracked : Tracked objects data events s) (lateKept : late.Sublist (opsSince objects data events))
    (spared : Spared objects data events s early late n) (busy : s.phase ≠ .idle) :
    LosesNothing data events s (early ++ late) n := by
  obtain ⟨recovered, ran, sameSizes, image⟩ := tracked.recovers spared
  obtain ⟨called, nobody⟩ := tracked.busy busy
  have serial := tracked.part.withLog s.engine.log.forced none
  -- the Commit records are all left
  have sameCommits : commits (left events n) = commits (logEntries (txnEvents (sinceEmptied events))) := by
    obtain ⟨rest, split⟩ := Engine.Logged.surviving_isPrefix (txnEvents (sinceEmptied events)) n
    suffices none_lost : commits rest = [] by
      rw [← split, commits_append, none_lost, List.append_nil]
      rfl
    rw [List.eq_nil_iff_forall_not_mem]
    intro txnId lost
    obtain ⟨before, after, cut⟩ := List.append_of_mem (mem_commits.mp lost)
    have again := tracked.logged.isolated (surviving (txnEvents (sinceEmptied events)) n ++ before) (.commit txnId) after
      (by rw [← split, cut]; simp)
    refine again ?_
    rw [commits_append]
    refine List.mem_append_left _ (spared.committed busy txnId ?_)
    by_contra unreleased
    have releasing : Engine.Releasing (txnEvents (sinceEmptied events)) txnId :=
      ⟨by rw [← split, commits_append]; exact List.mem_append_right _ lost, unreleased⟩
    obtain ⟨txn, active⟩ := tracked.logged.active_of_releasing releasing
    cases (nobody txnId).symm.trans active
  have wholeLog : ∀ store : PageKey → PageImage,
      redo store (left events n) = redo store (logEntries (txnEvents (sinceEmptied events))) := by
    intro store
    rw [tracked.logged.redo_whole tracked.part, ← sameCommits]
    exact tracked.logged.redo_surviving serial n store
  have left_of : ∀ {txnId key image}, txnId ∈ commits (left events n) →
      .update txnId key image ∈ logEntries (txnEvents (sinceEmptied events)) → .update txnId key image ∈ left events n := by
    intro txnId key image committed updated
    obtain ⟨before, after, cut⟩ := List.append_of_mem (mem_commits.mp committed)
    have early : .update txnId key image ∈ before := by
      refine tracked.logged.isolated.update_before_commit (List.IsPrefix.trans ?_
        (Engine.Logged.surviving_isPrefix (txnEvents (sinceEmptied events)) n)) updated
      exact ⟨after, by rw [← left, cut]; simp⟩
    rw [cut]
    exact List.mem_append_left _ early
  have logged : ∀ key bytes image, .write key bytes image ∈ late → Redoable objects data events n key image := by
    intro key bytes image member
    rcases tracked.writes key bytes image (lateKept.subset member) with same | ⟨txnId, committed, updated⟩
    · exact .inl (by rw [same, tracked.emptied])
    · have isLeft := sameCommits ▸ committed
      exact .inr ⟨txnId, isLeft, left_of isLeft updated⟩
  have value : fileImage recovered = committedStore (fileImage data.file) (txnEvents (untilCall events)) := by
    rw [image, tracked.redo_left spared.written logged, wholeLog, tracked.redone.idle tracked.logged nobody, called]
    funext key
    rw [← (tracked.part.quiescent nobody key).2, (tracked.whole.quiescent nobody key).2]
  have none_since : txnEvents (sinceCall events) = [] := by
    have parts := call_parts events
    rwa [called, List.append_right_eq_self] at parts
  have none_later : later events n = [] := by
    rw [later, none_since]
    simp [logEntries, commits]
  refine ⟨recovered, ran, fun txnId done key written => sameSizes.hasPage.mpr ?_, fun key => ?_⟩
  · rw [called] at done written
    rcases tracked.known txnId done key written with before | ⟨other, ended, image, updated⟩
    · rw [List.foldl_append]
      exact DiskOp.hasPage_foldl (spared.extended key before)
    · have committed := spared.committed busy other ended
      exact spared.reach other key committed ⟨image, left_of committed updated⟩
  · rw [value, none_later, List.flatMap_nil, applyWrites_nil]

end Lost

theorem checkpoint_loses_nothing (objects : List Nat) (data : DataFiles) (events : List Event) (s : State)
    (early late : List DiskOp) (n : Nat) (loss : PowerLoss objects data events s early late n)
    (spared : Spared objects data events s early late n) : LosesNothing data events s (early ++ late) n := by
  have tracked := Tracked.reached loss.reached
  by_cases idle : s.phase = .idle
  · exact tracked.after spared idle
  · exact tracked.during loss.late spared idle

def checkpointedEvents : List Event :=
  ([.begin 1, .appendBegin 1, .lock 1 ⟨0, 0⟩ .kExclusive, .write 1 ⟨0, 0⟩ (.ofBytes [1]), .commit 1,
    .appendUpdate 1 ⟨0, 0⟩ (.ofBytes [1]), .appendCommit 1, .flushBegin 1, .fsync 1 4195, .flushEnd 1, .flushReturn 1,
    .flushPage 1 ⟨0, 0⟩, .commitRelease 1] : List FlintDB.Event).map .txn ++ [.call, .flushed, .truncate]

set_option maxRecDepth 100000 in
-- the kernel had put the page write on the disk by itself
theorem checkpoint_loses_nothing_written : ∃ s,
    PowerLoss [0] Directory.oneZeroPage checkpointedEvents s
      (diskOps [0] (start Directory.oneZeroPage) checkpointedEvents) [] 0 ∧
    LosesNothing Directory.oneZeroPage checkpointedEvents s
      (diskOps [0] (start Directory.oneZeroPage) checkpointedEvents ++ []) 0 := by
  have ran : ((run (step [0]) (start Directory.oneZeroPage) checkpointedEvents).map fun s =>
      decide (s.engine.log.file.coveredEnd ≤ 0) && decide (s.phase = .idle)) = some true := by decide +kernel
  have until_end : untilEmptied checkpointedEvents = checkpointedEvents := by decide +kernel
  obtain ⟨s, reached, known⟩ := Option.map_eq_some_iff.mp ran
  obtain ⟨behind, idle⟩ := Bool.and_eq_true_iff.mp known
  have loss : PowerLoss [0] Directory.oneZeroPage checkpointedEvents s
      (diskOps [0] (start Directory.oneZeroPage) checkpointedEvents) [] 0 :=
    ⟨reached, by rw [until_end], List.nil_sublist _, of_decide_eq_true behind⟩
  have emptied : left checkpointedEvents 0 = [] := by
    have none_since : sinceEmptied checkpointedEvents = [] := by decide +kernel
    rw [left, none_since]
    rfl
  have spared : Spared [0] Directory.oneZeroPage checkpointedEvents s
      (diskOps [0] (start Directory.oneZeroPage) checkpointedEvents) [] 0 := by
    have files : (diskOps [0] (start Directory.oneZeroPage) checkpointedEvents).foldl DiskOp.apply
        Directory.oneZeroPage.file = filesThen [0] Directory.oneZeroPage checkpointedEvents := by
      rw [filesThen, until_end]
    refine ⟨by rw [files], fun key before => ?_, by simp, fun busy => absurd (of_decide_eq_true idle) busy, ?_⟩
    · rw [files]
      exact (Tracked.reached reached).present key before
    · intro txnId key committed
      rw [emptied] at committed
      cases committed
  exact ⟨s, loss, checkpoint_loses_nothing _ _ _ _ _ _ _ loss spared⟩

set_option maxRecDepth 100000 in
/-- The page write is lost and no record is left to redo it. -/
theorem checkpoint_loses_page_write : ¬ ∀ objects data events s early late n,
    PowerLoss objects data events s early late n → LosesNothing data events s (early ++ late) n := by
  intro always
  have ran : ((run (step [0]) (start Directory.oneZeroPage) checkpointedEvents).map fun s =>
      decide (s.engine.log.file.coveredEnd ≤ 0)) = some true := by decide +kernel
  have then_ : (committedStore (fileImage Directory.oneZeroPage.file) (txnEvents (untilCall checkpointedEvents))
      ⟨0, 0⟩).bytes[0]? = some 1 := by decide +kernel
  have none_since : txnEvents (sinceCall checkpointedEvents) = [] := by decide +kernel
  obtain ⟨s, reached, behind⟩ := Option.map_eq_some_iff.mp ran
  obtain ⟨recovered, replayed, -, bytes⟩ := always [0] Directory.oneZeroPage checkpointedEvents s [] [] 0
    ⟨reached, List.nil_sublist _, List.nil_sublist _, of_decide_eq_true behind⟩
  have nothing : (LogManager.open (s.engine.log.file.content.take 0)).recordsOnOpen = [] := by
    rw [List.take_zero]
    rfl
  rw [nothing] at replayed
  have untouched : recovered = Directory.oneZeroPage.file := (Option.some.inj replayed).symm
  have zero : (fileImage Directory.oneZeroPage.file ⟨0, 0⟩).bytes[0]? = some 0 := by decide +kernel
  have none_later : later checkpointedEvents 0 = [] := by
    rw [later, none_since]
    simp [logEntries, commits]
  have same := bytes ⟨0, 0⟩
  rw [untouched, none_later, List.flatMap_nil, applyWrites_nil] at same
  rw [← same, zero] at then_
  cases then_

end Checkpoint

end FlintDB
