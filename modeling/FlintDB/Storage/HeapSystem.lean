import FlintDB.Storage.HeapPrograms

set_option autoImplicit false

-- What each thread knows at each place of its call, in any interleaving. Scans of the transactions in `quiet` are
-- those during which page_ids_ does not grow.

namespace FlintDB

open Lib

namespace HeapStore

variable (objectId : Nat) (quiet : Nat → Prop) (locks : LockManager) (store : HeapStore) (txnId : Nat)

-- A page that is allocated and not yet in page_ids_: nobody else has heard of it.
structure Fresh (pid : Nat) : Prop where
  unlisted : pid ∉ store.file.pageIds
  allocated : pid < store.file.allocated
  dirty : pid ∈ store.dirtied txnId
  alone : ∀ other, pid ∈ store.dirtied other → other = txnId
  unheld : ∀ other, locks.Holds other ⟨objectId, pid⟩ → other = txnId
  blank : store.file.pages pid = .initHeapPage

structure Scanned (done rest : List Nat) (out : List (RID × Bytes)) : Prop where
  listed : done ++ rest <+: store.file.pageIds
  whole : quiet txnId → done ++ rest = store.file.pageIds
  held : ∀ page ∈ done, locks.Holds txnId ⟨objectId, page⟩
  out_eq : out = done.flatMap store.file.rowsOn

def Entitled : Prop :=
  store.foundEmpty txnId = true ∨ ∃ last ∈ store.file.pageIds, locks.HoldsExclusive txnId ⟨objectId, last⟩

-- Where a thread can be inside a call, and what is true there.
inductive At : HeapCall → HeapProgram HeapResult → Prop
  | begins (call : HeapCall) : At call (call.program objectId txnId)
  | throws (call : HeapCall) (error : HeapError) : At call (.throw error)
  | insertLock {row : Bytes} {last : Nat} (listed : last ∈ store.file.pageIds) :
      At (.insert row) (.lock ⟨objectId, last⟩ .kExclusive (HeapProgram.insertInto objectId txnId last row))
  | insertInto {row : Bytes} {last : Nat} (listed : last ∈ store.file.pageIds)
      (held : locks.HoldsExclusive txnId ⟨objectId, last⟩) :
      At (.insert row) (HeapProgram.insertInto objectId txnId last row)
  | newPage {row : Bytes} (entitled : store.Entitled objectId locks txnId) :
      At (.insert row) (HeapProgram.insertOnNewPage objectId txnId row)
  | lockNew {row : Bytes} {pid : Nat} (entitled : store.Entitled objectId locks txnId)
      (fresh : store.Fresh objectId locks txnId pid) :
      At (.insert row) (.lock ⟨objectId, pid⟩ .kExclusive (HeapProgram.pushAndInsert txnId pid row))
  | push {row : Bytes} {pid : Nat} (entitled : store.Entitled objectId locks txnId)
      (fresh : store.Fresh objectId locks txnId pid) (held : locks.HoldsExclusive txnId ⟨objectId, pid⟩) :
      At (.insert row) (HeapProgram.pushAndInsert txnId pid row)
  | insertFirst {row : Bytes} {pid : Nat} (listed : pid ∈ store.file.pageIds)
      (held : locks.HoldsExclusive txnId ⟨objectId, pid⟩) :
      At (.insert row) (HeapProgram.insertFirst txnId pid row)
  | inserted {row : Bytes} {rid : RID} (listed : rid.pageId ∈ store.file.pageIds)
      (held : locks.HoldsExclusive txnId ⟨objectId, rid.pageId⟩) :
      At (.insert row) (.done (.inserted rid))
  | deleteLock {rid : RID} (listed : rid.pageId ∈ store.file.pageIds) :
      At (.delete rid) (.lock ⟨objectId, rid.pageId⟩ .kExclusive (HeapProgram.deleteFrom txnId rid))
  | deleteFrom {rid : RID} (listed : rid.pageId ∈ store.file.pageIds)
      (held : locks.HoldsExclusive txnId ⟨objectId, rid.pageId⟩) :
      At (.delete rid) (HeapProgram.deleteFrom txnId rid)
  | deleted {rid : RID} (found : Bool) : At (.delete rid) (.done (.deleted found))
  | scanPages {done rest : List Nat} {out : List (RID × Bytes)}
      (scanned : store.Scanned objectId quiet locks txnId done rest out) :
      At .scan (HeapProgram.scanPages objectId rest out)
  | scanRead {done rest : List Nat} {pid : Nat} {out : List (RID × Bytes)}
      (scanned : store.Scanned objectId quiet locks txnId done (pid :: rest) out)
      (held : locks.Holds txnId ⟨objectId, pid⟩) :
      At .scan (Program.whole get >>= fun store =>
        HeapProgram.scanPages objectId rest (out ++ store.file.rowsOn pid))
  | locked {key : PageKey} {mode : LockMode} : At (.elsewhere key mode) (.done .locked)

structure Keeps (call : HeapCall) (locks' : LockManager) (store' : HeapStore) : Prop where
  listed : store.file.pageIds <+: store'.file.pageIds
  same : call = .scan → quiet txnId → store'.file.pageIds = store.file.pageIds
  exclusive : ∀ page, locks.HoldsExclusive txnId ⟨objectId, page⟩ → locks'.HoldsExclusive txnId ⟨objectId, page⟩
  holds : ∀ page, locks.Holds txnId ⟨objectId, page⟩ → locks'.Holds txnId ⟨objectId, page⟩
  pages : ∀ page ∈ store.file.pageIds, locks.Holds txnId ⟨objectId, page⟩ →
    store'.file.pages page = store.file.pages page
  empty : store.foundEmpty txnId = true → store'.foundEmpty txnId = true
  fresh : ∀ pid, store.Fresh objectId locks txnId pid → store'.Fresh objectId locks' txnId pid

variable {objectId quiet locks store txnId} {call : HeapCall} {locks' : LockManager} {store' : HeapStore}

theorem Scanned.keep {done rest : List Nat} {out : List (RID × Bytes)}
    (scanned : store.Scanned objectId quiet locks txnId done rest out)
    (keeps : store.Keeps objectId quiet locks txnId .scan locks' store') :
    store'.Scanned objectId quiet locks' txnId done rest out where
  listed := scanned.listed.trans keeps.listed
  whole isQuiet := by rw [keeps.same rfl isQuiet, scanned.whole isQuiet]
  held page member := keeps.holds page (scanned.held page member)
  out_eq := by
    rw [scanned.out_eq]
    refine List.flatMap_congr fun page member => ?_
    have listed := scanned.listed.subset (List.mem_append_left rest member)
    rw [HeapFile.rowsOn, HeapFile.rowsOn, keeps.pages page listed (scanned.held page member)]

theorem Entitled.keep (entitled : store.Entitled objectId locks txnId)
    (keeps : store.Keeps objectId quiet locks txnId call locks' store') :
    store'.Entitled objectId locks' txnId := by
  rcases entitled with empty | ⟨last, listed, held⟩
  · exact .inl (keeps.empty empty)
  · exact .inr ⟨last, keeps.listed.subset listed, keeps.exclusive last held⟩

theorem At.keep {rest : HeapProgram HeapResult} (here : store.At objectId quiet locks txnId call rest)
    (keeps : store.Keeps objectId quiet locks txnId call locks' store') :
    store'.At objectId quiet locks' txnId call rest := by
  cases here with
  | begins call => exact .begins call
  | throws call error => exact .throws call error
  | insertLock listed => exact .insertLock (keeps.listed.subset listed)
  | insertInto listed held => exact .insertInto (keeps.listed.subset listed) (keeps.exclusive _ held)
  | newPage entitled => exact .newPage (entitled.keep keeps)
  | lockNew entitled fresh => exact .lockNew (entitled.keep keeps) (keeps.fresh _ fresh)
  | push entitled fresh held => exact .push (entitled.keep keeps) (keeps.fresh _ fresh) (keeps.exclusive _ held)
  | insertFirst listed held => exact .insertFirst (keeps.listed.subset listed) (keeps.exclusive _ held)
  | inserted listed held => exact .inserted (keeps.listed.subset listed) (keeps.exclusive _ held)
  | deleteLock listed => exact .deleteLock (keeps.listed.subset listed)
  | deleteFrom listed held => exact .deleteFrom (keeps.listed.subset listed) (keeps.exclusive _ held)
  | deleted found => exact .deleted found
  | scanPages scanned => exact .scanPages (scanned.keep keeps)
  | scanRead scanned held => exact .scanRead (scanned.keep keeps) (keeps.holds _ held)
  | locked => exact .locked

section Action

variable (objectId quiet locks store txnId)

inductive Action : HeapCall → HeapStore → HeapProgram HeapResult → Prop
  | looks {call : HeapCall} {rest : HeapProgram HeapResult} (next : store.At objectId quiet locks txnId call rest) :
      Action call store rest
  | lastPage {row : Bytes} {last : Nat} (isLast : store.file.pageIds.getLast? = some last) :
      Action (.insert row) { store with foundEmpty := Function.update store.foundEmpty txnId false }
        (.lock ⟨objectId, last⟩ .kExclusive (HeapProgram.insertInto objectId txnId last row))
  | noPage {row : Bytes} (isEmpty : store.file.pageIds = []) :
      Action (.insert row) { store with foundEmpty := Function.update store.foundEmpty txnId true }
        (HeapProgram.insertOnNewPage objectId txnId row)
  | insertRecord {row : Bytes} {pageId slotId : Nat} {page : Page} (listed : pageId ∈ store.file.pageIds)
      (held : locks.HoldsExclusive txnId ⟨objectId, pageId⟩)
      (inserted : (store.file.pages pageId).insertRecord row = some (slotId, page)) :
      Action (.insert row)
        (((store.writePage pageId page).markDirty txnId pageId).note (.inserted txnId ⟨pageId, slotId⟩ row))
        (.done (.inserted ⟨pageId, slotId⟩))
  | newHeapPage {row : Bytes} (entitled : store.Entitled objectId locks txnId) :
      Action (.insert row) ({ store with file := store.file.newHeapPage.2 }.markDirty txnId store.file.newHeapPage.1)
        (.lock ⟨objectId, store.file.newHeapPage.1⟩ .kExclusive
          (HeapProgram.pushAndInsert txnId store.file.newHeapPage.1 row))
  | pushPage {row : Bytes} {pid : Nat} (entitled : store.Entitled objectId locks txnId)
      (fresh : store.Fresh objectId locks txnId pid) (held : locks.HoldsExclusive txnId ⟨objectId, pid⟩) :
      Action (.insert row)
        { store with file := { store.file with pageIds := store.file.pageIds ++ [pid] }
                     foundEmpty := Function.update store.foundEmpty txnId false }
        (HeapProgram.insertFirst txnId pid row)
  | deleteRecord {rid : RID} {row : Bytes} (listed : rid.pageId ∈ store.file.pageIds)
      (held : locks.HoldsExclusive txnId ⟨objectId, rid.pageId⟩)
      (live : (store.file.pages rid.pageId).liveRecord rid.slotId = some row) :
      Action (.delete rid)
        (((store.writePage rid.pageId ((store.file.pages rid.pageId).deleteRecord rid.slotId)).markDirty txnId
          rid.pageId).note (.deleted txnId rid))
        (.done (.deleted true))

end Action

theorem insertRecord_exec (pageId : Nat) (row : Bytes) :
    (insertRecord txnId pageId row).exec store =
      match (store.file.pages pageId).insertRecord row with
      | none => (.ok none, store)
      | some (slotId, page) => (.ok (some ⟨pageId, slotId⟩),
          ((store.writePage pageId page).markDirty txnId pageId).note (.inserted txnId ⟨pageId, slotId⟩ row)) := by
  rw [insertRecord, Fallible.exec_bind_ok (Fallible.exec_get store)]
  rcases (store.file.pages pageId).insertRecord row with _ | ⟨slotId, page⟩ <;> rfl

theorem deleteRecord_exec (rid : RID) :
    (deleteRecord txnId rid).exec store =
      match (store.file.pages rid.pageId).liveRecord rid.slotId with
      | none => (.ok false, store)
      | some _ => (.ok true,
          ((store.writePage rid.pageId ((store.file.pages rid.pageId).deleteRecord rid.slotId)).markDirty txnId
            rid.pageId).note (.deleted txnId rid)) := by
  rw [deleteRecord, Fallible.exec_bind_ok (Fallible.exec_get store)]
  cases (store.file.pages rid.pageId).liveRecord rid.slotId <;> rfl

theorem At.acted {rest : HeapProgram HeapResult} (here : store.At objectId quiet locks txnId call rest)
    {update : HeapStore → HeapStore} {next : HeapStore → HeapProgram HeapResult}
    (isAtomic : rest = .atomic update next) :
    store.Action objectId quiet locks txnId call (update store) (next store) := by
  cases here with
  | begins call =>
    cases call with
    | insert row =>
      simp only [HeapCall.program, HeapProgram.insert] at isAtomic
      split at isAtomic
      · cases isAtomic
      · obtain ⟨store_eq, next_eq⟩ := Program.whole_bind_eq_atomic isAtomic store
        rw [store_eq, next_eq]
        have look : (lastPage txnId).exec store = (.ok store.file.pageIds.getLast?,
            { store with foundEmpty :=
                Function.update store.foundEmpty txnId store.file.pageIds.getLast?.isNone }) := rfl
        rw [look]
        cases isLast : store.file.pageIds.getLast? with
        | none => exact .noPage (List.getLast?_eq_none_iff.mp isLast)
        | some last => exact .lastPage isLast
    | delete rid =>
      obtain ⟨store_eq, next_eq⟩ := Program.whole_bind_eq_atomic isAtomic store
      rw [store_eq, next_eq]
      have look : (ownsPage rid.pageId).exec store = (.ok (decide (rid.pageId ∈ store.file.pageIds)), store) := rfl
      rw [look]
      by_cases listed : rid.pageId ∈ store.file.pageIds
      · simp only [listed, decide_true, if_true]
        exact .looks (.deleteLock listed)
      · simp only [listed, decide_false, Bool.false_eq_true, if_false]
        exact .looks (.deleted false)
    | scan =>
      obtain ⟨store_eq, next_eq⟩ := Program.whole_bind_eq_atomic isAtomic store
      rw [store_eq, next_eq]
      exact .looks (.scanPages ⟨List.prefix_refl _, fun _ => rfl, fun _ member => absurd member List.not_mem_nil, rfl⟩)
    | elsewhere key mode =>
      simp only [HeapCall.program, HeapProgram.elsewhere] at isAtomic
      split at isAtomic
      · cases isAtomic
      · cases isAtomic
  | @insertInto row last listed held =>
    obtain ⟨store_eq, next_eq⟩ := Program.whole_bind_eq_atomic isAtomic store
    rw [store_eq, next_eq, insertRecord_exec]
    rcases inserted : (store.file.pages last).insertRecord row with _ | ⟨slotId, page⟩
    · exact .looks (.newPage (.inr ⟨last, listed, held⟩))
    · exact .insertRecord listed held inserted
  | newPage entitled =>
    obtain ⟨store_eq, next_eq⟩ := Program.whole_bind_eq_atomic isAtomic store
    rw [store_eq, next_eq]
    exact .newHeapPage entitled
  | push entitled fresh held =>
    obtain ⟨store_eq, next_eq⟩ := Program.whole_bind_eq_atomic isAtomic store
    rw [store_eq, next_eq]
    exact .pushPage entitled fresh held
  | @insertFirst row pid listed held =>
    obtain ⟨store_eq, next_eq⟩ := Program.whole_bind_eq_atomic isAtomic store
    rw [store_eq, next_eq, insertRecord_exec]
    rcases inserted : (store.file.pages pid).insertRecord row with _ | ⟨slotId, page⟩
    · exact .looks (.throws _ _)
    · exact .insertRecord listed held inserted
  | @deleteFrom rid listed held =>
    obtain ⟨store_eq, next_eq⟩ := Program.whole_bind_eq_atomic isAtomic store
    rw [store_eq, next_eq, deleteRecord_exec]
    cases live : (store.file.pages rid.pageId).liveRecord rid.slotId with
    | none => exact .looks (.deleted false)
    | some row => exact .deleteRecord listed held live
  | @scanPages done rest out scanned =>
    cases rest with
    | nil => cases isAtomic
    | cons pid rest => cases isAtomic
  | @scanRead done rest pid out scanned held =>
    obtain ⟨store_eq, next_eq⟩ := Program.whole_bind_eq_atomic isAtomic store
    rw [store_eq, next_eq]
    have order : (done ++ [pid]) ++ rest = done ++ pid :: rest := by simp
    suffices further : store.Scanned objectId quiet locks txnId (done ++ [pid]) rest
        (out ++ store.file.rowsOn pid) from .looks (.scanPages further)
    refine ⟨?_, fun isQuiet => ?_, ?_, ?_⟩
    · rw [order]
      exact scanned.listed
    · rw [order]
      exact scanned.whole isQuiet
    · intro page member
      rcases List.mem_append.mp member with earlier | this
      · exact scanned.held page earlier
      · rw [List.mem_singleton.mp this]
        exact held
    · rw [List.flatMap_append, ← scanned.out_eq]
      simp
  | _ => cases isAtomic

-- What is true of the file whoever is doing what.
structure Orderly (objectId : Nat) (locks : LockManager) (store : HeapStore) : Prop where
  consistent : locks.Consistent
  listed_lt : ∀ page ∈ store.file.pageIds, page < store.file.allocated
  locked_lt : ∀ txnId page, locks.Holds txnId ⟨objectId, page⟩ → page < store.file.allocated
  dirty_lt : ∀ txnId, ∀ page ∈ store.dirtied txnId, page < store.file.allocated

theorem newHeapPage_fst (room : store.file.allocated < 2 ^ 32) :
    store.file.newHeapPage.1 = store.file.allocated := BPlusTree.wrapPageId_of_lt room

theorem newHeapPage_pages (room : store.file.allocated < 2 ^ 32) (page : Nat) :
    store.file.newHeapPage.2.pages page =
      if page = store.file.allocated then .initHeapPage else store.file.pages page := by
  simp [HeapFile.newHeapPage, HeapFile.writePage, BPlusTree.wrapPageId_of_lt room, Function.update_apply]

@[simp] theorem newHeapPage_pageIds : store.file.newHeapPage.2.pageIds = store.file.pageIds := rfl

@[simp] theorem newHeapPage_allocated : store.file.newHeapPage.2.allocated = store.file.allocated + 1 := rfl

theorem mem_markDirty {page other dirtied : Nat} :
    page ∈ (store.markDirty txnId dirtied).dirtied other ↔
      page ∈ store.dirtied other ∨ (other = txnId ∧ page = dirtied) := by
  by_cases same : other = txnId
  · subst same
    simp [markDirty, or_comm]
  · simp [markDirty, same]

theorem Action.orderly {rest : HeapProgram HeapResult}
    (action : store.Action objectId quiet locks txnId call store' rest) (orderly : store.Orderly objectId locks)
    (room : store.file.allocated < 2 ^ 32) : store'.Orderly objectId locks := by
  obtain ⟨consistent, listed_lt, locked_lt, dirty_lt⟩ := orderly
  cases action with
  | looks next => exact ⟨consistent, listed_lt, locked_lt, dirty_lt⟩
  | lastPage isLast => exact ⟨consistent, listed_lt, locked_lt, dirty_lt⟩
  | noPage isEmpty => exact ⟨consistent, listed_lt, locked_lt, dirty_lt⟩
  | insertRecord listed held inserted =>
    refine ⟨consistent, listed_lt, locked_lt, fun other page dirty => ?_⟩
    rcases mem_markDirty.mp dirty with before | ⟨-, rfl⟩
    · exact dirty_lt other page before
    · exact listed_lt _ listed
  | newHeapPage entitled =>
    refine ⟨consistent, fun page listed => Nat.lt_succ_of_lt (listed_lt page listed),
      fun other page held => Nat.lt_succ_of_lt (locked_lt other page held), fun other page dirty => ?_⟩
    rcases mem_markDirty.mp dirty with before | ⟨-, rfl⟩
    · exact Nat.lt_succ_of_lt (dirty_lt other page before)
    · rw [newHeapPage_fst room]
      exact Nat.lt_succ_self _
  | pushPage entitled fresh held =>
    refine ⟨consistent, fun page listed => ?_, locked_lt, dirty_lt⟩
    rcases List.mem_append.mp listed with before | this
    · exact listed_lt page before
    · rw [List.mem_singleton.mp this]
      exact fresh.allocated
  | deleteRecord listed held live =>
    refine ⟨consistent, listed_lt, locked_lt, fun other page dirty => ?_⟩
    rcases mem_markDirty.mp dirty with before | ⟨-, rfl⟩
    · exact dirty_lt other page before
    · exact listed_lt _ listed

theorem Action.dirtied_others {rest : HeapProgram HeapResult}
    (action : store.Action objectId quiet locks txnId call store' rest) {other : Nat} (different : other ≠ txnId) :
    store'.dirtied other = store.dirtied other := by
  cases action with
  | insertRecord listed held inserted => exact Function.update_of_ne different _ _
  | newHeapPage entitled => exact Function.update_of_ne different _ _
  | deleteRecord listed held live => exact Function.update_of_ne different _ _
  | _ => rfl

theorem newPage_fresh (orderly : store.Orderly objectId locks) (room : store.file.allocated < 2 ^ 32) :
    ({ store with file := store.file.newHeapPage.2 }.markDirty txnId store.file.newHeapPage.1).Fresh objectId locks
      txnId store.file.newHeapPage.1 := by
  rw [newHeapPage_fst room]
  refine ⟨fun listed => ?_, Nat.lt_succ_self _, mem_markDirty.mpr (.inr ⟨rfl, rfl⟩), fun other dirty => ?_,
    fun other held => ?_, (newHeapPage_pages room _).trans (if_pos rfl)⟩
  · exact Nat.lt_irrefl _ (orderly.listed_lt _ listed)
  · rcases mem_markDirty.mp dirty with before | ⟨same, -⟩
    · exact absurd (orderly.dirty_lt other _ before) (Nat.lt_irrefl _)
    · exact same
  · exact absurd (orderly.locked_lt other _ held) (Nat.lt_irrefl _)

theorem Action.dirty_cases {rest : HeapProgram HeapResult}
    (action : store.Action objectId quiet locks txnId call store' rest) (orderly : store.Orderly objectId locks)
    (room : store.file.allocated < 2 ^ 32) {page : Nat} (dirty : page ∈ store'.dirtied txnId) :
    page ∈ store.dirtied txnId ∨ locks.HoldsExclusive txnId ⟨objectId, page⟩ ∨
      (∃ next, rest = .lock ⟨objectId, page⟩ .kExclusive next) ∧ store'.Fresh objectId locks txnId page := by
  cases action with
  | insertRecord listed held inserted =>
    rcases mem_markDirty.mp dirty with before | ⟨-, rfl⟩
    · exact .inl before
    · exact .inr (.inl held)
  | newHeapPage entitled =>
    rcases mem_markDirty.mp dirty with before | ⟨-, rfl⟩
    · exact .inl before
    · exact .inr (.inr ⟨⟨_, rfl⟩, newPage_fresh orderly room⟩)
  | deleteRecord listed held live =>
    rcases mem_markDirty.mp dirty with before | ⟨-, rfl⟩
    · exact .inl before
    · exact .inr (.inl held)
  | _ => exact .inl dirty

theorem Action.at_next {rest : HeapProgram HeapResult}
    (action : store.Action objectId quiet locks txnId call store' rest) (orderly : store.Orderly objectId locks)
    (room : store.file.allocated < 2 ^ 32) : store'.At objectId quiet locks txnId call rest := by
  cases action with
  | looks next => exact next
  | lastPage isLast => exact .insertLock (List.mem_of_getLast? isLast)
  | noPage isEmpty => exact .newPage (.inl (by simp))
  | insertRecord listed held inserted => exact .inserted listed held
  | newHeapPage entitled => exact .lockNew entitled (newPage_fresh orderly room)
  | pushPage entitled fresh held => exact .insertFirst (List.mem_append_right _ List.mem_cons_self) held
  | deleteRecord listed held live => exact .deleted true

theorem keeps_of_write {other pageId : Nat} {call' : HeapCall} {page : Page} {entry : HeapNote}
    (orderly : store.Orderly objectId locks) (different : other ≠ txnId) (listed : pageId ∈ store.file.pageIds)
    (held : locks.HoldsExclusive txnId ⟨objectId, pageId⟩) :
    store.Keeps objectId quiet locks other call' locks
      (((store.writePage pageId page).markDirty txnId pageId).note entry) where
  listed := List.prefix_refl _
  same _ _ := rfl
  exclusive _ := id
  holds _ := id
  pages page' _ mine := by
    have elsewhere : page' ≠ pageId := by
      rintro rfl
      exact different (LockManager.exclusive_unique orderly.consistent held mine)
    simp [note, markDirty, writePage, HeapFile.writePage, elsewhere]
  empty := id
  fresh pid fresh := by
    have elsewhere : pid ≠ pageId := by
      rintro rfl
      exact fresh.unlisted listed
    refine ⟨fresh.unlisted, fresh.allocated, mem_markDirty.mpr (.inl fresh.dirty), fun third dirty => ?_,
      fresh.unheld, (Function.update_of_ne elsewhere _ _).trans fresh.blank⟩
    rcases mem_markDirty.mp dirty with before | ⟨-, rfl⟩
    · exact fresh.alone third before
    · exact absurd rfl elsewhere

theorem Action.keeps {rest : HeapProgram HeapResult} {other : Nat} {call' : HeapCall}
    (action : store.Action objectId quiet locks txnId call store' rest) (orderly : store.Orderly objectId locks)
    (room : store.file.allocated < 2 ^ 32) (different : other ≠ txnId)
    (still : call' = .scan → quiet other → store'.file.pageIds = store.file.pageIds) :
    store.Keeps objectId quiet locks other call' locks store' := by
  cases action with
  | looks next =>
    exact ⟨List.prefix_refl _, still, fun _ => id, fun _ => id, fun _ _ _ => rfl, id, fun _ => id⟩
  | lastPage isLast =>
    refine ⟨List.prefix_refl _, still, fun _ => id, fun _ => id, fun _ _ _ => rfl, fun empty => ?_,
      fun _ fresh => ⟨fresh.unlisted, fresh.allocated, fresh.dirty, fresh.alone, fresh.unheld, fresh.blank⟩⟩
    simpa [different] using empty
  | noPage isEmpty =>
    refine ⟨List.prefix_refl _, still, fun _ => id, fun _ => id, fun _ _ _ => rfl, fun empty => ?_,
      fun _ fresh => ⟨fresh.unlisted, fresh.allocated, fresh.dirty, fresh.alone, fresh.unheld, fresh.blank⟩⟩
    simpa [different] using empty
  | insertRecord listed held inserted => exact keeps_of_write orderly different listed held
  | newHeapPage entitled =>
    refine ⟨List.prefix_refl _, still, fun _ => id, fun _ => id, fun page listed _ => ?_, id, fun pid fresh => ?_⟩
    · exact (newHeapPage_pages room page).trans (if_neg (Nat.ne_of_lt (orderly.listed_lt page listed)))
    · refine ⟨fresh.unlisted, Nat.lt_succ_of_lt fresh.allocated, mem_markDirty.mpr (.inl fresh.dirty),
        fun third dirty => ?_, fresh.unheld,
        (newHeapPage_pages room pid).trans ((if_neg (Nat.ne_of_lt fresh.allocated)).trans fresh.blank)⟩
      rcases mem_markDirty.mp dirty with before | ⟨-, isNew⟩
      · exact fresh.alone third before
      · rw [newHeapPage_fst room] at isNew
        exact absurd fresh.allocated (by simp [isNew])
  | @pushPage row pid entitled pushed held =>
    refine ⟨List.prefix_append _ _, still, fun _ => id, fun _ => id, fun _ _ _ => rfl, fun empty => ?_,
      fun page fresh => ?_⟩
    · simpa [different] using empty
    · refine ⟨fun listed => ?_, fresh.allocated, fresh.dirty, fresh.alone, fresh.unheld, fresh.blank⟩
      rcases List.mem_append.mp listed with before | this
      · exact fresh.unlisted before
      · rw [List.mem_singleton.mp this] at fresh
        exact different (fresh.unheld txnId (.inl held)).symm
  | deleteRecord listed held live => exact keeps_of_write orderly different listed held

theorem At.request {rest : HeapProgram HeapResult} (here : store.At objectId quiet locks txnId call rest)
    {key : PageKey} {mode : LockMode} {next : HeapProgram HeapResult} (isLock : rest = .lock key mode next) :
    key.objectId ≠ objectId ∨ ∃ page, key = ⟨objectId, page⟩ ∧
      (page ∈ store.file.pageIds ∨ store.Fresh objectId locks txnId page) := by
  cases here with
  | begins call =>
    cases call with
    | insert row =>
      simp only [HeapCall.program, HeapProgram.insert] at isLock
      split at isLock <;> cases isLock
    | delete rid => cases isLock
    | scan => cases isLock
    | elsewhere key' mode' =>
      simp only [HeapCall.program, HeapProgram.elsewhere] at isLock
      split at isLock
      · cases isLock
      · rename_i different
        cases isLock
        exact .inl different
  | insertLock listed =>
    cases isLock
    exact .inr ⟨_, rfl, .inl listed⟩
  | lockNew entitled fresh =>
    cases isLock
    exact .inr ⟨_, rfl, .inr fresh⟩
  | deleteLock listed =>
    cases isLock
    exact .inr ⟨_, rfl, .inl listed⟩
  | @scanPages done rest out scanned =>
    cases rest with
    | nil => cases isLock
    | cons pid rest =>
      cases isLock
      exact .inr ⟨pid, rfl, .inl (scanned.listed.subset (by simp))⟩
  | _ => cases isLock

theorem keeps_of_granted {key : PageKey} {mode : LockMode} {other : Nat} {call' : HeapCall}
    (granted : locks.Granted locks' txnId key mode) (different : other ≠ txnId)
    (reach : key.objectId ≠ objectId ∨ ∃ page, key = ⟨objectId, page⟩ ∧
      (page ∈ store.file.pageIds ∨ store.Fresh objectId locks txnId page)) :
    store.Keeps objectId quiet locks other call' locks' store where
  listed := List.prefix_refl _
  same _ _ := rfl
  exclusive page held := (granted.exclusive_iff _ _).mpr (.inl held)
  holds page held := (granted.holds_iff _ _).mpr (.inl held)
  pages _ _ _ := rfl
  empty := id
  fresh pid fresh := by
    refine ⟨fresh.unlisted, fresh.allocated, fresh.dirty, fresh.alone, fun third held => ?_, fresh.blank⟩
    rcases (granted.holds_iff _ _).mp held with before | ⟨rfl, isKey⟩
    · exact fresh.unheld third before
    · rcases reach with elsewhere | ⟨page, rfl, listed | own⟩
      · exact absurd (by rw [← isKey]) elsewhere
      · cases isKey
        exact absurd listed fresh.unlisted
      · cases isKey
        exact fresh.alone _ own.dirty

theorem Granted.scanned {key : PageKey} {mode : LockMode} {done rest : List Nat} {out : List (RID × Bytes)}
    (granted : locks.Granted locks' txnId key mode)
    (scanned : store.Scanned objectId quiet locks txnId done rest out) :
    store.Scanned objectId quiet locks' txnId done rest out :=
  ⟨scanned.listed, scanned.whole, fun page member => (granted.holds_iff _ _).mpr (.inl (scanned.held page member)),
    scanned.out_eq⟩

theorem At.granted {rest : HeapProgram HeapResult} (here : store.At objectId quiet locks txnId call rest)
    {key : PageKey} {mode : LockMode} {next : HeapProgram HeapResult} (isLock : rest = .lock key mode next)
    (granted : locks.Granted locks' txnId key mode) : store.At objectId quiet locks' txnId call next := by
  have nowExclusive : mode = .kExclusive → locks'.HoldsExclusive txnId key := fun exclusive =>
    (granted.exclusive_iff _ _).mpr (.inr ⟨rfl, rfl, exclusive⟩)
  have nowHeld : locks'.Holds txnId key := (granted.holds_iff _ _).mpr (.inr ⟨rfl, rfl⟩)
  cases here with
  | begins call =>
    cases call with
    | insert row =>
      simp only [HeapCall.program, HeapProgram.insert] at isLock
      split at isLock <;> cases isLock
    | delete rid => cases isLock
    | scan => cases isLock
    | elsewhere key' mode' =>
      simp only [HeapCall.program, HeapProgram.elsewhere] at isLock
      split at isLock
      · cases isLock
      · cases isLock
        exact .locked
  | insertLock listed =>
    cases isLock
    exact .insertInto listed (nowExclusive rfl)
  | @lockNew row pid entitled fresh =>
    cases isLock
    refine .push ?_ ⟨fresh.unlisted, fresh.allocated, fresh.dirty, fresh.alone, fun other held => ?_, fresh.blank⟩
      (nowExclusive rfl)
    · exact entitled.imp id fun ⟨last, listed, held⟩ =>
        ⟨last, listed, (granted.exclusive_iff _ _).mpr (.inl held)⟩
    · rcases (granted.holds_iff _ _).mp held with before | ⟨same, -⟩
      · exact fresh.unheld other before
      · exact same
  | deleteLock listed =>
    cases isLock
    exact .deleteFrom listed (nowExclusive rfl)
  | @scanPages done rest out scanned =>
    cases rest with
    | nil => cases isLock
    | cons pid rest =>
      cases isLock
      exact .scanRead (Granted.scanned granted scanned) nowHeld
  | _ => cases isLock

theorem keeps_of_finish {other : Nat} {call' : HeapCall} (orderly : store.Orderly objectId locks)
    (different : other ≠ txnId)
    (exclusive : ∀ page ∈ store.dirtied txnId, locks.HoldsExclusive txnId ⟨objectId, page⟩) (commits : Bool) :
    store.Keeps objectId quiet locks other call' locks (store.finish txnId commits) := by
  have pageIds_eq : (store.finish txnId commits).file.pageIds = store.file.pageIds := by
    cases commits <;> rfl
  refine ⟨by rw [pageIds_eq], fun _ _ => pageIds_eq, fun _ => id, fun _ => id, fun page _ held => ?_, ?_,
    fun pid fresh => ?_⟩
  · cases commits with
    | true => rfl
    | false =>
      refine if_neg fun dirty => different ?_
      exact LockManager.exclusive_unique orderly.consistent (exclusive page dirty) held
  · cases commits <;> exact id
  · cases commits with
    | true => exact ⟨fresh.unlisted, fresh.allocated, fresh.dirty, fresh.alone, fresh.unheld, fresh.blank⟩
    | false =>
      refine ⟨fresh.unlisted, fresh.allocated, fresh.dirty, fresh.alone, fresh.unheld, ?_⟩
      exact (if_neg fun dirty => different (fresh.alone _ dirty).symm).trans fresh.blank

theorem finish_orderly (orderly : store.Orderly objectId locks) (commits : Bool) :
    (store.finish txnId commits).Orderly objectId locks := by
  obtain ⟨consistent, listed_lt, locked_lt, dirty_lt⟩ := orderly
  cases commits <;> exact ⟨consistent, listed_lt, locked_lt, dirty_lt⟩

end HeapStore

namespace HeapSystem

open HeapStore CallSystem HeapCall

-- A page this transaction has written to and has exclusively, or a new one that it is just about to lock.
def Owns (objectId : Nat) (s : HeapSystem) (txnId page : Nat) : Prop :=
  s.locks.HoldsExclusive txnId ⟨objectId, page⟩ ∨
    (∃ call steps next, s.Calling txnId call steps (.lock ⟨objectId, page⟩ .kExclusive next)) ∧
      s.shared.Fresh objectId s.locks txnId page

/-- An invariant of every run in which the scans of `quiet` transactions are left alone. -/
structure Sound (objectId : Nat) (quiet : Nat → Prop) (s : HeapSystem) : Prop where
  orderly : s.shared.Orderly objectId s.locks
  owns : ∀ txnId, ∀ page ∈ s.shared.dirtied txnId, s.threads txnId ≠ .ended → Owns objectId s txnId page
  first : ∀ txnId call rest, s.Calling txnId call 0 rest → rest = call.program objectId txnId
  at_call : ∀ txnId call steps rest, s.Calling txnId call steps rest →
    s.shared.At objectId quiet s.locks txnId call rest

/-- page_ids_ does not grow under a Scan that has copied it. -/
def Undisturbed (quiet : Nat → Prop) (s s' : HeapSystem) : Prop :=
  ∀ txnId steps rest, quiet txnId → s.Calling txnId .scan (steps + 1) rest →
    s'.shared.file.pageIds = s.shared.file.pageIds

variable {objectId : Nat} {quiet : Nat → Prop} {s s' : HeapSystem} {event : CallEvent HeapCall Bool}

theorem sound_start (objectId : Nat) (quiet : Nat → Prop) : Sound objectId quiet { shared := {} } := by
  have unlocked : ∀ txnId key, ¬ LockManager.Holds {} txnId key := by
    simp [LockManager.Holds, LockManager.HoldsExclusive, LockManager.HoldsShared]
  refine ⟨⟨LockManager.consistent_empty, by simp, fun txnId page held => absurd held (unlocked _ _), by simp⟩,
    by simp, ?_, ?_⟩
  · intro txnId call rest calling
    cases calling
  · intro txnId call steps rest calling
    cases calling

theorem Owns.exclusive {txnId page : Nat} {thread : CallThread HeapCall HeapStore HeapError HeapResult}
    (owns : Owns objectId s txnId page) (isThread : s.threads txnId = thread)
    (elsewhere : ∀ call steps key mode next, thread ≠ .calling call steps (.lock key mode next)) :
    s.locks.HoldsExclusive txnId ⟨objectId, page⟩ := by
  rcases owns with held | ⟨⟨call, steps, next, calling⟩, -⟩
  · exact held
  · exact absurd (isThread.symm.trans calling) (elsewhere _ _ _ _ _)

theorem Sound.exclusive_of_idle (sound : Sound objectId quiet s) {txnId : Nat}
    {last : Option (HeapCall × CallOutcome HeapError HeapResult)} (idle : s.threads txnId = .idle last) :
    ∀ page ∈ s.shared.dirtied txnId, s.locks.HoldsExclusive txnId ⟨objectId, page⟩ := fun page dirty =>
  (sound.owns txnId page dirty (by simp [idle])).exclusive idle (by simp)

theorem step_keeps_others (sound : Sound objectId quiet s) (room : s.shared.file.allocated < 2 ^ 32)
    (taken : step (interface objectId) s event = some s') {txnId : Nat} (different : txnId ≠ event.txnId)
    {call : HeapCall} (still : call = .scan → quiet txnId → s'.shared.file.pageIds = s.shared.file.pageIds) :
    s.shared.Keeps objectId quiet s.locks txnId call s'.locks s'.shared := by
  cases stepped taken with
  | granted calling answer =>
    exact keeps_of_granted (LockManager.acquireLock_spec sound.orderly.consistent answer) different
      ((sound.at_call _ _ _ _ calling).request rfl)
  | acted calling =>
    exact ((sound.at_call _ _ _ _ calling).acted rfl).keeps sound.orderly room different still
  | finished how idle => exact keeps_of_finish sound.orderly different (sound.exclusive_of_idle idle) how
  | released ending =>
    refine ⟨List.prefix_refl _, fun _ _ => rfl, fun page held => ?_, fun page held => ?_, fun _ _ _ => rfl, id,
      fun pid fresh => ?_⟩
    · exact (LockManager.holdsExclusive_releaseAll sound.orderly.consistent _ _).mpr ⟨different, held⟩
    · exact (LockManager.holds_releaseAll sound.orderly.consistent _ _).mpr ⟨different, held⟩
    · exact ⟨fresh.unlisted, fresh.allocated, fresh.dirty, fresh.alone, fun third held =>
        fresh.unheld third ((LockManager.holds_releaseAll sound.orderly.consistent _ _).mp held).2, fresh.blank⟩
  | _ => exact ⟨List.prefix_refl _, still, fun _ => id, fun _ => id, fun _ _ _ => rfl, id, fun _ => id⟩

theorem step_at (sound : Sound objectId quiet s) (room : s.shared.file.allocated < 2 ^ 32)
    (taken : step (interface objectId) s event = some s') (undisturbed : Undisturbed quiet s s') {txnId : Nat}
    {call : HeapCall} {steps : Nat} {rest : HeapProgram HeapResult} (after : s'.Calling txnId call steps rest) :
    s'.shared.At objectId quiet s'.locks txnId call rest := by
  by_cases own : txnId = event.txnId
  · rcases calling_cases taken after with ⟨before, -⟩ | ⟨rfl, rfl, rfl⟩ |
      ⟨earlier, key, mode, rfl, rfl, before, answer, store_eq⟩ |
      ⟨earlier, update, next, rfl, rfl, before, rfl, store_eq, locks_eq⟩
    · -- it asked for a lock and waits
      have unmoved := calling_unmoved taken own before after
      rw [unmoved]
      exact sound.at_call _ _ _ _ before
    · exact .begins call
    · rw [store_eq]
      exact (sound.at_call _ _ _ _ before).granted rfl (LockManager.acquireLock_spec sound.orderly.consistent answer)
    · rw [store_eq, locks_eq]
      exact ((sound.at_call _ _ _ _ before).acted rfl).at_next sound.orderly room
  · have before : s.Calling txnId call steps rest := (step_others taken own).symm.trans after
    cases steps with
    | zero =>
      -- no action yet, so nothing it could know
      rw [sound.first _ _ _ before]
      exact .begins call
    | succ steps =>
      refine (sound.at_call _ _ _ _ before).keep (step_keeps_others sound room taken own ?_)
      rintro rfl isQuiet
      exact undisturbed _ _ _ isQuiet before

theorem step_orderly (sound : Sound objectId quiet s) (room : s.shared.file.allocated < 2 ^ 32)
    (taken : step (interface objectId) s event = some s') : s'.shared.Orderly objectId s'.locks := by
  obtain ⟨consistent, listed_lt, locked_lt, dirty_lt⟩ := sound.orderly
  cases stepped taken with
  | @granted other call' steps' key mode next locks calling answer =>
    have granted := LockManager.acquireLock_spec consistent answer
    refine ⟨granted.consistent, listed_lt, fun txnId page held => ?_, dirty_lt⟩
    rcases (granted.holds_iff _ _).mp held with before | ⟨rfl, isKey⟩
    · exact locked_lt txnId page before
    · rcases (sound.at_call _ _ _ _ calling).request rfl with elsewhere | ⟨_, rfl, listed | fresh⟩
      · exact absurd (by rw [← isKey]) elsewhere
      · cases isKey
        exact listed_lt _ listed
      · cases isKey
        exact fresh.allocated
  | acted calling => exact ((sound.at_call _ _ _ _ calling).acted rfl).orderly sound.orderly room
  | finished how idle => exact finish_orderly sound.orderly how
  | released ending =>
    refine ⟨LockManager.consistent_releaseAll consistent, listed_lt, fun txnId page held => ?_, dirty_lt⟩
    exact locked_lt txnId page ((LockManager.holds_releaseAll consistent _ _).mp held).2
  | _ => exact ⟨consistent, listed_lt, locked_lt, dirty_lt⟩

theorem step_dirtied (sound : Sound objectId quiet s) (taken : step (interface objectId) s event = some s')
    {txnId : Nat} (different : txnId ≠ event.txnId) : s'.shared.dirtied txnId = s.shared.dirtied txnId := by
  cases stepped taken with
  | acted calling => exact ((sound.at_call _ _ _ _ calling).acted rfl).dirtied_others different
  | finished how idle => cases how <;> rfl
  | _ => rfl

theorem step_owns (sound : Sound objectId quiet s) (room : s.shared.file.allocated < 2 ^ 32)
    (taken : step (interface objectId) s event = some s') {txnId page : Nat}
    (dirty : page ∈ s'.shared.dirtied txnId) (notEnded : s'.threads txnId ≠ .ended) :
    Owns objectId s' txnId page := by
  by_cases own : txnId = event.txnId
  · have owned : ∀ {thread}, s.threads txnId = thread → thread ≠ .ended → page ∈ s.shared.dirtied txnId →
        Owns objectId s txnId page := fun isThread awake before =>
      sound.owns txnId page before (isThread ▸ awake)
    cases stepped taken with
    | called call idle =>
      subst own
      exact .inl ((owned idle (by simp) dirty).exclusive idle (by simp))
    | returned calling =>
      subst own
      exact .inl ((owned calling (by simp) dirty).exclusive calling (by simp))
    | threw calling =>
      subst own
      exact .inl ((owned calling (by simp) dirty).exclusive calling (by simp))
    | granted calling answer =>
      subst own
      have granted := LockManager.acquireLock_spec sound.orderly.consistent answer
      refine .inl ((granted.exclusive_iff _ _).mpr ?_)
      rcases owned calling (by simp) dirty with held | ⟨⟨_, _, _, calling'⟩, -⟩
      · exact .inl held
      · cases calling.symm.trans calling'
        exact .inr ⟨rfl, rfl, rfl⟩
    | waits calling answer => exact owned rfl notEnded dirty
    | refused calling answer =>
      subst own
      rcases owned calling (by simp) dirty with held | ⟨⟨_, _, _, calling'⟩, fresh⟩
      · exact .inl held
      · -- nobody can stand against the lock on a page that is this new
        exfalso
        cases calling.symm.trans calling'
        obtain ⟨_, granted⟩ := LockManager.acquireLock_of_free
          (LockManager.no_conflict_alone fresh.unheld .kExclusive)
        cases granted.symm.trans answer
    | @acted _ call steps update next calling =>
      subst own
      have action := (sound.at_call _ _ _ _ calling).acted rfl
      rcases action.dirty_cases sound.orderly room dirty with before | held | ⟨⟨further, isLock⟩, fresh⟩
      · exact .inl ((owned calling (by simp) before).exclusive calling (by simp))
      · exact .inl held
      · refine .inr ⟨⟨call, steps + 1, further, ?_⟩, fresh⟩
        unfold Calling
        simp [isLock]
    | finished how idle =>
      subst own
      have before : page ∈ s.shared.dirtied txnId := by cases how <;> exact dirty
      exact .inl (sound.exclusive_of_idle idle page before)
    | released ending =>
      subst own
      simp at notEnded
  · have keeps : s.shared.Keeps objectId quiet s.locks txnId (.insert []) s'.locks s'.shared :=
      step_keeps_others sound room taken own (by simp)
    rw [step_dirtied sound taken own] at dirty
    rw [step_others taken own] at notEnded
    refine (sound.owns txnId page dirty notEnded).imp (keeps.exclusive page) fun ⟨⟨call, steps, next, calling⟩, fresh⟩ =>
      ⟨⟨call, steps, next, (step_others taken own).trans calling⟩, keeps.fresh page fresh⟩

theorem step_sound (sound : Sound objectId quiet s) (room : s.shared.file.allocated < 2 ^ 32)
    (taken : step (interface objectId) s event = some s') (undisturbed : Undisturbed quiet s s') :
    Sound objectId quiet s' := by
  refine ⟨step_orderly sound room taken, fun _ _ => step_owns sound room taken, ?_,
    fun _ _ _ _ => step_at sound room taken undisturbed⟩
  intro txnId call rest after
  rcases calling_cases taken after with ⟨before, -⟩ | ⟨-, -, isProgram⟩ | ⟨_, _, _, impossible, -⟩ |
    ⟨_, _, _, impossible, -⟩
  · exact sound.first _ _ _ before
  · exact isProgram
  · simp at impossible
  · simp at impossible

end HeapSystem

end FlintDB
