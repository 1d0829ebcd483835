import FlintDB.Txn.TransactionManager

set_option autoImplicit false

-- One inversion lemma per event. Pages are seen through `content`, `onDisk` and `Unflushed`, so that no invariant
-- opens a buffer pool.

namespace FlintDB

open Lib

namespace Engine

variable {s s' : Engine} {txnId : Nat} {key : PageKey} {image : PageImage}

/-- Only allocated pages are cached, in every pool. -/
def WellFormed (s : Engine) : Prop :=
  ∀ objectId pool, s.pools objectId = some pool → pool.WellFormed

def numPages (s : Engine) (objectId : Nat) : Option Nat :=
  (s.pools objectId).map fun pool => pool.disk.numPages

def Grows (size size' : Option Nat) : Prop :=
  size' = size ∨ ∃ n, size = some n ∧ n + 1 < 2 ^ 32 ∧ size' = some (n + 1)

theorem start_content (log : LogManager) (files : Nat → Option DiskManager) :
    (start log files).content = (start log files).onDisk := by
  funext key
  simp only [content, onDisk, start]
  cases files key.objectId <;> rfl

section Pools

theorem content_eq_of_pools (same : s'.pools = s.pools) : s'.content = s.content := by
  funext key
  simp only [content, same]

theorem onDisk_eq_of_pools (same : s'.pools = s.pools) : s'.onDisk = s.onDisk := by
  funext key
  simp only [onDisk, same]

theorem unflushed_of_pools (same : s'.pools = s.pools) : s'.Unflushed key ↔ s.Unflushed key := by
  simp only [Unflushed, same]

variable {pool next : BufferPool}

theorem content_setPool (image : PageImage) (found : s.pools key.objectId = some pool)
    (changed : ∀ pageId, next.content pageId =
      if pageId = key.pageId then image else pool.content pageId) :
    (s.setPool key.objectId next).content = Function.update s.content key image := by
  funext other
  obtain ⟨objectId, pageId⟩ := other
  by_cases sameObject : objectId = key.objectId
  · subst sameObject
    by_cases samePage : pageId = key.pageId
    · subst samePage
      simp [content, setPool, changed]
    · have different : (⟨key.objectId, pageId⟩ : PageKey) ≠ key :=
        fun equal => samePage (congrArg PageKey.pageId equal)
      simp [content, setPool, changed, samePage, different, found]
  · have different : (⟨objectId, pageId⟩ : PageKey) ≠ key :=
      fun equal => sameObject (congrArg PageKey.objectId equal)
    simp [content, setPool, sameObject, different]

theorem onDisk_setPool (image : PageImage) (found : s.pools key.objectId = some pool)
    (changed : ∀ pageId, next.disk.image pageId =
      if pageId = key.pageId then image else pool.disk.image pageId) :
    (s.setPool key.objectId next).onDisk = Function.update s.onDisk key image := by
  funext other
  obtain ⟨objectId, pageId⟩ := other
  by_cases sameObject : objectId = key.objectId
  · subst sameObject
    by_cases samePage : pageId = key.pageId
    · subst samePage
      simp [onDisk, setPool, changed]
    · have different : (⟨key.objectId, pageId⟩ : PageKey) ≠ key :=
        fun equal => samePage (congrArg PageKey.pageId equal)
      simp [onDisk, setPool, changed, samePage, different, found]
  · have different : (⟨objectId, pageId⟩ : PageKey) ≠ key :=
      fun equal => sameObject (congrArg PageKey.objectId equal)
    simp [onDisk, setPool, sameObject, different]

theorem content_setPool_same (found : s.pools key.objectId = some pool)
    (same : ∀ pageId, next.content pageId = pool.content pageId) :
    (s.setPool key.objectId next).content = s.content := by
  rw [content_setPool (s.content key) found, Function.update_eq_self]
  intro pageId
  split
  · rename_i here
    simp [same, here, content, found]
  · exact same pageId

theorem onDisk_setPool_same (found : s.pools key.objectId = some pool)
    (same : ∀ pageId, next.disk.image pageId = pool.disk.image pageId) :
    (s.setPool key.objectId next).onDisk = s.onDisk := by
  rw [onDisk_setPool (s.onDisk key) found, Function.update_eq_self]
  intro pageId
  split
  · rename_i here
    simp [same, here, onDisk, found]
  · exact same pageId

theorem unflushed_setPool {other : PageKey} (found : s.pools key.objectId = some pool)
    (cached : ∀ pageId, pageId ≠ key.pageId → pool.pages pageId ≠ none → next.pages pageId ≠ none)
    (dirty : ∀ pageId, pageId ≠ key.pageId → pageId ∈ pool.dirty → pageId ∈ next.dirty)
    (different : other ≠ key) (unflushed : s.Unflushed other) :
    (s.setPool key.objectId next).Unflushed other := by
  obtain ⟨found', present, isCached, isDirty⟩ := unflushed
  by_cases sameObject : other.objectId = key.objectId
  · have otherPage : other.pageId ≠ key.pageId := by
      intro samePage
      apply different
      cases other
      cases key
      simp_all
    rw [sameObject, found] at present
    cases present
    exact ⟨next, by simp [setPool, sameObject], cached _ otherPage isCached,
      dirty _ otherPage isDirty⟩
  · exact ⟨found', by simpa [setPool, sameObject] using present, isCached, isDirty⟩

theorem grows_setPool {objectId : Nat} (found : s.pools objectId = some pool)
    (size : Grows (some pool.disk.numPages) (some next.disk.numPages)) (other : Nat) :
    Grows (s.numPages other) ((s.setPool objectId next).numPages other) := by
  by_cases same : other = objectId
  · subst same
    simpa [numPages, setPool, found] using size
  · exact .inl (by simp [numPages, setPool, same])

theorem wellFormed_setPool {objectId : Nat} (wellFormed : s.WellFormed)
    (here : next.WellFormed) : (s.setPool objectId next).WellFormed := by
  intro other found present
  by_cases same : other = objectId
  · subst same
    simp only [setPool, Function.update_self, Option.some.injEq] at present
    exact present ▸ here
  · simp only [setPool, Function.update_of_ne same] at present
    exact wellFormed other found present

end Pools

structure Touches (s s' : Engine) (key : PageKey) : Prop where
  content : ∀ other, other ≠ key → s'.content other = s.content other
  onDisk : ∀ other, other ≠ key → s'.onDisk other = s.onDisk other
  unflushed : ∀ other, other ≠ key → s.Unflushed other → s'.Unflushed other
  wellFormed : s.WellFormed → s'.WellFormed
  sizes : ∀ objectId, Grows (s.numPages objectId) (s'.numPages objectId)

theorem Touches.of_pools {s'' : Engine} (touches : Touches s s' key)
    (same : s''.pools = s'.pools) : Touches s s'' key where
  content := by simpa only [content_eq_of_pools same] using touches.content
  onDisk := by simpa only [onDisk_eq_of_pools same] using touches.onDisk
  unflushed := by simpa only [unflushed_of_pools same] using touches.unflushed
  wellFormed := by simpa only [WellFormed, same] using touches.wellFormed
  sizes := by simpa only [numPages, same] using touches.sizes

theorem Touches.frame (touches : Touches s s' key) {pages : Finset PageKey} (member : key ∈ pages)
    (other : PageKey) (outside : other ∉ pages) :
    s'.content other = s.content other ∧ s'.onDisk other = s.onDisk other ∧
      (s.Unflushed other → s'.Unflushed other) := by
  have different : other ≠ key := fun same => outside (same ▸ member)
  exact ⟨touches.content other different, touches.onDisk other different,
    touches.unflushed other different⟩

theorem Touches.same_onDisk (touches : Touches s s' key) (here : s'.onDisk key = s.onDisk key)
    (other : PageKey) : s'.onDisk other = s.onDisk other := by
  by_cases same : other = key
  · rw [same, here]
  · exact touches.onDisk other same

section PoolSteps

variable {pool next : BufferPool}

theorem touches_setPool (contentHere diskHere : PageImage)
    (found : s.pools key.objectId = some pool)
    (content : ∀ pageId, next.content pageId =
      if pageId = key.pageId then contentHere else pool.content pageId)
    (onDisk : ∀ pageId, next.disk.image pageId =
      if pageId = key.pageId then diskHere else pool.disk.image pageId)
    (cached : ∀ pageId, pageId ≠ key.pageId → pool.pages pageId ≠ none → next.pages pageId ≠ none)
    (dirty : ∀ pageId, pageId ≠ key.pageId → pageId ∈ pool.dirty → pageId ∈ next.dirty)
    (wellFormed : pool.WellFormed → next.WellFormed)
    (size : Grows (some pool.disk.numPages) (some next.disk.numPages)) :
    Touches s (s.setPool key.objectId next) key where
  content other different := by
    rw [content_setPool contentHere found content, Function.update_of_ne different]
  onDisk other different := by
    rw [onDisk_setPool diskHere found onDisk, Function.update_of_ne different]
  unflushed other different := unflushed_setPool found cached dirty different
  wellFormed all := wellFormed_setPool all (wellFormed (all _ _ found))
  sizes := grows_setPool found size

-- FetchPage brings a page into the cache and changes nothing else.
structure Loads (s s' : Engine) : Prop where
  content : s'.content = s.content
  onDisk : s'.onDisk = s.onDisk
  unflushed : ∀ key, s.Unflushed key → s'.Unflushed key
  wellFormed : s.WellFormed → s'.WellFormed
  sizes : ∀ objectId, Grows (s.numPages objectId) (s'.numPages objectId)

theorem Loads.of_pools {s'' : Engine} (loads : Loads s s') (same : s''.pools = s'.pools) :
    Loads s s'' where
  content := (content_eq_of_pools same).trans loads.content
  onDisk := (onDisk_eq_of_pools same).trans loads.onDisk
  unflushed key unflushed := (unflushed_of_pools same).mpr (loads.unflushed key unflushed)
  wellFormed := by simpa only [WellFormed, same] using loads.wellFormed
  sizes := by simpa only [numPages, same] using loads.sizes

theorem Loads.refl (s : Engine) : Loads s s := ⟨rfl, rfl, fun _ => id, id, fun _ => .inl rfl⟩

theorem Loads.touches (loads : Loads s s') (key : PageKey) : Touches s s' key where
  content other _ := congrFun loads.content other
  onDisk other _ := congrFun loads.onDisk other
  unflushed other _ := loads.unflushed other
  wellFormed := loads.wellFormed
  sizes := loads.sizes

theorem load_content (pageId other : Nat) :
    (pool.load pageId).content other = pool.content other := by
  by_cases same : other = pageId
  · subst same
    simp [BufferPool.load, BufferPool.content]
  · simp [BufferPool.load, BufferPool.content, same]

theorem loads_fetchPage (found : s.pools key.objectId = some pool)
    (fetched : pool.fetchPage key.pageId = some (image, next)) :
    image = s.content key ∧ Loads s (s.setPool key.objectId next) := by
  obtain ⟨imageEq, nextEq, within⟩ := BufferPool.fetchPage_some fetched
  refine ⟨by simp [content, found, imageEq], ?_⟩
  subst nextEq
  refine ⟨content_setPool_same found (load_content key.pageId),
    onDisk_setPool_same found fun _ => rfl, fun other unflushed => ?_, fun all => ?_,
    grows_setPool found (.inl rfl)⟩
  · by_cases same : other = key
    · subst same
      obtain ⟨found', present, -, isDirty⟩ := unflushed
      rw [found] at present
      cases present
      exact ⟨pool.load other.pageId, by simp [setPool], by simp [BufferPool.load], isDirty⟩
    · refine unflushed_setPool found (fun pageId other isCached => ?_) (fun _ _ => id) same
        unflushed
      simpa [BufferPool.load, other] using isCached
  · refine wellFormed_setPool all fun pageId isCached => ?_
    by_cases same : pageId = key.pageId
    · subst same
      exact within (all _ _ found)
    · simp only [BufferPool.load, Function.update_of_ne same] at isCached
      exact all _ _ found pageId isCached

theorem touches_writeDirty (found : s.pools key.objectId = some pool)
    (within : pool.WellFormed → key.pageId < pool.disk.numPages) :
    Touches s (s.setPool key.objectId (pool.writeDirty key.pageId image)) key := by
  refine touches_setPool image (pool.disk.image key.pageId) found
    (fun pageId => ?_) (fun pageId => ?_) (fun pageId other => ?_) (fun pageId other => ?_)
    (fun wellFormed pageId isCached => ?_) (.inl rfl)
  · by_cases same : pageId = key.pageId <;>
      simp [BufferPool.writeDirty, BufferPool.content, same]
  · by_cases same : pageId = key.pageId <;> simp [BufferPool.writeDirty, same]
  · simp [BufferPool.writeDirty, other]
  · simp [BufferPool.writeDirty, other]
  · by_cases same : pageId = key.pageId
    · subst same
      exact within wellFormed
    · simp only [BufferPool.writeDirty, Function.update_of_ne same] at isCached
      exact wellFormed pageId isCached

theorem page_writeDirty (image : PageImage) (found : s.pools key.objectId = some pool) :
    (s.setPool key.objectId (pool.writeDirty key.pageId image)).content key = image ∧
      (s.setPool key.objectId (pool.writeDirty key.pageId image)).onDisk key = s.onDisk key := by
  simp [content, onDisk, setPool, BufferPool.writeDirty, BufferPool.content, found]

theorem unflushed_writeDirty :
    (s.setPool key.objectId (pool.writeDirty key.pageId image)).Unflushed key :=
  ⟨_, Function.update_self .., by simp [BufferPool.writeDirty],
    by simp [BufferPool.writeDirty]⟩

theorem newPage_spec (found : s.pools key.objectId = some pool)
    (room : pool.disk.numPages + 1 < 2 ^ 32) (allocated : pool.newPage = (key.pageId, next))
    (all : s.WellFormed) :
    Touches s (s.setPool key.objectId next) key ∧
      s.content key = .zero ∧ s.onDisk key = .zero ∧
      (s.setPool key.objectId next).content key = .zero ∧
      (s.setPool key.objectId next).onDisk key = .zero ∧
      (s.setPool key.objectId next).Unflushed key := by
  rw [BufferPool.newPage_eq room] at allocated
  obtain ⟨pageId, rfl⟩ := Prod.mk.inj allocated
  have beyond : pool.disk.image key.pageId = .zero := by
    rw [← pageId, DiskManager.image, DiskManager.readPage, DiskManager.numPages,
      List.getElem?_eq_none (Nat.le_refl _), Option.getD_none]
  have unseen : pool.content key.pageId = .zero :=
    BufferPool.content_beyond (all _ _ found) pageId.le
  have grown : Grows (some pool.disk.numPages) (some (pool.disk.pages ++ [PageImage.zero]).length) :=
    .inr ⟨_, rfl, room, by simp [DiskManager.numPages]⟩
  refine ⟨touches_setPool .zero .zero found ?_ ?_ ?_ ?_ ?_ grown,
    ?_, ?_, ?_, ?_, ?_⟩
  · intro other
    by_cases same : other = key.pageId
    · simp [BufferPool.content, same, ← pageId]
    · simp [BufferPool.content, same, pageId, DiskManager.image_append_zero]
  · intro other
    simp only [DiskManager.image_append_zero]
    split
    · rename_i same
      rw [same, beyond]
    · rfl
  · intro other different
    simp [pageId, different]
  · intro other _ isDirty
    simp [isDirty]
  · intro wellFormed other isCached
    simp only [DiskManager.numPages, List.length_append, List.length_singleton]
    by_cases same : other = pool.disk.numPages
    · rw [same, DiskManager.numPages]
      omega
    · simp only [Function.update_of_ne same] at isCached
      have within := wellFormed other isCached
      rw [DiskManager.numPages] at within
      omega
  · simp [content, found, unseen]
  · simp [onDisk, found, beyond]
  · simp [content, setPool, BufferPool.content, pageId]
  · simp [onDisk, setPool, DiskManager.image_append_zero, beyond]
  · exact ⟨_, Function.update_self .., by simp [pageId], by simp [pageId]⟩

theorem content_disk_set {pageId : Nat} (isCached : pool.pages pageId ≠ none)
    (within : pageId < pool.disk.numPages) {dirty : Finset Nat} (other : Nat) :
    BufferPool.content { pool with
      disk := { pages := pool.disk.pages.set pageId image }, dirty := dirty } other =
      pool.content other := by
  simp only [BufferPool.content, DiskManager.image_set _ _ _ _ within]
  cases cached : pool.pages other with
  | some found => simp
  | none =>
    have different : other ≠ pageId := by
      rintro rfl
      exact isCached cached
    simp [different]

theorem flushPage_spec (found : s.pools key.objectId = some pool)
    (flushed : pool.flushPage key.pageId = some next) :
    Touches s (s.setPool key.objectId next) key ∧
      (s.setPool key.objectId next).content key = s.content key ∧
      (s.Unflushed key → (s.setPool key.objectId next).onDisk key = s.content key) := by
  rcases BufferPool.flushPage_some flushed with ⟨skipped, rfl⟩ | ⟨isCached, within, rfl⟩
  · have same : s.setPool key.objectId next = s := by
      simp [setPool, ← found]
    rw [same]
    refine ⟨(Loads.refl s).touches key, rfl, fun ⟨found', present, isCached, isDirty⟩ => ?_⟩
    rw [found] at present
    cases present
    rcases skipped with uncached | clean
    · exact absurd uncached isCached
    · exact absurd isDirty clean
  · have contentSame : ∀ other, BufferPool.content { pool with
        disk := { pages := pool.disk.pages.set key.pageId (pool.content key.pageId) }
        dirty := pool.dirty.erase key.pageId } other = pool.content other :=
      content_disk_set isCached within
    refine ⟨touches_setPool (pool.content key.pageId)
      (pool.content key.pageId) found ?_ ?_ ?_ ?_ ?_ (.inl ?_), ?_, fun _ => ?_⟩
    · intro other
      rw [contentSame]
      split
      · rename_i same
        rw [same]
      · rfl
    · intro other
      simp [DiskManager.image_set _ _ _ _ within]
    · exact fun _ _ => id
    · intro other different isDirty
      simp [different, isDirty]
    · intro wellFormed other isCached
      simpa [DiskManager.numPages] using wellFormed other isCached
    · simp [DiskManager.numPages]
    · simp [content, setPool, contentSame, found]
    · simp [onDisk, setPool, DiskManager.image_set _ _ _ _ within, content, found]

theorem flushPageTorn_spec {written : Nat} (found : s.pools key.objectId = some pool)
    (flushed : pool.flushPageTorn key.pageId written = some next) :
    Touches s (s.setPool key.objectId next) key ∧
      (s.setPool key.objectId next).content key = s.content key ∧
      (s.Unflushed key → (s.setPool key.objectId next).Unflushed key) := by
  rcases BufferPool.flushPageTorn_some flushed with rfl | ⟨isCached, within, torn, rfl⟩
  · have same : s.setPool key.objectId next = s := by
      simp [setPool, ← found]
    rw [same]
    exact ⟨(Loads.refl s).touches key, rfl, id⟩
  · have contentSame : ∀ other, BufferPool.content { pool with
        disk := { pages := pool.disk.pages.set key.pageId torn } } other = pool.content other :=
      content_disk_set isCached within
    refine ⟨touches_setPool (pool.content key.pageId) torn found
      ?_ ?_ ?_ ?_ ?_ (.inl ?_), ?_, ?_⟩
    · intro other
      rw [contentSame]
      split
      · rename_i same
        rw [same]
      · rfl
    · intro other
      simp [DiskManager.image_set _ _ _ _ within]
    · exact fun _ _ => id
    · exact fun _ _ => id
    · intro wellFormed other isCached
      simpa [DiskManager.numPages] using wellFormed other isCached
    · simp [DiskManager.numPages]
    · simp [content, setPool, contentSame, found]
    · rintro ⟨found', present, -, isDirty⟩
      rw [found] at present
      cases present
      exact ⟨_, Function.update_self .., isCached, isDirty⟩

theorem discardPage_spec (found : s.pools key.objectId = some pool)
    (discarded : pool.discardPage key.pageId = some next) :
    Touches s (s.setPool key.objectId next) key ∧
      (s.setPool key.objectId next).content key = s.onDisk key ∧
      (s.setPool key.objectId next).onDisk key = s.onDisk key := by
  rcases BufferPool.discardPage_some discarded with ⟨uncached, rfl⟩ | ⟨isCached, within, rfl⟩
  · have same : s.setPool key.objectId next = s := by
      simp [setPool, ← found]
    rw [same]
    refine ⟨(Loads.refl s).touches key, ?_, rfl⟩
    simp [content, onDisk, found, BufferPool.content_of_uncached uncached]
  · refine ⟨touches_setPool (pool.disk.image key.pageId)
      (pool.disk.image key.pageId) found ?_ ?_ ?_ ?_ ?_ (.inl rfl), ?_, ?_⟩
    · intro other
      by_cases same : other = key.pageId <;> simp [BufferPool.content, same]
    · intro other
      split
      · rename_i same
        rw [same]
      · rfl
    · intro other different
      simp [different]
    · intro other different isDirty
      simp [different, isDirty]
    · intro wellFormed other isCached
      by_cases same : other = key.pageId
      · exact same ▸ within
      · simp only [Function.update_of_ne same] at isCached
        exact wellFormed other isCached
    · simp [content, onDisk, setPool, BufferPool.content, found]
    · simp [onDisk, setPool, found]

end PoolSteps

section Inversion

theorem step_begin (stepped : s.step (.begin txnId) = some s') :
    txnId = s.nextTxnId ∧ txnId + 1 < 2 ^ 64 ∧
      s' = { s.setTxn txnId {} with nextTxnId := txnId + 1 } := by
  simp only [step, Option.ite_none_right_eq_some, Option.some.injEq] at stepped
  exact ⟨stepped.1.1, stepped.1.2, stepped.2.symm⟩

theorem step_appendBegin (stepped : s.step (.appendBegin txnId) = some s') :
    ∃ txn log lsn, s.activeTxns txnId = some txn ∧ txn.phase = .beginning ∧
      s.log.appendBegin txnId = some (log, lsn) ∧
      s' = { s.setTxn txnId { txn with phase := .running } with log := log } := by
  simp only [step, Option.bind_eq_bind, Option.bind_eq_some_iff, Option.ite_none_right_eq_some,
    Option.some.injEq] at stepped
  obtain ⟨txn, active, ⟨log, lsn⟩, appended, phase, rfl⟩ := stepped
  exact ⟨txn, log, lsn, active, phase, appended, rfl⟩

theorem step_lock {mode : LockMode} (stepped : s.step (.lock txnId key mode) = some s') :
    ∃ txn, s.activeTxns txnId = some txn ∧ txn.phase = .running ∧
      (s' = s ∨ ∃ next, s.locks.acquireLock txnId key mode = .granted next ∧
        s' = { s with locks := next }) := by
  simp only [step, Option.bind_eq_bind, Option.bind_eq_some_iff,
    Option.ite_none_right_eq_some] at stepped
  obtain ⟨txn, active, phase, answered⟩ := stepped
  refine ⟨txn, active, phase, ?_⟩
  split at answered
  · rename_i next granted
    cases answered
    exact .inr ⟨next, granted, rfl⟩
  · cases answered
    exact .inl rfl
  · cases answered
    exact .inl rfl

theorem step_read (stepped : s.step (.read txnId key image) = some s') :
    ∃ txn pools, s.activeTxns txnId = some txn ∧ txn.phase = .running ∧
      s.locks.Holds txnId key ∧ image = s.content key ∧ s' = { s with pools := pools } ∧
      Loads s s' := by
  simp only [step, Option.bind_eq_bind, Option.bind_eq_some_iff, Option.ite_none_right_eq_some,
    Option.some.injEq] at stepped
  obtain ⟨txn, active, pool, found, ⟨content, next⟩, fetched, ⟨phase, held, rfl⟩, rfl⟩ := stepped
  obtain ⟨imageEq, loads⟩ := loads_fetchPage found fetched
  exact ⟨txn, _, active, phase, held, imageEq, rfl, loads⟩

theorem step_write (stepped : s.step (.write txnId key image) = some s') :
    ∃ txn pools, s.activeTxns txnId = some txn ∧ txn.phase = .running ∧
      s.locks.HoldsExclusive txnId key ∧
      s' = { s.setTxn txnId { txn with dirtiedPages := insert key txn.dirtiedPages } with
        pools := pools } ∧
      Touches s s' key ∧ s'.content key = image ∧ s'.onDisk key = s.onDisk key ∧
      s'.Unflushed key := by
  simp only [step, Option.bind_eq_bind, Option.bind_eq_some_iff, Option.ite_none_right_eq_some,
    Option.some.injEq] at stepped
  obtain ⟨txn, active, pool, found, ⟨content, next⟩, fetched, ⟨phase, held⟩, rfl⟩ := stepped
  obtain ⟨-, nextEq, within⟩ := BufferPool.fetchPage_some fetched
  -- the page was just fetched: writing to the loaded pool is writing to the pool
  have sameWrite : next.writeDirty key.pageId image = pool.writeDirty key.pageId image := by
    simp [nextEq, BufferPool.writeDirty, BufferPool.load]
  rw [sameWrite]
  have touches : Touches s (s.setPool key.objectId (pool.writeDirty key.pageId image)) key :=
    touches_writeDirty found within
  obtain ⟨contentHere, diskHere⟩ := page_writeDirty image found
  exact ⟨txn, _, active, phase, held, rfl, touches.of_pools rfl, contentHere, diskHere,
    unflushed_writeDirty⟩

theorem step_allocate (all : s.WellFormed) (stepped : s.step (.allocate txnId key) = some s') :
    ∃ txn pools locks, s.activeTxns txnId = some txn ∧ txn.phase = .running ∧
      s.locks.acquireLock txnId key .kExclusive = .granted locks ∧
      s' = { s.setTxn txnId { txn with dirtiedPages := insert key txn.dirtiedPages } with
        pools := pools, locks := locks } ∧
      Touches s s' key ∧ s.content key = .zero ∧ s.onDisk key = .zero ∧
      s'.content key = .zero ∧ s'.onDisk key = .zero ∧ s'.Unflushed key := by
  simp only [step, Option.bind_eq_bind, Option.bind_eq_some_iff,
    Option.ite_none_right_eq_some] at stepped
  obtain ⟨txn, active, pool, found, ⟨phase, room, pageId⟩, answered⟩ := stepped
  split at answered
  · rename_i locks granted
    cases answered
    have allocated : pool.newPage = (key.pageId, pool.newPage.2) := by rw [pageId]
    obtain ⟨touches, contentBefore, diskBefore, contentAfter, diskAfter, unflushed⟩ :=
      newPage_spec found room allocated all
    exact ⟨txn, _, locks, active, phase, granted, rfl, touches.of_pools rfl, contentBefore,
      diskBefore, contentAfter, diskAfter, unflushed⟩
  · cases answered
  · cases answered

theorem step_commit (stepped : s.step (.commit txnId) = some s') :
    ∃ txn, s.activeTxns txnId = some txn ∧ txn.phase = .running ∧
      s' = s.setTxn txnId { txn with phase := .logging txn.dirtiedPages } := by
  simp only [step, Option.bind_eq_bind, Option.bind_eq_some_iff, Option.ite_none_right_eq_some,
    Option.some.injEq] at stepped
  obtain ⟨txn, active, phase, rfl⟩ := stepped
  exact ⟨txn, active, phase, rfl⟩

theorem step_appendUpdate (stepped : s.step (.appendUpdate txnId key image) = some s') :
    ∃ txn pending pools log lsn, s.activeTxns txnId = some txn ∧ txn.phase = .logging pending ∧
      key ∈ pending ∧ image = s.content key ∧
      s.log.appendUpdate txnId key.objectId key.pageId image = some (log, lsn) ∧
      s' = { s.setTxn txnId { txn with phase := .logging (pending.erase key) } with
        pools := pools, log := log } ∧
      Loads s s' ∧
      (s.WellFormed → ∃ n, s.numPages key.objectId = some n ∧ key.pageId < n) := by
  simp only [step, Option.bind_eq_bind, Option.bind_eq_some_iff] at stepped
  obtain ⟨txn, active, pool, found, ⟨content, next⟩, fetched, ⟨log, lsn⟩, appended, moved⟩ :=
    stepped
  split at moved
  · rename_i pending phase
    simp only [Option.ite_none_right_eq_some, Option.some.injEq] at moved
    obtain ⟨⟨member, rfl⟩, rfl⟩ := moved
    obtain ⟨imageEq, loads⟩ := loads_fetchPage found fetched
    have within := (BufferPool.fetchPage_some fetched).2.2
    exact ⟨txn, pending, _, log, lsn, active, phase, member, imageEq, appended, rfl,
      loads.of_pools rfl, fun all => ⟨_, by simp [numPages, found], within (all _ _ found)⟩⟩
  · cases moved

theorem step_appendCommit (stepped : s.step (.appendCommit txnId) = some s') :
    ∃ txn log lsn, s.activeTxns txnId = some txn ∧ txn.phase = .logging ∅ ∧
      s.log.appendCommit txnId = some (log, lsn) ∧
      s' = { s.setTxn txnId { txn with phase := .forcing lsn } with log := log } := by
  simp only [step, Option.bind_eq_bind, Option.bind_eq_some_iff, Option.ite_none_right_eq_some,
    Option.some.injEq] at stepped
  obtain ⟨txn, active, ⟨log, lsn⟩, appended, phase, rfl⟩ := stepped
  exact ⟨txn, log, lsn, active, phase, appended, rfl⟩

theorem step_flushBegin (stepped : s.step (.flushBegin txnId) = some s') :
    ∃ txn lsn, s.activeTxns txnId = some txn ∧ txn.phase = .forcing lsn ∧
      s.log.durableLsn < lsn ∧ s.log.flushInProgress = false ∧
      s' = { s with
        log := { s.log with flushInProgress := true }
        flusher := some {
          txnId, toCover := max lsn s.log.lastLsn
          startLength := s.log.file.content.length } } := by
  simp only [step, Option.bind_eq_bind, Option.bind_eq_some_iff] at stepped
  obtain ⟨txn, active, moved⟩ := stepped
  split at moved
  · rename_i lsn phase
    simp only [Option.ite_none_right_eq_some, Option.some.injEq] at moved
    obtain ⟨⟨behind, idle⟩, rfl⟩ := moved
    exact ⟨txn, lsn, active, phase, behind, idle, rfl⟩
  · cases moved

theorem step_fsync {covered : Nat} (stepped : s.step (.fsync txnId covered) = some s') :
    ∃ flusher, s.flusher = some flusher ∧ flusher.txnId = txnId ∧
      flusher.startLength ≤ covered ∧ covered ≤ s.log.file.content.length ∧
      s' = { s with
        log := { s.log with file := { s.log.file with synced := max s.log.file.synced covered } }
        flusher := some { flusher with fsynced := true } } := by
  simp only [step, Option.bind_eq_bind, Option.bind_eq_some_iff, Option.ite_none_right_eq_some,
    Option.some.injEq] at stepped
  obtain ⟨flusher, flushing, ⟨mine, started, within⟩, rfl⟩ := stepped
  exact ⟨flusher, flushing, mine, started, within, rfl⟩

theorem step_flushEnd (stepped : s.step (.flushEnd txnId) = some s') :
    ∃ flusher, s.flusher = some flusher ∧ flusher.txnId = txnId ∧ flusher.fsynced = true ∧
      s' = { s with log := s.log.flushEnd flusher.toCover, flusher := none } := by
  simp only [step, Option.bind_eq_bind, Option.bind_eq_some_iff, Option.ite_none_right_eq_some,
    Option.some.injEq] at stepped
  obtain ⟨flusher, flushing, ⟨mine, done⟩, rfl⟩ := stepped
  exact ⟨flusher, flushing, mine, done, rfl⟩

theorem step_flushReturn (stepped : s.step (.flushReturn txnId) = some s') :
    ∃ txn lsn, s.activeTxns txnId = some txn ∧ txn.phase = .forcing lsn ∧
      lsn ≤ s.log.durableLsn ∧
      s' = s.setTxn txnId { txn with phase := .flushing txn.dirtiedPages } := by
  simp only [step, Option.bind_eq_bind, Option.bind_eq_some_iff] at stepped
  obtain ⟨txn, active, moved⟩ := stepped
  split at moved
  · rename_i lsn phase
    simp only [Option.ite_none_right_eq_some, Option.some.injEq] at moved
    obtain ⟨⟨durable, -⟩, rfl⟩ := moved
    exact ⟨txn, lsn, active, phase, durable, rfl⟩
  · cases moved

theorem step_flushPage (stepped : s.step (.flushPage txnId key) = some s') :
    ∃ txn pending pools, s.activeTxns txnId = some txn ∧ txn.phase = .flushing pending ∧
      key ∈ pending ∧
      s' = { s.setTxn txnId { txn with phase := .flushing (pending.erase key) } with
        pools := pools } ∧
      Touches s s' key ∧ s'.content key = s.content key ∧
      (s.Unflushed key → s'.onDisk key = s.content key) := by
  simp only [step, Option.bind_eq_bind, Option.bind_eq_some_iff] at stepped
  obtain ⟨txn, active, pool, found, next, flushed, moved⟩ := stepped
  split at moved
  · rename_i pending phase
    simp only [Option.ite_none_right_eq_some, Option.some.injEq] at moved
    obtain ⟨member, rfl⟩ := moved
    obtain ⟨touches, contentHere, diskHere⟩ := flushPage_spec found flushed
    exact ⟨txn, pending, _, active, phase, member, rfl, touches.of_pools rfl, contentHere,
      diskHere⟩
  · cases moved

theorem step_flushPageTorn {written : Nat}
    (stepped : s.step (.flushPageTorn txnId key written) = some s') :
    ∃ txn pending pools, s.activeTxns txnId = some txn ∧ txn.phase = .flushing pending ∧
      key ∈ pending ∧ s' = { s with pools := pools } ∧
      Touches s s' key ∧ s'.content key = s.content key ∧ (s.Unflushed key → s'.Unflushed key) := by
  simp only [step, Option.bind_eq_bind, Option.bind_eq_some_iff] at stepped
  obtain ⟨txn, active, pool, found, next, flushed, moved⟩ := stepped
  split at moved
  · rename_i pending phase
    simp only [Option.ite_none_right_eq_some, Option.some.injEq] at moved
    obtain ⟨member, rfl⟩ := moved
    obtain ⟨touches, contentHere, unflushed⟩ := flushPageTorn_spec found flushed
    exact ⟨txn, pending, _, active, phase, member, rfl, touches, contentHere, unflushed⟩
  · cases moved

theorem step_commitRelease (stepped : s.step (.commitRelease txnId) = some s') :
    ∃ txn, s.activeTxns txnId = some txn ∧ txn.phase = .flushing ∅ ∧ s' = s.finish txnId := by
  simp only [step, Option.bind_eq_bind, Option.bind_eq_some_iff, Option.ite_none_right_eq_some,
    Option.some.injEq] at stepped
  obtain ⟨txn, active, phase, rfl⟩ := stepped
  exact ⟨txn, active, phase, rfl⟩

theorem step_abort (stepped : s.step (.abort txnId) = some s') :
    ∃ txn, s.activeTxns txnId = some txn ∧ txn.phase = .running ∧
      s' = s.setTxn txnId { txn with phase := .discarding txn.dirtiedPages } := by
  simp only [step, Option.bind_eq_bind, Option.bind_eq_some_iff, Option.ite_none_right_eq_some,
    Option.some.injEq] at stepped
  obtain ⟨txn, active, phase, rfl⟩ := stepped
  exact ⟨txn, active, phase, rfl⟩

theorem step_discardPage (stepped : s.step (.discardPage txnId key) = some s') :
    ∃ txn pending pools, s.activeTxns txnId = some txn ∧ txn.phase = .discarding pending ∧
      key ∈ pending ∧
      s' = { s.setTxn txnId { txn with phase := .discarding (pending.erase key) } with
        pools := pools } ∧
      Touches s s' key ∧ s'.content key = s.onDisk key ∧ s'.onDisk key = s.onDisk key := by
  simp only [step, Option.bind_eq_bind, Option.bind_eq_some_iff] at stepped
  obtain ⟨txn, active, pool, found, next, discarded, moved⟩ := stepped
  split at moved
  · rename_i pending phase
    simp only [Option.ite_none_right_eq_some, Option.some.injEq] at moved
    obtain ⟨member, rfl⟩ := moved
    obtain ⟨touches, contentHere, diskHere⟩ := discardPage_spec found discarded
    exact ⟨txn, pending, _, active, phase, member, rfl, touches.of_pools rfl, contentHere,
      diskHere⟩
  · cases moved

theorem step_appendAbort (stepped : s.step (.appendAbort txnId) = some s') :
    ∃ txn log lsn, s.activeTxns txnId = some txn ∧ txn.phase = .discarding ∅ ∧
      s.log.appendAbort txnId = some (log, lsn) ∧
      s' = { s.setTxn txnId { txn with phase := .discarded } with log := log } := by
  simp only [step, Option.bind_eq_bind, Option.bind_eq_some_iff, Option.ite_none_right_eq_some,
    Option.some.injEq] at stepped
  obtain ⟨txn, active, ⟨log, lsn⟩, appended, phase, rfl⟩ := stepped
  exact ⟨txn, log, lsn, active, phase, appended, rfl⟩

theorem step_abortRelease (stepped : s.step (.abortRelease txnId) = some s') :
    ∃ txn, s.activeTxns txnId = some txn ∧ txn.phase = .discarded ∧ s' = s.finish txnId := by
  simp only [step, Option.bind_eq_bind, Option.bind_eq_some_iff, Option.ite_none_right_eq_some,
    Option.some.injEq] at stepped
  obtain ⟨txn, active, phase, rfl⟩ := stepped
  exact ⟨txn, active, phase, rfl⟩

end Inversion

end Engine

def Phase.closing : Phase → Bool
  | .forcing _ | .flushing _ => true
  | _ => false

def Phase.aborting : Phase → Bool
  | .discarding _ | .discarded => true
  | _ => false

-- The event appends a log record.
def Event.isAppend : Event → Bool
  | appendBegin _ | appendUpdate .. | appendCommit _ | appendAbort _ => true
  | _ => false

namespace Engine

variable {s s' : Engine} {event : Event} {txn txn' : Transaction}

structure Moved (s : Engine) (event : Event) (s' : Engine) : Prop where
  others : ∀ other, other ≠ event.txnId → s'.activeTxns other = s.activeTxns other
  sizes : ∀ objectId, Grows (s.numPages objectId) (s'.numPages objectId)
  synced : s.log.file.synced ≤ s'.log.file.synced
  content : event.isAppend = false → s'.log.file.content = s.log.file.content
  born : s.nextTxnId ≤ s'.nextTxnId
  ids : s.nextTxnId < 2 ^ 64 → s'.nextTxnId < 2 ^ 64
  revived : s.activeTxns event.txnId = none → s'.activeTxns event.txnId = none ∨ event.txnId = s.nextTxnId
  closing : ∀ txn, s.activeTxns event.txnId = some txn → txn.phase.closing = true →
    event = .commitRelease event.txnId ∨ ∃ txn', s'.activeTxns event.txnId = some txn' ∧ txn'.phase.closing = true
  aborting : ∀ txn, s.activeTxns event.txnId = some txn → txn.phase.aborting = true →
    (∀ other, event ≠ .commitRelease other) ∧
      ∀ txn', s'.activeTxns event.txnId = some txn' → txn'.phase.aborting = true

theorem moved_of_update (active : s.activeTxns event.txnId = some txn)
    (after : s'.activeTxns = Function.update s.activeTxns event.txnId (some txn'))
    (ids : s'.nextTxnId = s.nextTxnId) (sizes : ∀ objectId, Grows (s.numPages objectId) (s'.numPages objectId))
    (synced : s'.log.file.synced = s.log.file.synced)
    (content : event.isAppend = false → s'.log.file.content = s.log.file.content)
    (unreleased : ∀ other, event ≠ .commitRelease other)
    (closing : txn.phase.closing = true → txn'.phase.closing = true)
    (aborting : txn.phase.aborting = true → txn'.phase.aborting = true) : Moved s event s' where
  others other different := by rw [after, Function.update_of_ne different]
  sizes := sizes
  synced := synced.ge
  content := content
  born := ids.ge
  ids small := by rwa [ids]
  revived gone := by
    rw [active] at gone
    cases gone
  closing found present isClosing := by
    cases active.symm.trans present
    exact .inr ⟨txn', by rw [after, Function.update_self], closing isClosing⟩
  aborting found present isAborting := by
    cases active.symm.trans present
    refine ⟨unreleased, fun found' present' => ?_⟩
    rw [after, Function.update_self] at present'
    cases present'
    exact aborting isAborting

theorem moved_of_same (after : s'.activeTxns = s.activeTxns) (ids : s'.nextTxnId = s.nextTxnId)
    (pools : s'.pools = s.pools) (synced : s.log.file.synced ≤ s'.log.file.synced)
    (content : s'.log.file.content = s.log.file.content) (unreleased : ∀ other, event ≠ .commitRelease other) :
    Moved s event s' where
  others other _ := by rw [after]
  sizes objectId := .inl (by simp only [numPages, pools])
  synced := synced
  content _ := content
  born := ids.ge
  ids small := by rwa [ids]
  revived gone := .inl (by rw [after, gone])
  closing found present isClosing := .inr ⟨found, by rw [after, present], isClosing⟩
  aborting found present isAborting := by
    refine ⟨unreleased, fun found' present' => ?_⟩
    rw [after] at present'
    cases present.symm.trans present'
    exact isAborting

theorem moved_of_finish (active : s.activeTxns event.txnId = some txn)
    (closing : txn.phase.closing = true → event = .commitRelease event.txnId)
    (aborting : txn.phase.aborting = true → ∀ other, event ≠ .commitRelease other) :
    Moved s event (s.finish event.txnId) where
  others other different := Function.update_of_ne different _ _
  sizes _ := .inl rfl
  synced := Nat.le_refl _
  content _ := rfl
  born := Nat.le_refl _
  ids small := small
  revived gone := by
    rw [active] at gone
    cases gone
  closing found present isClosing := by
    cases active.symm.trans present
    exact .inl (closing isClosing)
  aborting found present isAborting := by
    cases active.symm.trans present
    exact ⟨aborting isAborting, fun found' present' => by simp [finish] at present'⟩

theorem appendRecord_synced {log log' : LogManager} {type : LogRecordType} {txnId objectId pageId lsn : Nat}
    {payload : Bytes} (appended : log.appendRecord type txnId objectId pageId payload = some (log', lsn)) :
    log'.file.synced = log.file.synced := by
  obtain ⟨-, -, rfl⟩ := LogManager.appendRecord_some appended
  rfl

theorem moved (wellFormed : s.WellFormed) (born : ∀ txnId, s.activeTxns txnId ≠ none → txnId < s.nextTxnId)
    (stepped : s.step event = some s') : Moved s event s' := by
  have same : ∀ {txnId : Nat} {txn : Transaction}, s.activeTxns txnId = some txn →
      s.activeTxns = Function.update s.activeTxns txnId (some txn) := fun active =>
    (Function.update_eq_self_iff.mpr active.symm).symm
  cases event with
  | begin txnId =>
    obtain ⟨next, small, rfl⟩ := step_begin stepped
    have unborn : ∀ txn, s.activeTxns txnId ≠ some txn := fun txn present =>
      Nat.lt_irrefl _ (next ▸ born txnId (by simp [present]))
    exact ⟨fun other different => Function.update_of_ne different _ _, fun _ => .inl rfl, Nat.le_refl _, fun _ => rfl,
      by rw [← next]; exact Nat.le_succ _, fun _ => small, fun _ => .inr next,
      fun txn present => absurd present (unborn txn), fun txn present => absurd present (unborn txn)⟩
  | appendBegin txnId =>
    obtain ⟨txn, log, lsn, active, phase, appended, rfl⟩ := step_appendBegin stepped
    exact moved_of_update active rfl rfl (fun _ => .inl rfl) (appendRecord_synced appended) (by simp [Event.isAppend])
      (by simp) (by simp [phase, Phase.closing]) (by simp [phase, Phase.aborting])
  | lock txnId key mode =>
    obtain ⟨txn, active, -, rfl | ⟨next, -, rfl⟩⟩ := step_lock stepped
    · exact moved_of_same rfl rfl rfl (Nat.le_refl _) rfl (by simp)
    · exact moved_of_same rfl rfl rfl (Nat.le_refl _) rfl (by simp)
  | read txnId key image =>
    obtain ⟨txn, pools, active, -, -, -, rfl, loads⟩ := step_read stepped
    exact moved_of_update active (same active) rfl loads.sizes rfl (fun _ => rfl) (by simp) id id
  | write txnId key image =>
    obtain ⟨txn, pools, active, -, -, rfl, touches, -⟩ := step_write stepped
    exact moved_of_update active rfl rfl touches.sizes rfl (fun _ => rfl) (by simp) id id
  | allocate txnId key =>
    obtain ⟨txn, pools, locks, active, -, -, rfl, touches, -⟩ := step_allocate wellFormed stepped
    exact moved_of_update active rfl rfl touches.sizes rfl (fun _ => rfl) (by simp) id id
  | commit txnId =>
    obtain ⟨txn, active, phase, rfl⟩ := step_commit stepped
    exact moved_of_update active rfl rfl (fun _ => .inl rfl) rfl (fun _ => rfl) (by simp)
      (by simp [phase, Phase.closing]) (by simp [phase, Phase.aborting])
  | appendUpdate txnId key image =>
    obtain ⟨txn, pending, pools, log, lsn, active, phase, -, -, appended, rfl, loads, -⟩ := step_appendUpdate stepped
    exact moved_of_update active rfl rfl loads.sizes (appendRecord_synced appended) (by simp [Event.isAppend])
      (by simp) (by simp [phase, Phase.closing]) (by simp [phase, Phase.aborting])
  | appendCommit txnId =>
    obtain ⟨txn, log, lsn, active, phase, appended, rfl⟩ := step_appendCommit stepped
    exact moved_of_update active rfl rfl (fun _ => .inl rfl) (appendRecord_synced appended) (by simp [Event.isAppend])
      (by simp) (by simp [Phase.closing]) (by simp [phase, Phase.aborting])
  | flushBegin txnId =>
    obtain ⟨txn, lsn, -, -, -, -, rfl⟩ := step_flushBegin stepped
    exact moved_of_same rfl rfl rfl (Nat.le_refl _) rfl (by simp)
  | fsync txnId covered =>
    obtain ⟨flusher, -, -, -, -, rfl⟩ := step_fsync stepped
    exact moved_of_same rfl rfl rfl (Nat.le_max_left _ _) rfl (by simp)
  | flushEnd txnId =>
    obtain ⟨flusher, -, -, -, rfl⟩ := step_flushEnd stepped
    exact moved_of_same rfl rfl rfl (Nat.le_refl _) rfl (by simp)
  | flushReturn txnId =>
    obtain ⟨txn, lsn, active, phase, -, rfl⟩ := step_flushReturn stepped
    exact moved_of_update active rfl rfl (fun _ => .inl rfl) rfl (fun _ => rfl) (by simp)
      (by simp [Phase.closing]) (by simp [phase, Phase.aborting])
  | flushPage txnId key =>
    obtain ⟨txn, pending, pools, active, phase, -, rfl, touches, -⟩ := step_flushPage stepped
    exact moved_of_update active rfl rfl touches.sizes rfl (fun _ => rfl) (by simp)
      (by simp [Phase.closing]) (by simp [phase, Phase.aborting])
  | flushPageTorn txnId key written =>
    obtain ⟨txn, pending, pools, active, phase, -, rfl, touches, -⟩ := step_flushPageTorn stepped
    exact moved_of_update active (same active) rfl touches.sizes rfl (fun _ => rfl) (by simp) id id
  | commitRelease txnId =>
    obtain ⟨txn, active, phase, rfl⟩ := step_commitRelease stepped
    exact moved_of_finish active (fun _ => rfl) (by simp [phase, Phase.aborting])
  | abort txnId =>
    obtain ⟨txn, active, phase, rfl⟩ := step_abort stepped
    exact moved_of_update active rfl rfl (fun _ => .inl rfl) rfl (fun _ => rfl) (by simp)
      (by simp [phase, Phase.closing]) (by simp [Phase.aborting])
  | discardPage txnId key =>
    obtain ⟨txn, pending, pools, active, phase, -, rfl, touches, -⟩ := step_discardPage stepped
    exact moved_of_update active rfl rfl touches.sizes rfl (fun _ => rfl) (by simp)
      (by simp [phase, Phase.closing]) (by simp [Phase.aborting])
  | appendAbort txnId =>
    obtain ⟨txn, log, lsn, active, phase, appended, rfl⟩ := step_appendAbort stepped
    exact moved_of_update active rfl rfl (fun _ => .inl rfl) (appendRecord_synced appended) (by simp [Event.isAppend])
      (by simp) (by simp [phase, Phase.closing]) (by simp [Phase.aborting])
  | abortRelease txnId =>
    obtain ⟨txn, active, phase, rfl⟩ := step_abortRelease stepped
    exact moved_of_finish active (by simp [phase, Phase.closing]) (by simp)

theorem step_access (wellFormed : s.WellFormed) (stepped : s.step event = some s') :
    event.access = none ∨ ∃ txn txn', s.activeTxns event.txnId = some txn ∧ txn.phase = .running ∧
      s'.activeTxns event.txnId = some txn' ∧ txn'.phase = .running := by
  cases event with
  | read txnId key image =>
    obtain ⟨txn, pools, active, running, -, -, rfl, -⟩ := step_read stepped
    exact .inr ⟨txn, txn, active, running, active, running⟩
  | write txnId key image =>
    obtain ⟨txn, pools, active, running, -, rfl, -⟩ := step_write stepped
    exact .inr ⟨txn, _, active, running, Function.update_self .., running⟩
  | allocate txnId key =>
    obtain ⟨txn, pools, locks, active, running, -, rfl, -⟩ := step_allocate wellFormed stepped
    exact .inr ⟨txn, _, active, running, Function.update_self .., running⟩
  | _ => exact .inl rfl

end Engine

end FlintDB
