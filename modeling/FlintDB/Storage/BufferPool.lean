import Mathlib.Data.Finset.Basic
import Mathlib.Logic.Function.Basic
import FlintDB.Storage.DiskManager

set_option autoImplicit false

namespace FlintDB

structure BufferPool where
  disk : DiskManager
  pages : Nat → Option PageImage := fun _ => none
  dirty : Finset Nat := ∅

namespace BufferPool

-- The observer a transaction installs is the caller's: it learns the page id from the result.
def newPage (pool : BufferPool) : Nat × BufferPool :=
  let (pageId, disk) := pool.disk.allocatePage
  (pageId, {
    disk := disk
    pages := Function.update pool.pages pageId (some .zero)
    dirty := insert pageId pool.dirty })

def fetchPage (pool : BufferPool) (pageId : Nat) : Option (PageImage × BufferPool) :=
  match pool.pages pageId with
  | some image => some (image, pool)
  | none =>
    match pool.disk.readPage pageId with
    | none => none
    | some image =>
      some (image, { pool with pages := Function.update pool.pages pageId (some image) })

-- Bytes stored through the Page* of a cached page, followed by MarkDirty.
def writeDirty (pool : BufferPool) (pageId : Nat) (image : PageImage) : BufferPool :=
  { pool with
    pages := Function.update pool.pages pageId (some image)
    dirty := insert pageId pool.dirty }

-- One page of FlushPages.
def flushPage (pool : BufferPool) (pageId : Nat) : Option BufferPool :=
  match pool.pages pageId with
  | none => some pool
  | some image =>
    if pageId ∈ pool.dirty then
      match pool.disk.writePage pageId image with
      | none => none
      | some disk => some { pool with disk := disk, dirty := pool.dirty.erase pageId }
    else some pool

-- FlushPages stopped by a crash with `n` bytes of this page written.
def flushPageTorn (pool : BufferPool) (pageId n : Nat) : Option BufferPool :=
  match pool.pages pageId with
  | none => some pool
  | some image =>
    if pageId ∈ pool.dirty then
      match pool.disk.writePage pageId (.overwrite n image (pool.disk.image pageId)) with
      | none => none
      | some disk => some { pool with disk := disk }
    else some pool

def discardPage (pool : BufferPool) (pageId : Nat) : Option BufferPool :=
  match pool.pages pageId with
  | none => some pool
  | some _ =>
    match pool.disk.readPage pageId with
    | none => none
    | some image =>
      some { pool with
        pages := Function.update pool.pages pageId (some image)
        dirty := pool.dirty.erase pageId }

/-- What a reader of the page sees: the cached copy, else the data file's. -/
def content (pool : BufferPool) (pageId : Nat) : PageImage :=
  (pool.pages pageId).getD (pool.disk.image pageId)

/-- Only allocated pages are cached. -/
def WellFormed (pool : BufferPool) : Prop :=
  ∀ pageId, pool.pages pageId ≠ none → pageId < pool.disk.numPages

/-- The page read into the cache; its content stays what it was. -/
def load (pool : BufferPool) (pageId : Nat) : BufferPool :=
  { pool with pages := Function.update pool.pages pageId (some (pool.content pageId)) }

section Specs

variable {pool next : BufferPool} {pageId : Nat}

theorem content_of_uncached (uncached : pool.pages pageId = none) :
    pool.content pageId = pool.disk.image pageId := by
  simp [content, uncached]

theorem content_of_cached {image : PageImage} (cached : pool.pages pageId = some image) :
    pool.content pageId = image := by
  simp [content, cached]

theorem newPage_eq (room : pool.disk.numPages + 1 < 2 ^ 32) :
    pool.newPage = (pool.disk.numPages, {
      disk := { pages := pool.disk.pages ++ [PageImage.zero] }
      pages := Function.update pool.pages pool.disk.numPages (some .zero)
      dirty := insert pool.disk.numPages pool.dirty }) := by
  simp only [newPage, DiskManager.allocatePage_eq _ room]

theorem content_beyond (wellFormed : pool.WellFormed) (beyond : pool.disk.numPages ≤ pageId) :
    pool.content pageId = .zero := by
  have uncached : pool.pages pageId = none := by
    by_contra cached
    have within := wellFormed _ cached
    omega
  rw [content_of_uncached uncached, DiskManager.image, DiskManager.readPage,
    List.getElem?_eq_none beyond, Option.getD_none]

theorem fetchPage_some {image : PageImage} (fetched : pool.fetchPage pageId = some (image, next)) :
    image = pool.content pageId ∧ next = pool.load pageId ∧
      (pool.WellFormed → pageId < pool.disk.numPages) := by
  unfold fetchPage at fetched
  split at fetched
  · rename_i found cached
    cases fetched
    refine ⟨(content_of_cached cached).symm, ?_, fun wellFormed => wellFormed _ (by simp [cached])⟩
    simp [load, content_of_cached cached, ← cached]
  · rename_i uncached
    split at fetched
    · cases fetched
    · rename_i found read
      cases fetched
      have imageEq : pool.content pageId = image := by
        rw [content_of_uncached uncached, DiskManager.image, read, Option.getD_some]
      exact ⟨imageEq.symm, by simp [load, imageEq],
        fun _ => (List.getElem?_eq_some_iff.mp read).1⟩

theorem content_load (pageId other : Nat) : (pool.load pageId).content other = pool.content other := by
  by_cases same : other = pageId
  · subst same
    simp [content, load]
  · simp [content, load, same]

theorem content_writeDirty (pageId other : Nat) (image : PageImage) :
    (pool.writeDirty pageId image).content other = if other = pageId then image else pool.content other := by
  by_cases same : other = pageId
  · subst same
    simp [content, writeDirty]
  · simp [content, writeDirty, same]

theorem fetchPage_within (within : pageId < pool.disk.numPages) :
    pool.fetchPage pageId = some (pool.content pageId, pool.load pageId) := by
  rw [fetchPage]
  cases cached : pool.pages pageId with
  | some image =>
    simp only [content_of_cached cached, load]
    rw [← cached, Function.update_eq_self]
  | none =>
    have read : pool.disk.readPage pageId = some (pool.disk.image pageId) := by
      rw [DiskManager.image, DiskManager.readPage, List.getElem?_eq_getElem within, Option.getD_some]
    simp only [read, load, content_of_uncached cached]

theorem flushPage_some (flushed : pool.flushPage pageId = some next) :
    ((pool.pages pageId = none ∨ pageId ∉ pool.dirty) ∧ next = pool) ∨
      (pool.pages pageId ≠ none ∧ pageId < pool.disk.numPages ∧ next = { pool with
        disk := { pages := pool.disk.pages.set pageId (pool.content pageId) }
        dirty := pool.dirty.erase pageId }) := by
  unfold flushPage at flushed
  split at flushed
  · rename_i uncached
    cases flushed
    exact .inl ⟨.inl uncached, rfl⟩
  · rename_i image cached
    split at flushed
    · split at flushed
      · cases flushed
      · rename_i disk written
        cases flushed
        obtain ⟨within, rfl⟩ := DiskManager.writePage_some written
        exact .inr ⟨by simp [cached], within, by simp [content_of_cached cached]⟩
    · rename_i clean
      cases flushed
      exact .inl ⟨.inr clean, rfl⟩

theorem flushPageTorn_some {n : Nat} (flushed : pool.flushPageTorn pageId n = some next) :
    next = pool ∨
      (pool.pages pageId ≠ none ∧ pageId < pool.disk.numPages ∧ ∃ image, next = { pool with
        disk := { pages := pool.disk.pages.set pageId image } }) := by
  unfold flushPageTorn at flushed
  split at flushed
  · cases flushed
    exact .inl rfl
  · rename_i image cached
    split at flushed
    · split at flushed
      · cases flushed
      · rename_i disk written
        cases flushed
        obtain ⟨within, rfl⟩ := DiskManager.writePage_some written
        exact .inr ⟨by simp [cached], within, _, rfl⟩
    · cases flushed
      exact .inl rfl

theorem discardPage_some (discarded : pool.discardPage pageId = some next) :
    (pool.pages pageId = none ∧ next = pool) ∨
      (pool.pages pageId ≠ none ∧ pageId < pool.disk.numPages ∧ next = { pool with
        pages := Function.update pool.pages pageId (some (pool.disk.image pageId))
        dirty := pool.dirty.erase pageId }) := by
  unfold discardPage at discarded
  split at discarded
  · rename_i uncached
    cases discarded
    exact .inl ⟨uncached, rfl⟩
  · rename_i image cached
    split at discarded
    · cases discarded
    · rename_i found read
      cases discarded
      have imageEq : pool.disk.image pageId = found := by
        rw [DiskManager.image, read, Option.getD_some]
      exact .inr ⟨by simp [cached], (List.getElem?_eq_some_iff.mp read).1, by rw [imageEq]⟩

end Specs

end BufferPool

end FlintDB
