import FlintDB.Common.Config

set_option autoImplicit false

namespace FlintDB

/-- One object's data file; next_page_id_ is its length in pages. -/
structure DiskManager where
  pages : List PageImage := []
  deriving DecidableEq

namespace DiskManager

def numPages (disk : DiskManager) : Nat := disk.pages.length

-- `id + 1` is a uint32_t sum, and the file is truncated to that many pages: the last id wraps the
-- counter and empties the file.
def allocatePage (disk : DiskManager) : Nat × DiskManager :=
  (disk.numPages,
    { pages := (disk.pages ++ [PageImage.zero]).take ((disk.numPages + 1) % 2 ^ 32) })

-- `none` is std::out_of_range: the page was never allocated.
def readPage (disk : DiskManager) (pageId : Nat) : Option PageImage := disk.pages[pageId]?

def writePage (disk : DiskManager) (pageId : Nat) (image : PageImage) : Option DiskManager :=
  if pageId < disk.numPages then some { pages := disk.pages.set pageId image } else none

/-- The content of a page, all zero where the file does not reach. -/
def image (disk : DiskManager) (pageId : Nat) : PageImage := (disk.readPage pageId).getD .zero

theorem allocatePage_eq (disk : DiskManager) (room : disk.numPages + 1 < 2 ^ 32) :
    disk.allocatePage = (disk.numPages, { pages := disk.pages ++ [PageImage.zero] }) := by
  rw [allocatePage, Nat.mod_eq_of_lt room, List.take_of_length_le (by simp [numPages])]

theorem writePage_some {disk disk' : DiskManager} {pageId : Nat} {image : PageImage}
    (written : disk.writePage pageId image = some disk') :
    pageId < disk.numPages ∧ disk' = { pages := disk.pages.set pageId image } := by
  simp only [writePage] at written
  split at written
  · rename_i within
    cases written
    exact ⟨within, rfl⟩
  · cases written

@[simp] theorem image_set (disk : DiskManager) (pageId other : Nat) (image : PageImage)
    (within : pageId < disk.numPages) :
    DiskManager.image { pages := disk.pages.set pageId image } other =
      if other = pageId then image else disk.image other := by
  simp only [DiskManager.image, readPage, List.getElem?_set, numPages] at *
  by_cases same : pageId = other
  · subst same
    simp [within]
  · simp [same, Ne.symm same]

theorem image_append_zero (disk : DiskManager) (other : Nat) :
    DiskManager.image { pages := disk.pages ++ [PageImage.zero] } other = disk.image other := by
  simp only [DiskManager.image, readPage, List.getElem?_append]
  split
  · rfl
  · rename_i beyond
    rw [List.getElem?_eq_none (by omega : disk.pages.length ≤ other)]
    cases h : [PageImage.zero][other - disk.pages.length]? with
    | none => rfl
    | some found =>
      have member := List.mem_of_getElem? h
      simp only [List.mem_singleton] at member
      simp [member]

end DiskManager

/-- The data files of a directory by object id, both ids being 32 bits wide. -/
structure DataFiles where
  file : Nat → Option DiskManager
  fits : ∀ objectId disk, file objectId = some disk → objectId < 2 ^ 32 ∧ disk.numPages < 2 ^ 32

end FlintDB
