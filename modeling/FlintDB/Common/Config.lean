import FlintDB.Lib.LittleEndian

set_option autoImplicit false

namespace FlintDB

open Lib

-- PageId, SlotId, ObjectId, TxnId and Lsn are Nat here; a width that matters is written out at the
-- codecs and where page ids are allocated.
def invalidPageId : Nat := 2 ^ 32 - 1
def invalidObjectId : Nat := 2 ^ 32 - 1
def pageSize : Nat := 4096

-- The largest offset an `off_t` can name: a write() past it fails with EFBIG.
def maxFileSize : Nat := 2 ^ 63 - 1

structure RID where
  pageId : Nat := invalidPageId
  slotId : Nat := 0
  deriving DecidableEq, Repr

structure PageKey where
  objectId : Nat := invalidObjectId
  pageId : Nat := invalidPageId
  deriving DecidableEq, Repr

/-- The bytes of one page. -/
structure PageImage where
  bytes : Bytes
  size_eq : bytes.length = pageSize
  deriving DecidableEq

namespace PageImage

-- A memcpy of `data` into a zero-initialised page buffer.
def ofBytes (data : Bytes) : PageImage where
  bytes := data.take pageSize ++ List.replicate (pageSize - data.length) 0
  size_eq := by
    simp only [List.length_append, List.length_take, List.length_replicate]
    omega

def zero : PageImage := ofBytes []

theorem ofBytes_bytes (image : PageImage) : ofBytes image.bytes = image := by
  cases image with
  | mk bytes size_eq => simp [ofBytes, size_eq, List.take_of_length_le]

-- A page write that stopped after `n` bytes.
def overwrite (n : Nat) (new old : PageImage) : PageImage where
  bytes := new.bytes.take n ++ old.bytes.drop n
  size_eq := by
    simp only [List.length_append, List.length_take, List.length_drop, new.size_eq, old.size_eq]
    omega

theorem overwrite_all (new old : PageImage) : overwrite pageSize new old = new := by
  cases new with
  | mk bytes size_eq =>
    simp [overwrite, ← size_eq, List.drop_eq_nil_of_le, old.size_eq]

theorem overwrite_byte (n : Nat) (new old : PageImage) (i : Nat) :
    (overwrite n new old).bytes[i]? = new.bytes[i]? ∨ (overwrite n new old).bytes[i]? = old.bytes[i]? := by
  have sizes : new.bytes.length = old.bytes.length := new.size_eq.trans old.size_eq.symm
  simp only [overwrite, List.getElem?_append, List.length_take, List.getElem?_take, List.getElem?_drop]
  by_cases early : i < n
  · left
    split
    · simp
    · rw [List.getElem?_eq_none (by omega), List.getElem?_eq_none (by omega)]
  · right
    split
    · omega
    · rename_i beyond
      by_cases within : n ≤ new.bytes.length
      · rw [Nat.min_eq_left within]
        congr 1
        omega
      · rw [List.getElem?_eq_none (by omega), List.getElem?_eq_none (by omega)]

-- Every byte is that of one page or of the other.
def MixedOf (image first second : PageImage) : Prop :=
  ∀ i : Nat, image.bytes[i]? = first.bytes[i]? ∨ image.bytes[i]? = second.bytes[i]?

end PageImage

end FlintDB
