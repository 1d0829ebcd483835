import FlintDB.Lib.LittleEndian
import Mathlib.Logic.Function.Basic

set_option autoImplicit false

-- A running checksum whose every turn loses nothing, neither of the state nor of the element, tells two lists apart
-- that differ in one place.

namespace FlintDB.Lib

universe u v

variable {H : Type u} {B : Type v} {step : H → B → H}

theorem foldl_injective (state : ∀ b, Function.Injective fun hash => step hash b) (data : List B) :
    Function.Injective fun hash => data.foldl step hash := by
  induction data with
  | nil => exact Function.injective_id
  | cons b rest ih => exact ih.comp (state b)

theorem foldl_set_ne (state : ∀ b, Function.Injective fun hash => step hash b)
    (input : ∀ hash, Function.Injective (step hash)) {data : List B} {i : Nat} {old new : B}
    (found : data[i]? = some old) (changed : new ≠ old) (start : H) :
    (data.set i new).foldl step start ≠ data.foldl step start := by
  induction data generalizing i start with
  | nil => cases found
  | cons b rest ih =>
    cases i with
    | zero =>
      cases found
      intro same
      exact changed (input start (foldl_injective state rest same))
    | succ i => exact ih found (step start b)

theorem leDecode_injective {first second : Bytes} (width : first.length = second.length)
    (same : leDecode first = leDecode second) : first = second := by
  induction first generalizing second with
  | nil =>
    rw [List.length_nil] at width
    exact (List.length_eq_zero_iff.mp width.symm).symm
  | cons b rest ih =>
    cases second with
    | nil => cases width
    | cons b' rest' =>
      have low := b.toNat_lt
      have low' := b'.toNat_lt
      simp only [leDecode] at same
      have byte : b = b' := UInt8.toNat.inj (by omega)
      have tail : rest = rest' := ih (Nat.succ.inj width) (by omega)
      rw [byte, tail]

end FlintDB.Lib
