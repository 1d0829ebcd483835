import Mathlib.Data.List.Basic
import Mathlib.Tactic.Ring

set_option autoImplicit false

namespace FlintDB.Lib

abbrev Bytes := List UInt8

def leEncode : Nat → Nat → Bytes
  | 0, _ => []
  | width + 1, n => UInt8.ofNat (n % 256) :: leEncode width (n / 256)

def leDecode : Bytes → Nat
  | [] => 0
  | b :: bs => b.toNat + 256 * leDecode bs

@[simp] theorem leEncode_length (width n : Nat) : (leEncode width n).length = width := by
  induction width generalizing n with
  | zero => rfl
  | succ width ih => simp [leEncode, ih]

theorem leDecode_leEncode (width n : Nat) : leDecode (leEncode width n) = n % 256 ^ width := by
  induction width generalizing n with
  | zero => simp [leEncode, leDecode, Nat.mod_one]
  | succ width ih =>
    have low : (UInt8.ofNat (n % 256)).toNat = n % 256 := by
      simp [UInt8.toNat_ofNat']
    rw [leEncode, leDecode, low, ih, Nat.pow_succ, Nat.mul_comm (256 ^ width) 256, Nat.mod_mul]

theorem leDecode_leEncode_of_lt {width n : Nat} (bound : n < 256 ^ width) :
    leDecode (leEncode width n) = n := by
  rw [leDecode_leEncode, Nat.mod_eq_of_lt bound]

theorem leDecode_lt (bs : Bytes) : leDecode bs < 256 ^ bs.length := by
  induction bs with
  | nil => simp [leDecode]
  | cons b bs ih =>
    have byte := b.toNat_lt
    simp only [leDecode, List.length_cons, Nat.pow_succ]
    omega

theorem leEncode_leDecode (bs : Bytes) : leEncode bs.length (leDecode bs) = bs := by
  induction bs with
  | nil => rfl
  | cons b bs ih =>
    have byte := b.toNat_lt
    have low : (b.toNat + 256 * leDecode bs) % 256 = b.toNat := by omega
    have high : (b.toNat + 256 * leDecode bs) / 256 = leDecode bs := by omega
    rw [List.length_cons, leEncode, leDecode, low, high, ih, UInt8.ofNat_toNat]

theorem leEncode_mod (width n : Nat) : leEncode width (n % 256 ^ width) = leEncode width n := by
  induction width generalizing n with
  | zero => rfl
  | succ width ih =>
    have low : n % 256 ^ (width + 1) % 256 = n % 256 := by
      rw [Nat.pow_succ, Nat.mul_comm, Nat.mod_mul_right_mod]
    have high : n % 256 ^ (width + 1) / 256 = n / 256 % 256 ^ width := by
      rw [Nat.pow_succ, Nat.mul_comm, Nat.mod_mul_right_div_self]
    rw [leEncode, leEncode, low, high, ih]

end FlintDB.Lib
