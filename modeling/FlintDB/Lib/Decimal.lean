import FlintDB.Lib.LittleEndian

set_option autoImplicit false

namespace FlintDB.Lib

namespace Decimal

def isDigit (c : UInt8) : Bool := 48 ≤ c && c ≤ 57

def value (digits : Bytes) : Nat := digits.foldl (fun value digit => 10 * value + (digit.toNat - 48)) 0

def text (n : Nat) : Bytes := (Nat.toDigits 10 n).map Char.toUInt8

theorem digit_toUInt8 {c : Char} (digit : c.isDigit = true) :
    isDigit c.toUInt8 = true ∧ c.toUInt8.toNat - 48 = c.toNat - 48 := by
  simp only [Char.isDigit, ge_iff_le, Bool.and_eq_true, decide_eq_true_eq, UInt32.le_iff_toNat_le] at digit
  have low : 48 ≤ c.toNat := digit.1
  have high : c.toNat ≤ 57 := digit.2
  have same : c.toUInt8.toNat = c.toNat := by
    show c.toNat % 256 = c.toNat
    omega
  refine ⟨?_, by rw [same]⟩
  simp only [isDigit, Bool.and_eq_true, decide_eq_true_eq, UInt8.le_iff_toNat_le, UInt8.reduceToNat, same]
  exact ⟨low, high⟩

theorem text_ne_nil (n : Nat) : text n ≠ [] := by simp [text, Nat.toDigits_ne_nil]

theorem text_digits (n : Nat) : ∀ c ∈ text n, isDigit c = true := by
  rw [text, List.forall_mem_map]
  exact fun c member => (digit_toUInt8 (Nat.isDigit_of_mem_toDigits (by decide) (by decide) member)).1

theorem foldl_digits (digits : List Char) (isDigits : ∀ c ∈ digits, c.isDigit = true) (start : Nat) :
    (digits.map Char.toUInt8).foldl (fun value digit => 10 * value + (digit.toNat - 48)) start =
      Nat.ofDigitChars 10 digits start := by
  induction digits generalizing start with
  | nil => rfl
  | cons c digits ih =>
    rw [List.forall_mem_cons] at isDigits
    rw [List.map_cons, List.foldl_cons, (digit_toUInt8 isDigits.1).2, ih isDigits.2, Nat.ofDigitChars_cons]
    rfl

theorem value_text (n : Nat) : value (text n) = n := by
  rw [value, text, foldl_digits, Nat.ofDigitChars_ten_toDigits]
  exact fun c member => Nat.isDigit_of_mem_toDigits (by decide) (by decide) member

theorem head_text {n : Nat} (positive : 0 < n) : (text n).head? ≠ some 48 := by
  have oneDigit : ∀ n < 10, 0 < n → (Nat.digitChar n).toUInt8 ≠ 48 := by decide
  induction n using Nat.strongRecOn with
  | ind n ih =>
    rcases Nat.lt_or_ge n 10 with small | large
    · rw [text, Nat.toDigits_of_lt_base small, List.map_singleton, List.head?_cons]
      exact fun zero => oneDigit n small positive (Option.some.inj zero)
    · have shorter := ih (n / 10) (Nat.div_lt_self positive (by decide)) (Nat.div_pos large (by decide))
      rw [text, Nat.toDigits_of_base_le (by decide) large, List.map_append, List.head?_append_of_ne_nil]
      · exact shorter
      · exact text_ne_nil _

end Decimal

end FlintDB.Lib
