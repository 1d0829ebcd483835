import FlintDB.Lib.LittleEndian
import Mathlib.Algebra.Order.BigOperators.Group.List
import Mathlib.Data.List.Basic

set_option autoImplicit false

-- Records stand one after another. The scan stops at the first that does not parse, so a file cut anywhere still
-- yields every record that lies completely before the cut.

namespace FlintDB.Lib

universe u v

variable {R : Type u} {R' : Type v}

-- The records that lie completely within the first `n` bytes.
def within (size : R → Nat) : List R → Nat → List R
  | [], _ => []
  | record :: rest, n =>
    if size record ≤ n then record :: within size rest (n - size record) else []

-- The scan loop; every turn consumes a record, so a bound on the turns is no restriction.
def scan (parse : Bytes → Option R) (size : R → Nat) : Nat → Bytes → List R
  | 0, _ => []
  | fuel + 1, data =>
    match parse data with
    | none => []
    | some record => record :: scan parse size fuel (data.drop (size record))

section Within

variable {size : R → Nat}

theorem within_isPrefix (size : R → Nat) (records : List R) (n : Nat) : within size records n <+: records := by
  induction records generalizing n with
  | nil => exact List.prefix_rfl
  | cons record rest ih =>
    simp only [within]
    split
    · exact List.cons_prefix_cons.mpr ⟨rfl, ih _⟩
    · exact List.nil_prefix

theorem within_size (records : List R) (n : Nat) : ((within size records n).map size).sum ≤ n := by
  induction records generalizing n with
  | nil => simp [within]
  | cons record rest ih =>
    simp only [within]
    split
    · rename_i fits
      have tail := ih (n - size record)
      simp only [List.map_cons, List.sum_cons]
      omega
    · simp

theorem prefix_within {before records : List R} {n : Nat} (isPrefix : before <+: records)
    (fits : (before.map size).sum ≤ n) : before <+: within size records n := by
  induction records generalizing before n with
  | nil => simpa [within] using isPrefix
  | cons record rest ih =>
    cases before with
    | nil => exact List.nil_prefix
    | cons first tail =>
      obtain ⟨rfl, tailPrefix⟩ := List.cons_prefix_cons.mp isPrefix
      simp only [List.map_cons, List.sum_cons] at fits
      rw [within, if_pos (by omega)]
      exact List.cons_prefix_cons.mpr ⟨rfl, ih tailPrefix (by omega)⟩

theorem within_all {records : List R} {n : Nat} (fits : (records.map size).sum ≤ n) :
    within size records n = records :=
  (within_isPrefix size records n).eq_of_length_le (prefix_within List.prefix_rfl fits).length_le

theorem within_append {first second : List R} {n : Nat} (fits : (first.map size).sum ≤ n) :
    within size (first ++ second) n =
      first ++ within size second (n - (first.map size).sum) := by
  induction first generalizing n with
  | nil => simp
  | cons record rest ih =>
    simp only [List.map_cons, List.sum_cons] at fits
    rw [List.cons_append, within, if_pos (by omega), ih (by omega)]
    simp only [List.map_cons, List.sum_cons, List.cons_append, Nat.sub_sub]

theorem within_map (f : R → R') {size' : R' → Nat} (same : ∀ record, size' (f record) = size record)
    (records : List R) (n : Nat) :
    (within size records n).map f = within size' (records.map f) n := by
  induction records generalizing n with
  | nil => rfl
  | cons record rest ih =>
    simp only [within, List.map_cons, same]
    split
    · rw [List.map_cons, ih]
    · rfl

end Within

section Scan

variable {parse : Bytes → Option R} {encode : R → Bytes} {size : R → Nat} {canonical : R → Prop}

theorem flatMap_encode_length (length : ∀ record, (encode record).length = size record)
    (records : List R) : (records.flatMap encode).length = (records.map size).sum := by
  induction records with
  | nil => rfl
  | cons record rest ih => simp [ih, length]

theorem scan_cut (whole : ∀ record rest, canonical record →
      parse (encode record ++ rest) = some record)
    (torn : ∀ record n, n < (encode record).length → parse ((encode record).take n) = none)
    (empty : parse [] = none) (length : ∀ record, (encode record).length = size record)
    (positive : ∀ record, 0 < size record) {records : List R}
    (all : ∀ record ∈ records, canonical record) (n fuel : Nat)
    (enough : ((records.flatMap encode).take n).length ≤ fuel) :
    scan parse size fuel ((records.flatMap encode).take n) = within size records n := by
  induction records generalizing n fuel with
  | nil => cases fuel <;> simp [scan, within, empty]
  | cons record rest ih =>
    simp only [within]
    split
    · rename_i fits
      have cut : ((record :: rest).flatMap encode).take n =
          encode record ++ (rest.flatMap encode).take (n - size record) := by
        rw [List.flatMap_cons, List.take_append, List.take_of_length_le (by rw [length]; exact fits),
          length]
      rw [cut, List.length_append, length] at enough
      have first := positive record
      cases fuel with
      | zero => omega
      | succ fuel =>
        rw [cut, scan, whole record _ (all record List.mem_cons_self)]
        simp only
        rw [List.drop_left' (length record)]
        rw [ih (fun record member => all record (List.mem_cons_of_mem _ member)) _ _ (by omega)]
    · rename_i short
      have cut : ((record :: rest).flatMap encode).take n = (encode record).take n := by
        rw [List.flatMap_cons, List.take_append_of_le_length (by rw [length]; omega)]
      rw [cut]
      cases fuel with
      | zero => rfl
      | succ fuel => rw [scan, torn record n (by rw [length]; omega)]

theorem scan_append (whole : ∀ record rest, canonical record → parse (encode record ++ rest) = some record)
    (length : ∀ record, (encode record).length = size record) {records : List R}
    (all : ∀ record ∈ records, canonical record) (tail : Bytes) (fuel : Nat) :
    scan parse size (records.length + fuel) (records.flatMap encode ++ tail) = records ++ scan parse size fuel tail := by
  induction records with
  | nil => simp
  | cons record rest ih =>
    rw [List.length_cons, Nat.add_right_comm, List.flatMap_cons, List.append_assoc, scan,
      whole record _ (all record List.mem_cons_self)]
    simp only
    rw [List.drop_left' (length record), ih fun other member => all other (List.mem_cons_of_mem _ member),
      List.cons_append]

theorem scan_stops (whole : ∀ record rest, canonical record → parse (encode record ++ rest) = some record)
    (length : ∀ record, (encode record).length = size record) {records : List R}
    (all : ∀ record ∈ records, canonical record) {tail : Bytes} (stops : parse tail = none) (fuel : Nat)
    (enough : records.length ≤ fuel) : scan parse size fuel (records.flatMap encode ++ tail) = records := by
  obtain ⟨more, rfl⟩ := Nat.exists_eq_add_of_le enough
  rw [scan_append whole length all]
  cases more <;> simp [scan, stops]

end Scan

end FlintDB.Lib
