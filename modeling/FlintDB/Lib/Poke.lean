import Mathlib.Data.List.Basic

set_option autoImplicit false

-- A routine that fills memory, as the list of what it writes where.

namespace FlintDB.Lib

universe u

variable {A : Type u}

-- A memcpy or a memset.
structure Poke (A : Type u) where
  offset : Nat
  data : List A

namespace Poke

/-- Every cell written is one of the first `size` cells. -/
def Within (write : Poke A) (size : Nat) : Prop :=
  ∀ cell, write.offset ≤ cell → cell < write.offset + write.data.length → cell < size

def apply (memory : Nat → A) (write : Poke A) : Nat → A := fun cell =>
  if write.offset ≤ cell then (write.data[cell - write.offset]?).getD (memory cell) else memory cell

def applyAll (memory : Nat → A) (writes : List (Poke A)) : Nat → A := writes.foldl apply memory

variable {memory : Nat → A} {write : Poke A} {writes : List (Poke A)} {cell : Nat}

@[simp] theorem applyAll_nil (memory : Nat → A) : applyAll memory [] = memory := rfl

@[simp] theorem applyAll_cons (memory : Nat → A) (write : Poke A) (writes : List (Poke A)) :
    applyAll memory (write :: writes) = applyAll (apply memory write) writes := rfl

theorem within_iff {size : Nat} : write.Within size ↔ write.data = [] ∨ write.offset + write.data.length ≤ size := by
  constructor
  · intro within
    by_cases empty : write.data = []
    · exact .inl empty
    · have positive := List.length_pos_of_ne_nil empty
      have last := within (write.offset + write.data.length - 1) (by omega) (by omega)
      exact .inr (by omega)
  · rintro (empty | fits) cell low high
    · rw [empty, List.length_nil] at high
      omega
    · omega

theorem apply_outside (outside : cell < write.offset ∨ write.offset + write.data.length ≤ cell) :
    apply memory write cell = memory cell := by
  rw [apply]
  split
  · rw [List.getElem?_eq_none (by omega), Option.getD_none]
  · rfl

theorem apply_inside (offset : Nat) {data : List A} {i : Nat} {value : A} (there : data[i]? = some value) :
    apply memory ⟨offset, data⟩ (offset + i) = value := by
  rw [apply, if_pos (Nat.le_add_right _ _), Nat.add_sub_cancel_left, there, Option.getD_some]

theorem applyAll_outside (outside : ∀ write ∈ writes, cell < write.offset ∨ write.offset + write.data.length ≤ cell) :
    applyAll memory writes cell = memory cell := by
  induction writes generalizing memory with
  | nil => rfl
  | cons write writes ih =>
    rw [List.forall_mem_cons] at outside
    rw [applyAll_cons, ih outside.2, apply_outside outside.1]

theorem applyAll_behind {size : Nat} (within : ∀ write ∈ writes, write.Within size) (behind : size ≤ cell) :
    applyAll memory writes cell = memory cell := by
  refine applyAll_outside fun write member => ?_
  by_contra inside
  have covered : write.offset ≤ cell ∧ cell < write.offset + write.data.length := by omega
  exact Nat.not_lt.mpr behind (within write member cell covered.1 covered.2)

end Poke

end FlintDB.Lib
