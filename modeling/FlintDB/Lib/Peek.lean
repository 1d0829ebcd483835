import Mathlib.Data.List.Basic

set_option autoImplicit false

-- A computation that reads a buffer of bytes, with the ranges it read. What it was given for a range is not part of
-- the trace: whether a read stays inside is a question about offsets and lengths only.

namespace FlintDB.Lib

universe u v w

structure Peek (E : Type u) (α : Type v) where
  -- Offset and length of each read, in order.
  reads : List (Nat × Nat) := []
  result : Except E α

namespace Peek

variable {E : Type u} {α : Type v} {β : Type w}

def read (offset length : Nat) (value : α) : Peek E α := { reads := [(offset, length)], result := .ok value }

def throw (error : E) : Peek E α := { result := .error error }

def bind (first : Peek E α) (next : α → Peek E β) : Peek E β :=
  match first.result with
  | .error error => { reads := first.reads, result := .error error }
  | .ok value => { reads := first.reads ++ (next value).reads, result := (next value).result }

instance : Monad (Peek E) where
  pure value := { result := .ok value }
  bind := bind

theorem bind_eq {α β : Type v} (first : Peek E α) (next : α → Peek E β) : (first >>= next) = first.bind next := rfl

/-- Every byte read is one of the first `size` bytes. A range of no bytes reads none, wherever it is. -/
def Within (peek : Peek E α) (size : Nat) : Prop :=
  ∀ range ∈ peek.reads, ∀ byte, range.1 ≤ byte → byte < range.1 + range.2 → byte < size

theorem within_of_silent {peek : Peek E α} (silent : peek.reads = []) (size : Nat) : peek.Within size := by
  intro range isRead
  rw [silent] at isRead
  cases isRead

@[simp] theorem within_throw (error : E) (size : Nat) : (throw error : Peek E α).Within size := within_of_silent rfl size

@[simp] theorem within_pure {α : Type v} (value : α) (size : Nat) : (pure value : Peek E α).Within size :=
  within_of_silent rfl size

theorem within_read_iff {offset length size : Nat} {value : α} :
    (read offset length value : Peek E α).Within size ↔ length = 0 ∨ offset + length ≤ size := by
  simp only [Within, read, List.mem_singleton, forall_eq]
  constructor
  · intro within
    rcases Nat.eq_zero_or_pos length with empty | some
    · exact .inl empty
    · have last := within (offset + length - 1) (by omega) (by omega)
      omega
  · intro fits byte low high
    omega

theorem within_read {offset length size : Nat} {value : α} (fits : offset + length ≤ size) :
    (read offset length value : Peek E α).Within size := within_read_iff.mpr (.inr fits)

theorem within_bind {first : Peek E α} {next : α → Peek E β} {size : Nat} :
    (first.bind next).Within size ↔
      first.Within size ∧ ∀ value, first.result = .ok value → (next value).Within size := by
  rw [bind]
  cases ended : first.result with
  | error error =>
    simp only [reduceCtorEq, false_implies, implies_true, and_true]
    exact Iff.rfl
  | ok value =>
    simp only [Within, List.mem_append, Except.ok.injEq, forall_eq']
    constructor
    · intro all
      exact ⟨fun range isRead => all range (.inl isRead), fun range isRead => all range (.inr isRead)⟩
    · rintro ⟨before, after⟩ range (isRead | isRead)
      · exact before range isRead
      · exact after range isRead

theorem within_bind_of_ok {first : Peek E α} {next : α → Peek E β} {size : Nat} {value : α}
    (returned : first.result = .ok value) :
    (first.bind next).Within size ↔ first.Within size ∧ (next value).Within size := by
  rw [within_bind, returned]
  simp only [Except.ok.injEq, forall_eq']

theorem result_bind (first : Peek E α) (next : α → Peek E β) :
    (first.bind next).result = first.result.bind fun value => (next value).result := by
  rw [bind]
  cases first.result <;> rfl

theorem result_bind_of_ok {first : Peek E α} {next : α → Peek E β} {value : α} (returned : first.result = .ok value) :
    (first.bind next).result = (next value).result := by
  rw [result_bind, returned]
  rfl

theorem reads_bind_le {first : Peek E α} {next : α → Peek E β} {m n : Nat} (before : first.reads.length ≤ m)
    (after : ∀ value, first.result = .ok value → (next value).reads.length ≤ n) :
    (first.bind next).reads.length ≤ m + n := by
  rw [bind]
  cases ended : first.result with
  | error error => exact Nat.le_add_right_of_le before
  | ok value =>
    rw [List.length_append]
    exact Nat.add_le_add before (after value ended)

-- The error is not how the computation ends.
def Never (peek : Peek E α) (error : E) : Prop := peek.result ≠ .error error

theorem never_of_ok {peek : Peek E α} {value : α} (returned : peek.result = .ok value) (error : E) : peek.Never error := by
  rw [Never, returned]
  exact fun same => by cases same

theorem Never.bind {first : Peek E α} {next : α → Peek E β} {error : E} (before : first.Never error)
    (after : ∀ value, first.result = .ok value → (next value).Never error) : (first.bind next).Never error := by
  rw [Never, result_bind]
  cases ended : first.result with
  | error other =>
    rw [Never, ended] at before
    exact fun same => before (congrArg Except.error (Except.error.inj same))
  | ok value => exact after value ended

def Follows (peek peek' : Peek E α) (error : E) : Prop := peek.Never error → peek'.result = peek.result

theorem Follows.refl (peek : Peek E α) (error : E) : Follows peek peek error := fun _ => rfl

theorem Follows.bind {first first' : Peek E α} {next next' : α → Peek E β} {error : E}
    (before : Follows first first' error)
    (after : ∀ value, first.result = .ok value → Follows (next value) (next' value) error) :
    Follows (first.bind next) (first'.bind next') error := by
  intro never
  rw [Never, result_bind] at never
  rw [result_bind, result_bind]
  cases ended : first.result with
  | error other =>
    rw [ended] at never
    have other_ne : other ≠ error := fun same => never (congrArg Except.error same)
    rw [before fun same => other_ne (Except.error.inj (ended.symm.trans same)), ended]
    rfl
  | ok value =>
    rw [ended] at never
    rw [before fun same => (nomatch ended.symm.trans same), ended]
    exact after value ended never

-- This comes of it, and every byte read on the way is one of the first `size` bytes.
structure Gives (peek : Peek E α) (size : Nat) (outcome : Except E α) : Prop where
  result : peek.result = outcome
  within : peek.Within size

theorem gives_pure {α : Type v} (value : α) (size : Nat) : (pure value : Peek E α).Gives size (.ok value) :=
  ⟨rfl, within_pure value size⟩

theorem Gives.bind {first : Peek E α} {next : α → Peek E β} {size : Nat} {value : α} {outcome : Except E β}
    (before : first.Gives size (.ok value)) (after : (next value).Gives size outcome) :
    (first.bind next).Gives size outcome :=
  ⟨(result_bind_of_ok before.result).trans after.result, (within_bind_of_ok before.result).mpr ⟨before.within, after.within⟩⟩

section Walk

variable {S : Type v}

-- From place to place: a visit ends the walk, or says where it goes on.
def walk (visit : S → Peek E (α ⊕ S)) (exceeded : E) : Nat → S → Peek E α
  | 0, _ => throw exceeded
  | steps + 1, place => (visit place).bind fun
    | .inl value => { result := .ok value }
    | .inr next => walk visit exceeded steps next

-- The walk is at `next` after this many visits.
inductive Comes (visit : S → Peek E (α ⊕ S)) : Nat → S → S → Prop
  | here (place : S) : Comes visit 0 place place
  | onward {steps : Nat} {place next last : S} (goes : (visit place).result = .ok (.inr next))
    (rest : Comes visit steps next last) : Comes visit (steps + 1) place last

variable {visit : S → Peek E (α ⊕ S)} {exceeded : E}

theorem within_walk {steps size : Nat} {place : S} :
    (walk visit exceeded steps place).Within size ↔
      ∀ n < steps, ∀ last, Comes visit n place last → (visit last).Within size := by
  induction steps generalizing place with
  | zero => simp [walk]
  | succ steps ih =>
    rw [walk, within_bind]
    constructor
    · rintro ⟨first, rest⟩ n small last comes
      cases comes with
      | here => exact first
      | @onward n _ next _ goes comes =>
        exact ih.mp (rest (.inr next) goes) n (Nat.lt_of_succ_lt_succ small) last comes
    · intro all
      refine ⟨all 0 (Nat.succ_pos steps) place (.here place), fun value returned => ?_⟩
      cases value with
      | inl value => exact within_of_silent rfl size
      | inr next =>
        refine ih.mpr fun n small last comes => ?_
        exact all (n + 1) (Nat.succ_lt_succ small) last (.onward returned comes)

theorem walk_result_ok {steps : Nat} {place : S} {value : α} :
    (walk visit exceeded steps place).result = .ok value ↔
      ∃ n < steps, ∃ last, Comes visit n place last ∧ (visit last).result = .ok (.inl value) := by
  induction steps generalizing place with
  | zero => simp [walk, throw]
  | succ steps ih =>
    rw [walk, result_bind]
    constructor
    · intro returned
      rcases ended : (visit place).result with error | onward
      · rw [ended] at returned
        cases returned
      · rw [ended] at returned
        cases onward with
        | inl value =>
          cases returned
          exact ⟨0, Nat.succ_pos steps, place, .here place, ended⟩
        | inr next =>
          obtain ⟨n, small, last, comes, ends⟩ := ih.mp returned
          exact ⟨n + 1, Nat.succ_lt_succ small, last, .onward ended comes, ends⟩
    · rintro ⟨n, small, last, comes, ends⟩
      cases comes with
      | here =>
        rw [ends]
        rfl
      | @onward n _ next _ goes comes =>
        rw [goes]
        exact ih.mpr ⟨n, Nat.lt_of_succ_lt_succ small, last, comes, ends⟩

theorem never_walk {error : E} (each : ∀ place, (visit place).Never error) (other : exceeded ≠ error) (steps : Nat)
    (place : S) : (walk visit exceeded steps place).Never error := by
  induction steps generalizing place with
  | zero => exact fun same => other (Except.error.inj same)
  | succ steps ih =>
    refine (each place).bind fun value _ => ?_
    cases value with
    | inl value => exact never_of_ok rfl error
    | inr next => exact ih next

theorem Follows.walk {visit' : S → Peek E (α ⊕ S)} {error : E}
    (each : ∀ place, Follows (visit place) (visit' place) error) (steps : Nat) (place : S) :
    Follows (walk visit exceeded steps place) (walk visit' exceeded steps place) error := by
  induction steps generalizing place with
  | zero => exact Follows.refl _ error
  | succ steps ih =>
    refine (each place).bind fun value _ => ?_
    cases value with
    | inl value => exact Follows.refl _ error
    | inr next => exact ih next

theorem reads_walk_le {bound : Nat} (each : ∀ place, (visit place).reads.length ≤ bound) (steps : Nat) (place : S) :
    (walk visit exceeded steps place).reads.length ≤ steps * bound := by
  induction steps generalizing place with
  | zero => exact Nat.zero_le _
  | succ steps ih =>
    have whole : (walk visit exceeded (steps + 1) place).reads.length ≤ bound + steps * bound := by
      refine reads_bind_le (each place) fun value _ => ?_
      cases value with
      | inl value => exact Nat.zero_le _
      | inr next => exact ih next
    rw [Nat.succ_mul]
    omega

theorem Gives.walk_stop {steps size : Nat} {place : S} {value : α} (stops : (visit place).Gives size (.ok (.inl value))) :
    (walk visit exceeded (steps + 1) place).Gives size (.ok value) :=
  stops.bind ⟨rfl, within_of_silent rfl size⟩

theorem Gives.walk_onward {steps size : Nat} {place next : S} {outcome : Except E α}
    (goes : (visit place).Gives size (.ok (.inr next))) (rest : (walk visit exceeded steps next).Gives size outcome) :
    (walk visit exceeded (steps + 1) place).Gives size outcome :=
  goes.bind rest

end Walk

section Collect

variable {α : Type w} {β : Type v}

-- All that the items give.
def collect (body : α → Peek E (List β)) : List α → Peek E (List β)
  | [] => { result := .ok [] }
  | a :: rest => (body a).bind fun here => (collect body rest).bind fun others => { result := .ok (here ++ others) }

theorem within_collect {body : α → Peek E (List β)} {items : List α} {size : Nat}
    (returns : ∀ a ∈ items, ∃ here, (body a).result = .ok here) :
    (collect body items).Within size ↔ ∀ a ∈ items, (body a).Within size := by
  induction items with
  | nil => simp [collect, within_of_silent]
  | cons a rest ih =>
    rw [List.forall_mem_cons] at returns
    obtain ⟨⟨here, returned⟩, others⟩ := returns
    rw [collect, within_bind_of_ok returned, within_bind, ih others, List.forall_mem_cons]
    exact and_congr_right fun _ => and_iff_left fun _ _ => within_of_silent rfl size

theorem collect_returns {body : α → Peek E (List β)} {items : List α}
    (returns : ∀ a ∈ items, ∃ here, (body a).result = .ok here) : ∃ all, (collect body items).result = .ok all := by
  induction items with
  | nil => exact ⟨[], rfl⟩
  | cons a rest ih =>
    rw [List.forall_mem_cons] at returns
    obtain ⟨⟨here, returned⟩, others⟩ := returns
    obtain ⟨all, rest⟩ := ih others
    exact ⟨here ++ all, by rw [collect, result_bind_of_ok returned, result_bind_of_ok rest]⟩

theorem reads_collect_le {body : α → Peek E (List β)} {bound : Nat} (each : ∀ a, (body a).reads.length ≤ bound)
    (items : List α) : (collect body items).reads.length ≤ items.length * bound := by
  induction items with
  | nil => exact Nat.zero_le _
  | cons a rest ih =>
    have whole : (collect body (a :: rest)).reads.length ≤ bound + (rest.length * bound + 0) :=
      reads_bind_le (each a) fun _ _ => reads_bind_le ih fun _ _ => Nat.le_refl 0
    rw [List.length_cons, Nat.succ_mul]
    omega

end Collect

section First

variable {α : Type w} {β : Type v}

/-- What the first of the items to give something gives. -/
def first (body : α → Peek E (Option β)) : List α → Peek E (Option β)
  | [] => { result := .ok none }
  | a :: rest => (body a).bind fun
    | some found => { result := .ok (some found) }
    | none => first body rest

theorem within_first {body : α → Peek E (Option β)} {items : List α} {size : Nat} :
    (first body items).Within size ↔ ∀ before a after, items = before ++ a :: after →
      (∀ earlier ∈ before, (body earlier).result = .ok none) → (body a).Within size := by
  induction items with
  | nil => simp [first, within_of_silent]
  | cons a rest ih =>
    rw [first, within_bind]
    constructor
    · rintro ⟨here, onward⟩ before item after split earlier
      cases before with
      | nil =>
        cases split
        exact here
      | cons b before =>
        cases split
        rw [List.forall_mem_cons] at earlier
        exact ih.mp (onward none earlier.1) before item after rfl earlier.2
    · intro all
      refine ⟨all [] a rest rfl (by simp), fun found returned => ?_⟩
      cases found with
      | some found => exact within_of_silent rfl size
      | none =>
        refine ih.mpr fun before item after split earlier => ?_
        refine all (a :: before) item after (by rw [split]; rfl) ?_
        exact List.forall_mem_cons.mpr ⟨returned, earlier⟩

theorem first_result_none {body : α → Peek E (Option β)} {items : List α} :
    (first body items).result = .ok none ↔ ∀ a ∈ items, (body a).result = .ok none := by
  induction items with
  | nil => simp [first]
  | cons a rest ih =>
    rw [first, result_bind, List.forall_mem_cons, ← ih]
    rcases (body a).result with error | found
    · simp [Except.bind]
    · cases found <;> simp [Except.bind]

theorem within_first_range {body : Nat → Peek E (Option β)} {n size : Nat} :
    (first body (List.range n)).Within size ↔
      ∀ a < n, (∀ earlier < a, (body earlier).result = .ok none) → (body a).Within size := by
  rw [within_first]
  constructor
  · intro all a small earlier
    refine all (List.range a) a (List.range' (a + 1) (n - (a + 1))) ?_ fun b member =>
      earlier b (List.mem_range.mp member)
    have joined : List.range' 0 a ++ List.range' (0 + a) (n - a) = List.range' 0 (a + (n - a)) := List.range'_append_1
    rw [Nat.zero_add, Nat.add_sub_cancel' (Nat.le_of_lt small)] at joined
    rw [List.range_eq_range', List.range_eq_range', ← List.range'_succ, ← joined]
    congr 2
    omega
  · intro all before a after split earlier
    have length := congrArg List.length split
    simp only [List.length_range, List.length_append, List.length_cons] at length
    have place : ∀ i (inside : i < n), (before ++ a :: after)[i]? = some i := by
      intro i inside
      rw [← split, List.getElem?_range inside]
    have here := place before.length (by omega)
    rw [List.getElem?_append_right (Nat.le_refl _), Nat.sub_self, List.getElem?_cons_zero, Option.some.injEq] at here
    subst here
    refine all before.length (by omega) fun b small => earlier b ?_
    have there := place b (by omega)
    rw [List.getElem?_append_left small] at there
    exact List.mem_of_getElem? there

theorem never_first {body : α → Peek E (Option β)} {error : E} (each : ∀ a, (body a).Never error) (items : List α) :
    (first body items).Never error := by
  induction items with
  | nil => exact never_of_ok rfl error
  | cons a rest ih =>
    refine (each a).bind fun found _ => ?_
    cases found with
    | some found => exact never_of_ok rfl error
    | none => exact ih

theorem reads_first_le {body : α → Peek E (Option β)} {bound : Nat} (each : ∀ a, (body a).reads.length ≤ bound)
    (items : List α) : (first body items).reads.length ≤ items.length * bound := by
  induction items with
  | nil => exact Nat.zero_le _
  | cons a rest ih =>
    have whole : (first body (a :: rest)).reads.length ≤ bound + rest.length * bound := by
      refine reads_bind_le (each a) fun found _ => ?_
      cases found with
      | some found => exact Nat.zero_le _
      | none => exact ih
    rw [List.length_cons, Nat.succ_mul]
    omega

end First

end Peek

end FlintDB.Lib
