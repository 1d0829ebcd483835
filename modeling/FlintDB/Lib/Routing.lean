import Mathlib.Data.List.Basic
import Mathlib.Order.Lattice

set_option autoImplicit false

-- `n` separators stand between `n + 1` children; each child answers for the half-open range between its two
-- neighbours. The ends are open where there is no bound.

namespace FlintDB.Lib

universe u v

variable {K : Type u} {C : Type v} [LinearOrder K]

-- std::upper_bound: the position of the first key greater than `key`.
def upperBound (keys : List K) (key : K) : Nat := keys.findIdx fun other => decide (key < other)

structure InRange (low high : Option K) (key : K) : Prop where
  low_le : ∀ bound ∈ low, bound ≤ key
  lt_high : ∀ bound ∈ high, key < bound

def OpenRange (low high : Option K) : Prop := ∀ l ∈ low, ∀ h ∈ high, l < h

-- Every child meets `Fits` on the range its separators give it.
def Routed (Fits : Option K → Option K → C → Prop) (high : Option K) :
    Option K → List K → List C → Prop
  | low, [], [child] => Fits low high child
  | low, key :: keys, child :: children =>
    Fits low (some key) child ∧ Routed Fits high (some key) keys children
  | _, _, _ => False

-- The bounds of child `i`: its own separators, or else the ones its parent inherited.
def childLow (keys : List K) (low : Option K) : Nat → Option K
  | 0 => low
  | i + 1 => keys[i]?

def childHigh (keys : List K) (high : Option K) (i : Nat) : Option K := keys[i]?.or high

@[simp] theorem upperBound_nil (key : K) : upperBound ([] : List K) key = 0 := rfl

theorem upperBound_cons (first : K) (keys : List K) (key : K) :
    upperBound (first :: keys) key = if key < first then 0 else upperBound keys key + 1 := by
  by_cases less : key < first <;> simp [upperBound, List.findIdx_cons, less]

theorem upperBound_le (keys : List K) (key : K) : upperBound keys key ≤ keys.length :=
  List.findIdx_le_length

theorem upperBound_cut {keys : List K} (sorted : keys.Pairwise (· ≤ ·)) (key : K) :
    (∀ other ∈ keys.take (upperBound keys key), other ≤ key) ∧
      ∀ other ∈ keys.drop (upperBound keys key), key < other := by
  induction keys with
  | nil => simp
  | cons first keys ih =>
    obtain ⟨least, sorted⟩ := List.pairwise_cons.mp sorted
    rw [upperBound_cons]
    by_cases less : key < first
    · simp only [less, if_true, List.take_zero, List.drop_zero, List.not_mem_nil, false_imp_iff,
        implies_true, true_and, List.mem_cons]
      rintro other (rfl | rest)
      · exact less
      · exact lt_of_lt_of_le less (least other rest)
    · simp only [less, if_false, List.take_succ_cons, List.drop_succ_cons, List.mem_cons]
      refine ⟨?_, (ih sorted).2⟩
      rintro other (rfl | rest)
      · exact not_lt.mp less
      · exact (ih sorted).1 other rest

theorem upperBound_eq {keys : List K} {key : K} {i : Nat} (inside : i ≤ keys.length)
    (before : ∀ (j : Nat) (within : j < keys.length), j < i → keys[j] ≤ key)
    (behind : ∀ (j : Nat) (within : j < keys.length), i ≤ j → key < keys[j]) : upperBound keys key = i := by
  rcases Nat.lt_or_eq_of_le inside with within | atEnd
  · refine (List.findIdx_eq within).mpr ⟨?_, fun j earlier => ?_⟩
    · simpa using behind i within (Nat.le_refl i)
    · simpa using before j (Nat.lt_trans earlier within) earlier
  · rw [atEnd, upperBound, List.findIdx_eq_length]
    intro other member
    obtain ⟨j, within, rfl⟩ := List.getElem_of_mem member
    simpa using before j within (by omega)

section Routed

variable {Fits : Option K → Option K → C → Prop} {low high : Option K} {keys : List K}
  {children : List C}

omit [LinearOrder K] in
theorem Routed.length (routed : Routed Fits high low keys children) :
    children.length = keys.length + 1 := by
  induction keys generalizing low children with
  | nil =>
    match children, routed with
    | [_], _ => rfl
  | cons key keys ih =>
    match children, routed with
    | _ :: children, routed => simp [ih routed.2]

omit [LinearOrder K] in
theorem Routed.fits_child (routed : Routed Fits high low keys children) {i : Nat} {child : C}
    (here : children[i]? = some child) : Fits (childLow keys low i) (childHigh keys high i) child := by
  induction keys generalizing low children i with
  | nil =>
    match children, routed, i with
    | [only], routed, 0 =>
      cases here
      exact routed
  | cons key keys ih =>
    match children, routed, i with
    | _ :: _, routed, 0 =>
      cases here
      exact routed.1
    | _ :: _, routed, 1 => exact ih routed.2 here
    | _ :: _, routed, i + 2 => exact ih routed.2 here

omit [LinearOrder K] in
theorem Routed.exists_fits (routed : Routed Fits high low keys children) {child : C}
    (member : child ∈ children) : ∃ low high, Fits low high child := by
  induction keys generalizing low children with
  | nil =>
    match children, routed with
    | [only], routed =>
      rw [List.mem_singleton.mp member]
      exact ⟨_, _, routed⟩
  | cons key keys ih =>
    match children, routed with
    | first :: children, routed =>
      rcases List.mem_cons.mp member with rfl | rest
      · exact ⟨_, _, routed.1⟩
      · exact ih routed.2 rest

omit [LinearOrder K] in
theorem routed_append {keys' : List K} {children' : List C} {key : K}
    (length : children.length = keys.length + 1) :
    Routed Fits high low (keys ++ key :: keys') (children ++ children') ↔
      Routed Fits (some key) low keys children ∧ Routed Fits high (some key) keys' children' := by
  induction keys generalizing low children with
  | nil =>
    match children, length with
    | [child], _ => exact Iff.rfl
  | cons first keys ih =>
    match children, length with
    | child :: children, length =>
      simp only [List.length_cons, Nat.add_right_cancel_iff] at length
      simp only [List.cons_append, Routed, ih length, and_assoc]

omit [LinearOrder K] in
theorem Routed.focus {keys₁ keys₂ : List K} {children₁ children₂ : List C}
    (routed : Routed Fits high low (keys₁ ++ (keys ++ keys₂)) (children₁ ++ (children ++ children₂)))
    (before : children₁.length = keys₁.length) (here : children.length = keys.length + 1) :
    ∃ l h, Routed Fits h l keys children ∧
      ∀ keys' children', Routed Fits h l keys' children' →
        Routed Fits high low (keys₁ ++ (keys' ++ keys₂)) (children₁ ++ (children' ++ children₂)) := by
  induction keys₁ generalizing low children₁ with
  | nil =>
    have none_before : children₁ = [] := List.length_eq_zero_iff.mp before
    subst none_before
    cases keys₂ with
    | nil =>
      have none_after : children₂ = [] := by
        have total := routed.length
        simp only [List.nil_append, List.append_nil, List.length_append] at total
        exact List.length_eq_zero_iff.mp (by omega)
      subst none_after
      simp only [List.nil_append, List.append_nil] at routed ⊢
      exact ⟨low, high, routed, fun _ _ replaced => replaced⟩
    | cons key keys₂ =>
      simp only [List.nil_append] at routed ⊢
      rw [routed_append here] at routed
      refine ⟨low, some key, routed.1, fun keys' children' replaced => ?_⟩
      rw [routed_append replaced.length]
      exact ⟨replaced, routed.2⟩
  | cons key keys₁ ih =>
    match children₁, before with
    | child :: children₁, before =>
      simp only [List.length_cons, Nat.add_right_cancel_iff] at before
      obtain ⟨l, h, focus, replace⟩ := ih routed.2 before
      exact ⟨l, h, focus, fun keys' children' replaced => ⟨routed.1, replace _ _ replaced⟩⟩

omit [LinearOrder K] in
theorem Routed.replace {before after : List C} {child child' : C}
    (routed : Routed Fits high low keys children) (children_eq : children = before ++ child :: after)
    (fits : ∀ low high, Fits low high child → Fits low high child') :
    Routed Fits high low keys (before ++ child' :: after) := by
  subst children_eq
  induction before generalizing low keys with
  | nil =>
    match keys, after, routed with
    | [], [], routed => exact fits _ _ routed
    | _ :: _, _, routed => exact ⟨fits _ _ routed.1, routed.2⟩
  | cons first before ih =>
    match keys, routed with
    | [], routed => cases before <;> exact routed.elim
    | _ :: _, routed => exact ⟨routed.1, ih routed.2⟩

omit [LinearOrder K] in
theorem Routed.window {before after : List C} {left right : C}
    (routed : Routed Fits high low keys children)
    (children_eq : children = before ++ left :: right :: after) :
    ∃ keys₁ separator keys₂ l h, keys = keys₁ ++ separator :: keys₂ ∧ keys₁.length = before.length ∧
      Fits l (some separator) left ∧ Fits (some separator) h right ∧
      ∀ keys' children', Routed Fits h l keys' children' →
        Routed Fits high low (keys₁ ++ (keys' ++ keys₂)) (before ++ (children' ++ after)) := by
  have length := routed.length
  simp only [children_eq, List.length_append, List.length_cons] at length
  have within : before.length < keys.length := by omega
  have keys_eq : keys = keys.take before.length ++ ([keys[before.length]] ++ keys.drop (before.length + 1)) := by
    rw [List.singleton_append, ← List.drop_eq_getElem_cons, List.take_append_drop]
  have isWindow : children = before ++ ([left, right] ++ after) := children_eq
  have aligned : (keys.take before.length).length = before.length := by
    rw [List.length_take]
    omega
  rw [isWindow, keys_eq] at routed
  obtain ⟨l, h, pair, replace⟩ := routed.focus aligned.symm rfl
  exact ⟨_, _, _, l, h, keys_eq, aligned, pair.1, pair.2, replace⟩

section Room

variable (room : ∀ low high child, Fits low high child → OpenRange low high)
include room

theorem Routed.openRange (routed : Routed Fits high low keys children) : OpenRange low high := by
  induction keys generalizing low children with
  | nil =>
    match children, routed with
    | [child], routed => exact room _ _ _ routed
  | cons key keys ih =>
    match children, routed with
    | child :: children, routed =>
      intro l isLow h isHigh
      exact lt_trans (room _ _ _ routed.1 l isLow key rfl) (ih routed.2 key rfl h isHigh)

theorem Routed.pairwise (routed : Routed Fits high low keys children) :
    keys.Pairwise (· < ·) ∧ ∀ key ∈ keys, OpenRange low (some key) := by
  induction keys generalizing low children with
  | nil => simp
  | cons first keys ih =>
    match children, routed with
    | child :: children, routed =>
      obtain ⟨pairwise, above⟩ := ih routed.2
      have first_lt : ∀ key ∈ keys, first < key := fun key member =>
        above key member first rfl key rfl
      refine ⟨List.pairwise_cons.mpr ⟨first_lt, pairwise⟩, fun key member l isLow k isKey => ?_⟩
      cases isKey
      have low_lt := room _ _ _ routed.1 l isLow first rfl
      rcases List.mem_cons.mp member with rfl | rest
      · exact low_lt
      · exact lt_trans low_lt (first_lt key rest)

theorem Routed.inRange (routed : Routed Fits high low keys children) {key : K} (member : key ∈ keys) :
    InRange low high key := by
  obtain ⟨keys₁, keys₂, keys_eq⟩ := List.append_of_mem member
  have length := routed.length
  have cut : children = children.take (keys₁.length + 1) ++ children.drop (keys₁.length + 1) :=
    (List.take_append_drop _ _).symm
  rw [keys_eq] at length
  rw [keys_eq, cut, routed_append (by simp at length ⊢; omega)] at routed
  refine ⟨fun l isLow => le_of_lt ?_, fun h isHigh => ?_⟩
  · exact Routed.openRange room routed.1 l isLow key rfl
  · exact Routed.openRange room routed.2 key rfl h isHigh

theorem Routed.above {bound : K} (routed : Routed Fits high (some bound) keys children) {child : C}
    (member : child ∈ children) : ∃ l h, Fits (some l) h child ∧ bound ≤ l := by
  induction keys generalizing bound children with
  | nil =>
    match children, routed with
    | [only], routed =>
      rw [List.mem_singleton.mp member]
      exact ⟨bound, high, routed, le_refl _⟩
  | cons key keys ih =>
    match children, routed with
    | first :: children, routed =>
      rcases List.mem_cons.mp member with rfl | rest
      · exact ⟨bound, some key, routed.1, le_refl _⟩
      · obtain ⟨l, h, fits, le⟩ := ih routed.2 rest
        exact ⟨l, h, fits, le_trans (le_of_lt (room _ _ _ routed.1 bound rfl key rfl)) le⟩

theorem Routed.route {key : K} (routed : Routed Fits high low keys children)
    (inRange : InRange low high key) {keys₁ keys₂ : List K} {before after : List C} {child : C}
    (keys_eq : keys = keys₁ ++ keys₂) (children_eq : children = before ++ child :: after)
    (aligned : keys₁.length = before.length) (position : before.length = upperBound keys key) :
    ∃ l h, Fits l h child ∧ InRange l h key ∧
      (∀ other ∈ before, ∃ l bound, Fits l (some bound) other ∧ bound ≤ key) ∧
      (∀ other ∈ after, ∃ bound h, Fits (some bound) h other ∧ key < bound) ∧
      ∀ keys' children', Routed Fits h l keys' children' →
        Routed Fits high low (keys₁ ++ (keys' ++ keys₂)) (before ++ (children' ++ after)) := by
  subst keys_eq children_eq
  induction keys₁ generalizing low before with
  | nil =>
    have none_before : before = [] := List.length_eq_zero_iff.mp aligned.symm
    subst none_before
    cases keys₂ with
    | nil =>
      match after, routed with
      | [], routed =>
        exact ⟨low, high, routed, inRange, by simp, by simp, fun _ _ replaced => by simpa using replaced⟩
    | cons first keys₂ =>
      have less : key < first := by
        by_contra notLess
        simp [upperBound_cons, notLess] at position
      refine ⟨low, some first, routed.1, ⟨inRange.low_le, by simpa using less⟩, by simp,
        fun other member => ?_, fun keys' children' replaced => ?_⟩
      · obtain ⟨l, h, fits, le⟩ := Routed.above room routed.2 member
        exact ⟨l, h, fits, lt_of_lt_of_le less le⟩
      · exact (routed_append replaced.length).mpr ⟨replaced, routed.2⟩
  | cons first keys₁ ih =>
    match before, aligned with
    | other :: before, aligned =>
      simp only [List.length_cons, Nat.add_right_cancel_iff] at aligned
      have notLess : ¬key < first := by
        intro less
        simp [upperBound_cons, less] at position
      have above : first ≤ key := not_lt.mp notLess
      simp only [List.cons_append, upperBound_cons, notLess, if_false, List.length_cons,
        Nat.add_right_cancel_iff] at position
      have inRest : InRange (some first) high key := ⟨by simpa using above, inRange.lt_high⟩
      obtain ⟨l, h, fits, within, left, right, replace⟩ := ih inRest aligned position routed.2
      refine ⟨l, h, fits, within, fun earlier member => ?_, right,
        fun keys' children' replaced => ⟨routed.1, replace _ _ replaced⟩⟩
      rcases List.mem_cons.mp member with rfl | rest
      · exact ⟨_, _, routed.1, above⟩
      · exact left earlier rest

theorem Routed.reach {before after : List C} {child : C} (routed : Routed Fits high low keys children)
    (children_eq : children = before ++ child :: after) :
    ∃ l h, Fits l h child ∧ ∀ key, InRange l h key → InRange low high key ∧ upperBound keys key = before.length := by
  subst children_eq
  induction keys generalizing low before with
  | nil =>
    have alone := routed.length
    simp only [List.length_append, List.length_cons, List.length_nil] at alone
    obtain rfl := List.length_eq_zero_iff.mp (by omega : before.length = 0)
    obtain rfl := List.length_eq_zero_iff.mp (by omega : after.length = 0)
    exact ⟨low, high, routed, fun key inRange => ⟨inRange, rfl⟩⟩
  | cons first keys ih =>
    cases before with
    | nil =>
      refine ⟨low, some first, routed.1, fun key inRange => ?_⟩
      have less := inRange.lt_high first rfl
      refine ⟨⟨inRange.low_le, fun h isHigh => ?_⟩, by rw [upperBound_cons, if_pos less, List.length_nil]⟩
      exact lt_trans less (Routed.openRange room routed.2 first rfl h isHigh)
    | cons other before =>
      obtain ⟨l, h, fits, reaches⟩ := ih routed.2
      refine ⟨l, h, fits, fun key inRange => ?_⟩
      obtain ⟨inRest, position⟩ := reaches key inRange
      have above := inRest.low_le first rfl
      refine ⟨⟨fun l isLow => ?_, inRest.lt_high⟩, ?_⟩
      · exact le_trans (le_of_lt (room _ _ _ routed.1 l isLow first rfl)) above
      · rw [upperBound_cons, if_neg (not_lt.mpr above), position, List.length_cons]

theorem Routed.sorted (keysOf : C → List K)
    (holds : ∀ low high child, Fits low high child →
      (keysOf child).Pairwise (· ≤ ·) ∧ ∀ key ∈ keysOf child, InRange low high key)
    (routed : Routed Fits high low keys children) :
    (children.flatMap keysOf).Pairwise (· ≤ ·) ∧ ∀ key ∈ children.flatMap keysOf, InRange low high key := by
  induction keys generalizing low children with
  | nil =>
    match children, routed with
    | [child], routed => simpa using holds _ _ _ routed
  | cons first keys ih =>
    match children, routed with
    | child :: children, routed =>
      obtain ⟨sorted, inRange⟩ := holds _ _ _ routed.1
      obtain ⟨sortedRest, inRangeRest⟩ := ih routed.2
      have firstOpen := room _ _ _ routed.1
      have restOpen := routed.2.openRange room
      simp only [List.flatMap_cons, List.pairwise_append, List.mem_append]
      refine ⟨⟨sorted, sortedRest, fun left isLeft right isRight => ?_⟩, ?_⟩
      · exact le_of_lt (lt_of_lt_of_le ((inRange left isLeft).lt_high first rfl)
          ((inRangeRest right isRight).low_le first rfl))
      · rintro key (here | there)
        · exact ⟨(inRange key here).low_le, fun bound isHigh =>
            lt_trans ((inRange key here).lt_high first rfl) (restOpen first rfl bound isHigh)⟩
        · exact ⟨fun bound isLow => le_trans (le_of_lt (firstOpen bound isLow first rfl))
            ((inRangeRest key there).low_le first rfl), (inRangeRest key there).lt_high⟩

end Room

end Routed

end FlintDB.Lib
