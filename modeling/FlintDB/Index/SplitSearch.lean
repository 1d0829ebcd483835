import FlintDB.Index.BTreeNode
import FlintDB.Lib.Peek

set_option autoImplicit false

-- FindSplitBoundary and FindRebalanceSplit with their loops, their unsigned arithmetic and the reads of `keys[i]`.
-- They end after a bounded number of rounds, read no key that is not there, and find what the functions on lists
-- find.

namespace FlintDB

open Lib

/-- A std::vector<int64_t>, whose elements take no more than PTRDIFF_MAX bytes. -/
structure KeyVector where
  keys : List Int
  fits : keys.length * 8 ≤ 2 ^ 63 - 1

-- size_t
def sizeAdd (a b : Nat) : Nat := (a + b) % 2 ^ 64
def sizeSub (a b : Nat) : Nat := (a + 2 ^ 64 - b) % 2 ^ 64

theorem sizeAdd_of_lt {a b : Nat} (small : a + b < 2 ^ 64) : sizeAdd a b = a + b := Nat.mod_eq_of_lt small

theorem sizeSub_of_le {a b : Nat} (small : a < 2 ^ 64) (le : b ≤ a) : sizeSub a b = a - b := by
  rw [sizeSub, show a + 2 ^ 64 - b = a - b + 2 ^ 64 by omega, Nat.add_mod_right]
  exact Nat.mod_eq_of_lt (by omega)

namespace SplitSearch

-- keys[i]. The error is that of a loop that is cut off.
def keyAt (keys : List Int) (i : Nat) : Peek Unit Int := .read i 1 (keys.getD i 0)

-- keys[i] != keys[i - 1]
def differsAt (keys : List Int) (i : Nat) : Peek Unit Bool := do
  let here ← keyAt keys i
  let before ← keyAt keys (sizeSub i 1)
  return here ≠ before

def forwardRound (keys : List Int) (i : Nat) : Peek Unit (Option Nat ⊕ Nat) :=
  if i < keys.length then do
    if ← differsAt keys i then return .inl (some i) else return .inr (sizeAdd i 1)
  else return .inl none

def backwardRound (keys : List Int) (i : Nat) : Peek Unit (Option Nat ⊕ Nat) :=
  if 1 ≤ i then do
    if ← differsAt keys i then return .inl (some i)
    else if i = 1 then return .inl none
    else return .inr (sizeSub i 1)
  else return .inl none

/-- FindSplitBoundary, each loop cut off after so many rounds. -/
def findSplitBoundary (keys : List Int) (naiveMid rounds : Nat) : Peek Unit Nat := do
  match ← Peek.walk (forwardRound keys) () rounds naiveMid with
  | some i => return i
  | none =>
    match ← Peek.walk (backwardRound keys) () rounds naiveMid with
    | some i => return i
    | none => return naiveMid

def differsWithin (keys : List Int) (inRange : Bool) (i : Nat) : Peek Unit Bool :=
  if inRange then differsAt keys i else return false

def outwardRound (keys : List Int) (minSplit maxSplit ideal offset : Nat) : Peek Unit (Option Nat ⊕ Nat) := do
  let upInRange : Bool := sizeAdd ideal offset ≤ maxSplit
  let downInRange : Bool := offset ≤ sizeSub ideal minSplit
  if ← differsWithin keys upInRange (sizeAdd ideal offset) then return .inl (some (sizeAdd ideal offset))
  else if ← differsWithin keys downInRange (sizeSub ideal offset) then return .inl (some (sizeSub ideal offset))
  else if upInRange || downInRange then return .inr (sizeAdd offset 1)
  else return .inl none

/-- FindRebalanceSplit, its loop cut off after so many rounds. -/
def findRebalanceSplit (keys : List Int) (minSplit maxSplit ideal rounds : Nat) : Peek Unit (Option Nat) := do
  let ideal := if ideal < minSplit then minSplit else ideal
  let ideal := if maxSplit < ideal then maxSplit else ideal
  if ← differsAt keys ideal then return some ideal
  else Peek.walk (outwardRound keys minSplit maxSplit ideal) () rounds 1

/-- The search ends with the value, and has read no key but those there are. -/
structure Finds {α : Type} (keys : List Int) (search : Peek Unit α) (value : α) : Prop where
  inside : search.Within keys.length
  result : search.result = .ok value

theorem Finds.pure {α : Type} (keys : List Int) (value : α) : Finds keys (pure value) value :=
  ⟨Peek.within_pure _ _, rfl⟩

theorem Finds.bind {α β : Type} {keys : List Int} {first : Peek Unit α} {next : α → Peek Unit β} {value : α} {last : β}
    (before : Finds keys first value) (after : Finds keys (next value) last) : Finds keys (first.bind next) last where
  inside := (Peek.within_bind_of_ok before.result).mpr ⟨before.inside, after.inside⟩
  result := (Peek.result_bind_of_ok before.result).trans after.result

variable {keys : List Int} {i : Nat}

theorem keyAt_finds (within : i < keys.length) : Finds keys (keyAt keys i) keys[i] where
  inside := Peek.within_read within
  result := by
    rw [keyAt, List.getD_eq_getElem?_getD, List.getElem?_eq_getElem within]
    rfl

theorem differsAt_finds (short : keys.length < 2 ^ 63) (positive : 1 ≤ i) (within : i < keys.length) :
    Finds keys (differsAt keys i) (isBoundary keys i) := by
  have before : sizeSub i 1 = i - 1 := sizeSub_of_le (by omega) positive
  have boundary : isBoundary keys i = decide (keys[i] ≠ keys[i - 1]) := by
    rw [isBoundary, List.getElem?_eq_getElem within, List.getElem?_eq_getElem (by omega : i - 1 < keys.length)]
    simp
  rw [differsAt, before, boundary]
  exact (keyAt_finds within).bind ((keyAt_finds (by omega)).bind (Finds.pure keys _))

theorem forward_finds (short : keys.length < 2 ^ 63) (rounds : Nat) (positive : 1 ≤ i) (within : i ≤ keys.length)
    (enough : keys.length < i + rounds) :
    Finds keys (Peek.walk (forwardRound keys) () rounds i)
      ((List.range' i (keys.length - i)).find? (isBoundary keys)) := by
  induction rounds generalizing i with
  | zero => omega
  | succ rounds ih =>
    rw [Peek.walk]
    by_cases last : i = keys.length
    · subst last
      have round : Finds keys (forwardRound keys keys.length) (.inl none) := by
        rw [forwardRound, if_neg (by omega)]
        exact Finds.pure keys _
      rw [Nat.sub_self]
      exact round.bind (Finds.pure keys none)
    · have inside : i < keys.length := by omega
      have differs := differsAt_finds short positive inside
      rw [show keys.length - i = keys.length - (i + 1) + 1 by omega, List.range'_succ, List.find?_cons]
      cases boundary : isBoundary keys i with
      | true =>
        have round : Finds keys (forwardRound keys i) (.inl (some i)) := by
          rw [forwardRound, if_pos inside]
          refine differs.bind ?_
          rw [boundary]
          exact Finds.pure keys _
        exact round.bind (Finds.pure keys _)
      | false =>
        have round : Finds keys (forwardRound keys i) (.inr (i + 1)) := by
          rw [forwardRound, if_pos inside, sizeAdd_of_lt (by omega)]
          refine differs.bind ?_
          rw [boundary]
          exact Finds.pure keys _
        exact round.bind (ih (by omega) inside (by omega))

theorem backward_finds (short : keys.length < 2 ^ 63) (rounds : Nat) (positive : 1 ≤ i) (within : i < keys.length)
    (enough : i ≤ rounds) :
    Finds keys (Peek.walk (backwardRound keys) () rounds i) ((List.range' 1 i).reverse.find? (isBoundary keys)) := by
  induction rounds generalizing i with
  | zero => omega
  | succ rounds ih =>
    obtain ⟨before, rfl⟩ : ∃ before, i = before + 1 := ⟨i - 1, by omega⟩
    have differs := differsAt_finds short positive within
    rw [Peek.walk, List.range'_concat, List.reverse_append, List.reverse_singleton, List.singleton_append,
      Nat.one_mul, Nat.add_comm 1 before, List.find?_cons]
    cases boundary : isBoundary keys (before + 1) with
    | true =>
      have round : Finds keys (backwardRound keys (before + 1)) (.inl (some (before + 1))) := by
        rw [backwardRound, if_pos positive]
        refine differs.bind ?_
        rw [boundary]
        exact Finds.pure keys _
      exact round.bind (Finds.pure keys _)
    | false =>
      by_cases last : before = 0
      · subst last
        have round : Finds keys (backwardRound keys 1) (.inl none) := by
          rw [backwardRound, if_pos positive]
          refine differs.bind ?_
          rw [boundary]
          exact Finds.pure keys _
        exact round.bind (Finds.pure keys _)
      · have round : Finds keys (backwardRound keys (before + 1)) (.inr before) := by
          rw [backwardRound, if_pos positive, sizeSub_of_le (by omega) positive]
          refine differs.bind ?_
          rw [boundary, if_neg Bool.false_ne_true, if_neg (by omega)]
          exact Finds.pure keys _
        exact round.bind (ih (by omega) (by omega) (by omega))

theorem findSplitBoundary_finds (vector : KeyVector) {mid rounds : Nat} (positive : 1 ≤ mid)
    (within : mid < vector.keys.length) (enough : vector.keys.length ≤ rounds) :
    Finds vector.keys (findSplitBoundary vector.keys mid rounds) (FlintDB.findSplitBoundary vector.keys mid) := by
  have short : vector.keys.length < 2 ^ 63 := by
    have fits := vector.fits
    omega
  have forward := forward_finds short rounds positive within.le (by omega)
  have backward := backward_finds short rounds positive within (by omega)
  rw [findSplitBoundary, FlintDB.findSplitBoundary]
  cases first : (List.range' mid (vector.keys.length - mid)).find? (isBoundary vector.keys) with
  | some i =>
    rw [first] at forward
    exact forward.bind (Finds.pure _ i)
  | none =>
    rw [first] at forward
    refine forward.bind ?_
    cases second : (List.range' 1 mid).reverse.find? (isBoundary vector.keys) with
    | some i =>
      rw [second] at backward
      exact backward.bind (Finds.pure _ i)
    | none =>
      rw [second] at backward
      exact backward.bind (Finds.pure _ mid)

theorem differsWithin_finds (short : keys.length < 2 ^ 63) (inRange : Bool)
    (within : inRange = true → 1 ≤ i ∧ i < keys.length) :
    Finds keys (differsWithin keys inRange i) (inRange && isBoundary keys i) := by
  cases inRange with
  | true => exact differsAt_finds short (within rfl).1 (within rfl).2
  | false => exact Finds.pure keys false

section Outward

variable {minSplit maxSplit ideal : Nat} (short : keys.length < 2 ^ 63) (low : 1 ≤ minSplit)
  (clamped : minSplit ≤ ideal ∧ ideal ≤ maxSplit) (high : maxSplit < keys.length)
include short low clamped high

theorem outwardRound_finds {offset : Nat} (near : offset ≤ maxSplit + 1) :
    Finds keys (outwardRound keys minSplit maxSplit ideal offset)
      (if ideal + offset ≤ maxSplit ∧ isBoundary keys (ideal + offset) then .inl (some (ideal + offset))
      else if offset ≤ ideal - minSplit ∧ isBoundary keys (ideal - offset) then .inl (some (ideal - offset))
      else if ideal + offset ≤ maxSplit ∨ offset ≤ ideal - minSplit then .inr (offset + 1)
      else .inl none) := by
  have up_eq : sizeAdd ideal offset = ideal + offset := sizeAdd_of_lt (by omega)
  have down_eq : sizeSub ideal minSplit = ideal - minSplit := sizeSub_of_le (by omega) clamped.1
  have up := differsWithin_finds (i := ideal + offset) short (decide (ideal + offset ≤ maxSplit)) fun inRange => by
    have fits := of_decide_eq_true inRange
    omega
  rw [outwardRound, up_eq, down_eq]
  refine up.bind ?_
  by_cases upHit : ideal + offset ≤ maxSplit ∧ isBoundary keys (ideal + offset)
  · rw [if_pos upHit, if_pos (by simpa using upHit)]
    exact Finds.pure keys _
  · rw [if_neg upHit, if_neg (by simpa using upHit)]
    by_cases downInRange : offset ≤ ideal - minSplit
    · have next_eq : sizeSub ideal offset = ideal - offset := sizeSub_of_le (by omega) (by omega)
      have down := differsAt_finds (i := ideal - offset) short (by omega) (by omega)
      rw [next_eq, decide_eq_true downInRange]
      refine down.bind ?_
      cases boundary : isBoundary keys (ideal - offset) with
      | true =>
        rw [if_pos rfl, if_pos ⟨downInRange, rfl⟩]
        exact Finds.pure keys _
      | false =>
        rw [if_neg Bool.false_ne_true, if_pos (Bool.or_true _), if_neg (fun hit => Bool.false_ne_true hit.2),
          if_pos (.inr downInRange), sizeAdd_of_lt (by omega)]
        exact Finds.pure keys _
    · rw [decide_eq_false downInRange]
      refine (Finds.pure keys false).bind ?_
      rw [if_neg Bool.false_ne_true, Bool.or_false]
      by_cases upInRange : ideal + offset ≤ maxSplit
      · rw [decide_eq_true upInRange, if_pos rfl, if_neg (fun hit => downInRange hit.1), if_pos (.inl upInRange),
          sizeAdd_of_lt (by omega)]
        exact Finds.pure keys _
      · rw [decide_eq_false upInRange, if_neg Bool.false_ne_true, if_neg (fun hit => downInRange hit.1),
          if_neg (fun inRange => inRange.elim upInRange downInRange)]
        exact Finds.pure keys _

theorem outward_finds {offset rounds fuel : Nat} (near : offset ≤ maxSplit + 1) (enough : maxSplit + 1 < offset + rounds)
    (fuelled : maxSplit < offset + fuel) :
    Finds keys (Peek.walk (outwardRound keys minSplit maxSplit ideal) () rounds offset)
      (searchOutward keys minSplit maxSplit ideal fuel offset) := by
  induction rounds generalizing offset fuel with
  | zero => omega
  | succ rounds ih =>
    have round := outwardRound_finds short low clamped high near
    rw [Peek.walk]
    by_cases inRange : ideal + offset ≤ maxSplit ∨ offset ≤ ideal - minSplit
    · obtain ⟨fuel, rfl⟩ : ∃ less, fuel = less + 1 := ⟨fuel - 1, by omega⟩
      rw [searchOutward]
      by_cases up : ideal + offset ≤ maxSplit ∧ isBoundary keys (ideal + offset)
      · rw [if_pos up] at round ⊢
        exact round.bind (Finds.pure keys _)
      · rw [if_neg up] at round ⊢
        by_cases down : offset ≤ ideal - minSplit ∧ isBoundary keys (ideal - offset)
        · rw [if_pos down] at round ⊢
          exact round.bind (Finds.pure keys _)
        · rw [if_neg down, if_pos inRange] at round ⊢
          exact round.bind (ih (by omega) (by omega) (by omega))
    · have up : ¬ (ideal + offset ≤ maxSplit ∧ isBoundary keys (ideal + offset) = true) := fun hit => inRange (.inl hit.1)
      have down : ¬ (offset ≤ ideal - minSplit ∧ isBoundary keys (ideal - offset) = true) := fun hit => inRange (.inr hit.1)
      rw [if_neg up, if_neg down, if_neg inRange] at round
      have none_eq : searchOutward keys minSplit maxSplit ideal fuel offset = none := by
        cases fuel with
        | zero => rfl
        | succ fuel => rw [searchOutward, if_neg up, if_neg down, if_neg inRange]
      rw [none_eq]
      exact round.bind (Finds.pure keys none)

end Outward

theorem findRebalanceSplit_finds (vector : KeyVector) {minSplit maxSplit rounds : Nat} (ideal : Nat) (low : 1 ≤ minSplit)
    (ordered : minSplit ≤ maxSplit) (high : maxSplit < vector.keys.length) (enough : maxSplit < rounds) :
    Finds vector.keys (findRebalanceSplit vector.keys minSplit maxSplit ideal rounds)
      (FlintDB.findRebalanceSplit vector.keys minSplit maxSplit ideal) := by
  have short : vector.keys.length < 2 ^ 63 := by
    have fits := vector.fits
    omega
  simp only [findRebalanceSplit, FlintDB.findRebalanceSplit]
  generalize clamped : (if maxSplit < if ideal < minSplit then minSplit else ideal then maxSplit
    else if ideal < minSplit then minSplit else ideal) = center
  have inRange : minSplit ≤ center ∧ center ≤ maxSplit := by
    constructor <;> (split at clamped <;> split at clamped <;> omega)
  refine (differsAt_finds short (by omega) (by omega)).bind ?_
  cases boundary : isBoundary vector.keys center with
  | true => exact Finds.pure _ _
  | false => exact outward_finds short low inRange high (by omega) (by omega) (by omega)

end SplitSearch

-- Every key before the place is smaller than what follows, as far as the two at the place say.
def StrictAt (keys : List Int) (i : Nat) : Prop :=
  1 ≤ i ∧ i < keys.length ∧ keys.getD (i - 1) 0 < keys.getD i 0

theorem strictAt_iff {keys : List Int} (sorted : keys.Pairwise (· ≤ ·)) {i : Nat} (positive : 1 ≤ i)
    (within : i < keys.length) : StrictAt keys i ↔ isBoundary keys i := by
  have before : keys[i - 1]? = some keys[i - 1] := List.getElem?_eq_getElem (by omega)
  have here : keys[i]? = some keys[i] := List.getElem?_eq_getElem within
  have ordered : keys[i - 1] ≤ keys[i] := List.pairwise_iff_getElem.mp sorted _ _ _ _ (by omega)
  simp only [StrictAt, isBoundary, List.getD_eq_getElem?_getD, before, here, Option.getD_some, ne_eq,
    Option.some.injEq, decide_eq_true_eq]
  omega

-- How far the place is from the one that was asked for.
def distance (place ideal : Nat) : Nat := (place - ideal) + (ideal - place)

theorem searchOutward_nearest {keys : List Int} {minSplit maxSplit ideal fuel offset found : Nat}
    (searched : searchOutward keys minSplit maxSplit ideal fuel offset = some found)
    (clamped : minSplit ≤ ideal ∧ ideal ≤ maxSplit) :
    minSplit ≤ found ∧ found ≤ maxSplit ∧ isBoundary keys found ∧
      ∀ place, minSplit ≤ place → place ≤ maxSplit → isBoundary keys place → offset ≤ distance place ideal →
        distance found ideal ≤ distance place ideal := by
  induction fuel generalizing offset with
  | zero => cases searched
  | succ fuel ih =>
    rw [searchOutward] at searched
    split at searched
    · rename_i up
      cases searched
      refine ⟨by omega, up.1, up.2, fun place _ _ _ far => ?_⟩
      simp only [distance] at far ⊢
      omega
    · split at searched
      · rename_i down
        cases searched
        refine ⟨by omega, by omega, down.2, fun place _ _ _ far => ?_⟩
        simp only [distance] at far ⊢
        omega
      · rename_i notUp notDown
        split at searched
        · obtain ⟨low, high, boundary, nearest⟩ := ih searched
          refine ⟨low, high, boundary, fun place above below isBoundary far => ?_⟩
          refine nearest place above below isBoundary ?_
          -- neither end at this offset is the place
          have notHigher : ideal + offset ≠ place := fun same => notUp ⟨by omega, same ▸ isBoundary⟩
          have notLower : offset ≤ ideal - minSplit → ideal - offset ≠ place := fun inRange same =>
            notDown ⟨inRange, same ▸ isBoundary⟩
          simp only [distance] at far ⊢
          omega
        · cases searched

theorem findRebalanceSplit_nearest {keys : List Int} {minSplit maxSplit ideal found : Nat} (ordered : minSplit ≤ maxSplit)
    (searched : findRebalanceSplit keys minSplit maxSplit ideal = some found) :
    minSplit ≤ found ∧ found ≤ maxSplit ∧ isBoundary keys found ∧
      ∀ place, minSplit ≤ place → place ≤ maxSplit → isBoundary keys place →
        distance found (clamp ideal minSplit maxSplit) ≤ distance place (clamp ideal minSplit maxSplit) := by
  have center : (if maxSplit < if ideal < minSplit then minSplit else ideal then maxSplit
      else if ideal < minSplit then minSplit else ideal) = clamp ideal minSplit maxSplit := by
    rw [clamp]
    split <;> split <;> omega
  have inRange : minSplit ≤ clamp ideal minSplit maxSplit ∧ clamp ideal minSplit maxSplit ≤ maxSplit := by
    rw [clamp]
    split <;> (try split) <;> omega
  simp only [findRebalanceSplit, center] at searched
  split at searched
  · rename_i here
    rw [Option.some.injEq] at searched
    subst searched
    refine ⟨inRange.1, inRange.2, here, fun place _ _ _ => ?_⟩
    simp only [distance]
    omega
  · rename_i notHere
    obtain ⟨low, high, boundary, nearest⟩ := searchOutward_nearest searched inRange
    refine ⟨low, high, boundary, fun place above below isBoundary => nearest place above below isBoundary ?_⟩
    have elsewhere : clamp ideal minSplit maxSplit ≠ place := fun same => notHere (same ▸ isBoundary)
    simp only [distance]
    omega

/-- The entries are cut at a change of key, and neither leaf is empty or too full. -/
def Recut (left right : LeafNode) : Mended LeafNode → Prop
  | .merged _ => False
  | .shifted left' key right' =>
    left'.entries ++ right'.entries = left.entries ++ right.entries ∧
      StrictAt ((left.entries ++ right.entries).map Prod.fst) left'.entries.length ∧
      (∀ before ∈ left'.keys, ∀ behind ∈ right'.keys, before < behind) ∧ right'.keys.head? = some key ∧
      1 ≤ left'.entries.length ∧ left'.entries.length ≤ kLeafMaxKeys ∧
      1 ≤ right'.entries.length ∧ right'.entries.length ≤ kLeafMaxKeys

section Recut

variable {left right : LeafNode} (leftFits : left.entries.length ≤ kLeafMaxKeys)
  (rightFits : right.entries.length ≤ kLeafMaxKeys) (leftSorted : left.keys.Pairwise (· ≤ ·))
  (rightSorted : right.keys.Pairwise (· ≤ ·)) (apart : ∀ before ∈ left.keys, ∀ behind ∈ right.keys, before < behind)
  (tooMany : kLeafMaxKeys < left.entries.length + right.entries.length)
include leftFits rightFits leftSorted rightSorted apart tooMany

theorem mendLeaves_recut (ideal : Nat) : Recut left right (mendLeaves left right ideal) := by
  have sorted : ((left.entries ++ right.entries).map Prod.fst).Pairwise (· ≤ ·) := by
    rw [List.map_append, List.pairwise_append]
    exact ⟨leftSorted, rightSorted, fun before isLeft behind isRight => (apart before isLeft behind isRight).le⟩
  have length_eq : ((left.entries ++ right.entries).map Prod.fst).length = left.entries.length + right.entries.length := by
    rw [List.length_map, List.length_append]
  have oldBoundary : StrictAt ((left.entries ++ right.entries).map Prod.fst) left.entries.length := by
    refine ⟨by omega, by omega, ?_⟩
    have lastLeft : left.entries.length - 1 < left.keys.length := by
      rw [LeafNode.keys, List.length_map]
      omega
    have firstRight : 0 < right.keys.length := by
      rw [LeafNode.keys, List.length_map]
      omega
    have last_eq : ((left.entries ++ right.entries).map Prod.fst)[left.entries.length - 1]? =
        some left.keys[left.entries.length - 1] := by
      rw [List.map_append]
      exact (List.getElem?_append_left lastLeft).trans (List.getElem?_eq_getElem lastLeft)
    have first_eq : ((left.entries ++ right.entries).map Prod.fst)[left.entries.length]? = some right.keys[0] := by
      rw [List.map_append, List.getElem?_append_right (by rw [List.length_map]), List.length_map, Nat.sub_self]
      exact List.getElem?_eq_getElem firstRight
    rw [List.getD_eq_getElem?_getD, List.getD_eq_getElem?_getD, last_eq, first_eq]
    exact apart _ (List.getElem_mem lastLeft) _ (List.getElem_mem firstRight)
  have boundary := (strictAt_iff sorted oldBoundary.1 oldBoundary.2.1).mp oldBoundary
  obtain ⟨cut, found, above, below, isBoundary⟩ := findRebalanceSplit_isBoundary ideal
    (by omega : left.entries.length + right.entries.length - kLeafMaxKeys ≤ left.entries.length) leftFits boundary
  have strict : StrictAt ((left.entries ++ right.entries).map Prod.fst) cut :=
    (strictAt_iff sorted (by omega) (by omega)).mpr isBoundary
  have within : cut < (left.entries ++ right.entries).length := by
    rw [List.length_append]
    omega
  have here : ((left.entries ++ right.entries).map Prod.fst)[cut]? = some (left.entries ++ right.entries)[cut].1 := by
    rw [List.getElem?_map, List.getElem?_eq_getElem within]
    rfl
  have smaller := lt_of_isBoundary sorted (by omega) isBoundary here
  have cut_eq : ((left.entries ++ right.entries).take cut).length = cut := List.length_take_of_le within.le
  have rest_eq : ((left.entries ++ right.entries).drop cut).length = left.entries.length + right.entries.length - cut := by
    rw [List.length_drop, List.length_append]
  have drop_eq := List.drop_eq_getElem_cons within
  rw [mendLeaves]
  simp only [List.length_append, if_neg (Nat.not_le.mpr tooMany), found, Option.getD_some]
  refine ⟨List.take_append_drop .., ?_, ?_, ?_, ?_, ?_, ?_, ?_⟩
  · rwa [cut_eq]
  · intro before isLeft behind isRight
    rw [LeafNode.keys, List.map_take] at isLeft
    refine Int.lt_of_lt_of_le (smaller before isLeft) ?_
    -- what is behind the cut is sorted and begins with the key at the cut
    have behindSorted := sorted.sublist (List.drop_sublist cut _)
    rw [← List.map_drop, drop_eq, List.map_cons, List.pairwise_cons] at behindSorted
    rw [LeafNode.keys, drop_eq, List.map_cons, List.mem_cons] at isRight
    rcases isRight with rfl | later
    · exact Int.le_refl _
    · exact behindSorted.1 behind later
  · rw [LeafNode.keys, ← List.map_drop, drop_eq, List.map_cons, List.head?_cons, List.headD_cons]
  · rw [cut_eq]
    omega
  · rw [cut_eq]
    exact below
  · rw [rest_eq]
    omega
  · rw [rest_eq]
    omega

theorem fixLeaf_recut {C : Type} {read : C → Option LeafNode} {parent : InternalNode C} {idx : Nat}
    (isLeft : parent.children[idx - 1]?.bind read = some left)
    (isRight : parent.children[idx - 1 + 1]?.bind read = some right) :
    ∃ mended, fixLeaf read parent idx = some (idx - 1, mended) ∧ Recut left right mended := by
  have recut := mendLeaves_recut leftFits rightFits leftSorted rightSorted apart tooMany
  rw [fixLeaf]
  by_cases first : idx = 0
  · subst first
    refine ⟨_, ?_, recut kLeafMinKeys⟩
    rw [Nat.zero_sub] at isLeft isRight
    simp only [isLeft, isRight, Option.bind_eq_bind, Option.bind_some, Nat.lt_irrefl, if_false]
    rfl
  · refine ⟨_, ?_, recut (left.entries.length + right.entries.length - kLeafMinKeys)⟩
    rw [Nat.sub_add_cancel (Nat.pos_of_ne_zero first)] at isRight
    simp only [isLeft, isRight, Option.bind_eq_bind, Option.bind_some, Nat.pos_of_ne_zero first, if_true]
    rfl

end Recut

structure SplitBoundary (keys : List Int) (mid i : Nat) : Prop where
  strict : (∃ place, StrictAt keys place) → StrictAt keys i
  fallback : (¬ ∃ place, StrictAt keys place) → i = mid

structure RebalanceSplit (keys : List Int) (minSplit maxSplit ideal : Nat) (found : Option Nat) : Prop where
  nearest : ∀ i, found = some i → minSplit ≤ i ∧ i ≤ maxSplit ∧ StrictAt keys i ∧
    ∀ place, minSplit ≤ place → place ≤ maxSplit → StrictAt keys place →
      distance i (clamp ideal minSplit maxSplit) ≤ distance place (clamp ideal minSplit maxSplit)
  missing : found = none ↔ ∀ place, minSplit ≤ place → place ≤ maxSplit → ¬ StrictAt keys place

theorem findSplitBoundary_spec {keys : List Int} (sorted : keys.Pairwise (· ≤ ·)) {mid : Nat} (positive : 1 ≤ mid)
    (within : mid < keys.length) : SplitBoundary keys mid (findSplitBoundary keys mid) where
  strict := by
    rintro ⟨place, strict⟩
    have boundary := (strictAt_iff sorted strict.1 strict.2.1).mp strict
    obtain ⟨low, high, found⟩ := findSplitBoundary_isBoundary positive within strict.1 strict.2.1 boundary
    exact (strictAt_iff sorted low high).mpr found
  fallback := fun absent => findSplitBoundary_of_none positive within fun place low high boundary =>
    absent ⟨place, (strictAt_iff sorted low high).mpr boundary⟩

theorem findRebalanceSplit_spec {keys : List Int} (sorted : keys.Pairwise (· ≤ ·)) {minSplit maxSplit : Nat} (ideal : Nat)
    (low : 1 ≤ minSplit) (ordered : minSplit ≤ maxSplit) (high : maxSplit < keys.length) :
    RebalanceSplit keys minSplit maxSplit ideal (findRebalanceSplit keys minSplit maxSplit ideal) where
  nearest := by
    intro i found
    obtain ⟨above, below, boundary, nearest⟩ := findRebalanceSplit_nearest ordered found
    refine ⟨above, below, (strictAt_iff sorted (by omega) (by omega)).mpr boundary, fun place above' below' strict => ?_⟩
    exact nearest place above' below' ((strictAt_iff sorted strict.1 strict.2.1).mp strict)
  missing := by
    constructor
    · intro missing place above below strict
      have boundary := (strictAt_iff sorted strict.1 strict.2.1).mp strict
      obtain ⟨found, isFound, -⟩ := findRebalanceSplit_isBoundary ideal above below boundary
      exact absurd (isFound.symm.trans missing) (by simp)
    · intro absent
      cases found : findRebalanceSplit keys minSplit maxSplit ideal with
      | none => rfl
      | some i =>
        obtain ⟨above, below, boundary, -⟩ := findRebalanceSplit_nearest ordered found
        exact absurd ((strictAt_iff sorted (by omega) (by omega)).mpr boundary) (absent i above below)

theorem split_searches_complete (vector : KeyVector) (sorted : vector.keys.Pairwise (· ≤ ·)) :
    (∀ mid, 1 ≤ mid → mid < vector.keys.length → ∃ i, SplitBoundary vector.keys mid i ∧
      ∀ rounds, vector.keys.length ≤ rounds →
        SplitSearch.Finds vector.keys (SplitSearch.findSplitBoundary vector.keys mid rounds) i) ∧
    (∀ minSplit maxSplit ideal, 1 ≤ minSplit → minSplit ≤ maxSplit → maxSplit < vector.keys.length →
      ∃ found, RebalanceSplit vector.keys minSplit maxSplit ideal found ∧
        ∀ rounds, maxSplit < rounds → SplitSearch.Finds vector.keys
          (SplitSearch.findRebalanceSplit vector.keys minSplit maxSplit ideal rounds) found) ∧
    (∀ (C : Type) (read : C → Option LeafNode) (parent : InternalNode C) (idx : Nat) (left right : LeafNode),
      parent.children[idx - 1]?.bind read = some left → parent.children[idx - 1 + 1]?.bind read = some right →
      left.entries.length ≤ kLeafMaxKeys → right.entries.length ≤ kLeafMaxKeys →
      left.keys.Pairwise (· ≤ ·) → right.keys.Pairwise (· ≤ ·) →
      (∀ before ∈ left.keys, ∀ behind ∈ right.keys, before < behind) →
      kLeafMaxKeys < left.entries.length + right.entries.length →
      ∃ mended, fixLeaf read parent idx = some (idx - 1, mended) ∧ Recut left right mended) := by
  refine ⟨fun mid positive within => ?_, fun minSplit maxSplit ideal low ordered high => ?_, ?_⟩
  · exact ⟨_, findSplitBoundary_spec sorted positive within, fun rounds enough =>
      SplitSearch.findSplitBoundary_finds vector positive within enough⟩
  · exact ⟨_, findRebalanceSplit_spec sorted ideal low ordered high, fun rounds enough =>
      SplitSearch.findRebalanceSplit_finds vector ideal low ordered high enough⟩
  · intro C read parent idx left right isLeft isRight leftFits rightFits leftSorted rightSorted apart tooMany
    exact fixLeaf_recut leftFits rightFits leftSorted rightSorted apart tooMany isLeft isRight

theorem split_searches_complete_run :
    (∃ i, SplitBoundary [3, 3, 3, 3, 8] 1 i ∧ ∀ rounds, 5 ≤ rounds →
      SplitSearch.Finds [3, 3, 3, 3, 8] (SplitSearch.findSplitBoundary [3, 3, 3, 3, 8] 1 rounds) i) ∧
    ∃ found, RebalanceSplit [3, 3, 3, 3, 8] 1 4 0 found ∧ ∀ rounds, 4 < rounds →
      SplitSearch.Finds [3, 3, 3, 3, 8] (SplitSearch.findRebalanceSplit [3, 3, 3, 3, 8] 1 4 0 rounds) found := by
  have complete := split_searches_complete ⟨[3, 3, 3, 3, 8], by decide⟩ (by decide)
  exact ⟨complete.1 1 (by decide) (by decide), complete.2.1 1 4 0 (by decide) (by decide) (by decide)⟩

end FlintDB
