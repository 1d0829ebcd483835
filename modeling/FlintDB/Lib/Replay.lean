import Mathlib.Data.List.Basic
import Mathlib.Data.List.Induction
import Mathlib.Logic.Function.Basic

set_option autoImplicit false

-- A history of accesses says what each read returned. It replays on a store when every read finds there what it
-- returned.

namespace FlintDB.Lib

universe u v

variable {K : Type u} {V : Type v}

section Stores

variable [DecidableEq K]

def applyWrites (store : K → V) (writes : List (K × V)) : K → V :=
  writes.foldl (fun current write => Function.update current write.1 write.2) store

@[simp] theorem applyWrites_nil (store : K → V) : applyWrites store [] = store := rfl

@[simp] theorem applyWrites_singleton (store : K → V) (write : K × V) :
    applyWrites store [write] = Function.update store write.1 write.2 := rfl

theorem applyWrites_append (store : K → V) (first second : List (K × V)) :
    applyWrites store (first ++ second) = applyWrites (applyWrites store first) second := by
  simp [applyWrites, List.foldl_append]

theorem applyWrites_snoc (store : K → V) (writes : List (K × V)) (key : K) (value : V) :
    applyWrites store (writes ++ [(key, value)]) =
      Function.update (applyWrites store writes) key value := by
  simp [applyWrites_append]

theorem applyWrites_unwritten (store : K → V) (writes : List (K × V)) (key : K)
    (unwritten : key ∉ writes.map Prod.fst) : applyWrites store writes key = store key := by
  induction writes generalizing store with
  | nil => rfl
  | cons write rest ih =>
    simp only [List.map_cons, List.mem_cons, not_or] at unwritten
    change applyWrites (Function.update store write.1 write.2) rest key = store key
    rw [ih _ unwritten.2, Function.update_of_ne unwritten.1]

theorem applyWrites_congr (store store' : K → V) (writes : List (K × V)) (key : K)
    (same : key ∈ writes.map Prod.fst ∨ store key = store' key) :
    applyWrites store writes key = applyWrites store' writes key := by
  induction writes generalizing store store' with
  | nil => simpa using same
  | cons write rest ih =>
    apply ih
    by_cases here : key = write.1
    · exact .inr (by simp [here])
    · rcases same with member | equal
      · simp only [List.map_cons, List.mem_cons, here, false_or] at member
        exact .inl member
      · exact .inr (by simp [here, equal])

theorem applyWrites_mem (store : K → V) {writes : List (K × V)} {key : K}
    (written : key ∈ writes.map Prod.fst) : (key, applyWrites store writes key) ∈ writes := by
  induction writes generalizing store with
  | nil => cases written
  | cons write rest ih =>
    by_cases later : key ∈ rest.map Prod.fst
    · exact List.mem_cons_of_mem _ (ih _ later)
    · have here : key = write.1 := by simpa [later] using written
      change (key, applyWrites (Function.update store write.1 write.2) rest key) ∈ write :: rest
      rw [applyWrites_unwritten _ _ _ later, here, Function.update_self]
      exact List.mem_cons_self

theorem applyWrites_eq {writes writes' : List (K × V)}
    (keys : ∀ key, key ∈ writes.map Prod.fst ↔ key ∈ writes'.map Prod.fst)
    (values : ∀ key value, (key, value) ∈ writes → ∀ store, applyWrites store writes' key = value)
    (store : K → V) : applyWrites store writes = applyWrites store writes' := by
  funext key
  by_cases written : key ∈ writes.map Prod.fst
  · exact (values key _ (applyWrites_mem store written) store).symm
  · rw [applyWrites_unwritten _ _ _ written,
      applyWrites_unwritten _ _ _ fun other => written ((keys key).mpr other)]

theorem applyWrites_flatMap_congr {A : Type*} {as : List A} {first second : A → List (K × V)}
    (same : ∀ a ∈ as, ∀ store, applyWrites store (first a) = applyWrites store (second a))
    (store : K → V) :
    applyWrites store (as.flatMap first) = applyWrites store (as.flatMap second) := by
  induction as generalizing store with
  | nil => rfl
  | cons a as ih =>
    simp only [List.flatMap_cons, applyWrites_append]
    rw [same a List.mem_cons_self, ih fun b member => same b (List.mem_cons_of_mem _ member)]

def lastWrite (writes : List (K × V)) (key : K) : Option V :=
  (writes.reverse.find? fun write => write.1 = key).map Prod.snd

theorem applyWrites_eq_lastWrite (store : K → V) (writes : List (K × V)) (key : K) :
    applyWrites store writes key = (lastWrite writes key).getD (store key) := by
  induction writes using List.reverseRecOn with
  | nil => rfl
  | append_singleton writes write ih =>
    obtain ⟨last, value⟩ := write
    rw [applyWrites_snoc, lastWrite, List.reverse_append, List.reverse_singleton, List.singleton_append,
      List.find?_cons]
    by_cases here : last = key
    · simp [here]
    · simpa [here, Ne.symm here, lastWrite] using ih

theorem applyWrites_flatMap {A : Type*} (store : K → V) (writes : A → List (K × V)) (as : List A) (key : K) :
    applyWrites store (as.flatMap writes) key =
      (as.reverse.findSome? fun a => lastWrite (writes a) key).getD (store key) := by
  induction as using List.reverseRecOn with
  | nil => rfl
  | append_singleton as a ih =>
    rw [List.flatMap_append, List.flatMap_singleton, applyWrites_append, applyWrites_eq_lastWrite, ih,
      List.reverse_append, List.reverse_singleton, List.singleton_append, List.findSome?_cons]
    cases lastWrite (writes a) key <;> rfl

theorem applyWrites_filter {A : Type*} (store : K → V) (writes : A → List (K × V)) {as : List A} {keep : A → Bool}
    {key : K} (unwritten : ∀ a ∈ as, keep a = false → key ∉ (writes a).map Prod.fst) :
    applyWrites store ((as.filter keep).flatMap writes) key = applyWrites store (as.flatMap writes) key := by
  induction as using List.reverseRecOn with
  | nil => rfl
  | append_singleton as a ih =>
    have before := ih fun b member => unwritten b (List.mem_append_left _ member)
    rw [List.filter_append, List.flatMap_append, List.flatMap_append, List.flatMap_singleton, applyWrites_append,
      applyWrites_append]
    cases kept : keep a with
    | true =>
      rw [List.filter_cons_of_pos kept, List.filter_nil, List.flatMap_singleton]
      exact applyWrites_congr _ _ _ _ (.inr before)
    | false =>
      rw [List.filter_cons_of_neg (by simp [kept]), List.filter_nil, List.flatMap_nil, applyWrites_nil, before,
        applyWrites_unwritten _ (writes a) _ (unwritten a (by simp) kept)]

end Stores

inductive Access (K : Type u) (V : Type v)
  | read (key : K) (value : V)
  | write (key : K) (value : V)

namespace Access

def key : Access K V → K
  | read key _ => key
  | write key _ => key

def asWrite : Access K V → Option (K × V)
  | read _ _ => none
  | write key value => some (key, value)

end Access

def writesOf (history : List (Access K V)) : List (K × V) := history.filterMap Access.asWrite

@[simp] theorem writesOf_nil : writesOf ([] : List (Access K V)) = [] := rfl

@[simp] theorem writesOf_read (key : K) (value : V) (rest : List (Access K V)) :
    writesOf (.read key value :: rest) = writesOf rest := rfl

@[simp] theorem writesOf_write (key : K) (value : V) (rest : List (Access K V)) :
    writesOf (.write key value :: rest) = (key, value) :: writesOf rest := rfl

@[simp] theorem writesOf_append (first second : List (Access K V)) :
    writesOf (first ++ second) = writesOf first ++ writesOf second := by
  simp [writesOf]

theorem writesOf_flatMap {A : Type*} (histories : A → List (Access K V)) (as : List A) :
    writesOf (as.flatMap histories) = as.flatMap fun a => writesOf (histories a) := by
  induction as with
  | nil => rfl
  | cons a as ih => simp [ih]

variable [DecidableEq K]

/-- Every read of the history finds what it returned. -/
def Replays : (K → V) → List (Access K V) → Prop
  | _, [] => True
  | store, .read key value :: rest => store key = value ∧ Replays store rest
  | store, .write key value :: rest => Replays (Function.update store key value) rest

theorem replays_append (store : K → V) (first second : List (Access K V)) :
    Replays store (first ++ second) ↔
      Replays store first ∧ Replays (applyWrites store (writesOf first)) second := by
  induction first generalizing store with
  | nil => simp [Replays]
  | cons access rest ih =>
    cases access with
    | read key value => simp [Replays, ih, and_assoc]
    | write key value => simp [Replays, ih, applyWrites]

theorem replays_congr {store store' : K → V} {history : List (Access K V)}
    (same : ∀ access ∈ history, store access.key = store' access.key)
    (replays : Replays store history) : Replays store' history := by
  induction history generalizing store store' with
  | nil => trivial
  | cons access rest ih =>
    have tail : ∀ access ∈ rest, store access.key = store' access.key := fun access member =>
      same access (List.mem_cons_of_mem _ member)
    cases access with
    | read key value =>
      have here : store key = store' key := same (.read key value) List.mem_cons_self
      exact ⟨here ▸ replays.1, ih tail replays.2⟩
    | write key value =>
      refine ih (fun access member => ?_) replays
      by_cases here : access.key = key
      · simp [here]
      · simp [here, tail access member]

end FlintDB.Lib
