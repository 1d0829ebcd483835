import Mathlib.Data.List.Induction

set_option autoImplicit false

-- A system is a function `S → E → Option S`: the label resolves every choice, and `none` says that the step is not
-- enabled.

namespace FlintDB.Lib

universe u v

variable {S : Type u} {E : Type v}

def run (step : S → E → Option S) : S → List E → Option S
  | s, [] => some s
  | s, e :: es => (step s e).bind fun next => run step next es

@[simp] theorem run_nil (step : S → E → Option S) (s : S) : run step s [] = some s := rfl

theorem run_append (step : S → E → Option S) (s : S) (first second : List E) :
    run step s (first ++ second) = (run step s first).bind fun m => run step m second := by
  induction first generalizing s with
  | nil => rfl
  | cons e es ih =>
    cases h : step s e with
    | none => simp [run, h]
    | some next => simp [run, h, ih]

theorem run_append_some {step : S → E → Option S} {s t : S} {first second : List E} :
    run step s (first ++ second) = some t ↔
      ∃ m, run step s first = some m ∧ run step m second = some t := by
  simp [run_append, Option.bind_eq_some_iff]

theorem run_snoc {step : S → E → Option S} {s t : S} {es : List E} {e : E} :
    run step s (es ++ [e]) = some t ↔ ∃ m, run step s es = some m ∧ step m e = some t := by
  simp [run_append, run, Option.bind_eq_some_iff]

theorem run_induction {step : S → E → Option S} {start : S} (P : List E → S → Prop)
    (init : P [] start)
    (next : ∀ es s e s', run step start es = some s → P es s → step s e = some s' → P (es ++ [e]) s')
    {es : List E} {s : S} (reached : run step start es = some s) : P es s := by
  induction es using List.reverseRecOn generalizing s with
  | nil =>
    cases Option.some.inj reached
    exact init
  | append_singleton es e ih =>
    obtain ⟨m, before, last⟩ := run_snoc.mp reached
    exact next es m e s before (ih before) last

def everyStep (step : S → E → Option S) (test : S → E → S → Bool) : S → List E → Bool
  | _, [] => true
  | s, e :: es =>
    match step s e with
    | none => true
    | some next => test s e next && everyStep step test next es

theorem everyStep_iff {step : S → E → Option S} {test : S → E → S → Bool} {start : S} {es : List E} :
    everyStep step test start es = true ↔
      ∀ es' e s s', es' ++ [e] <+: es → run step start es' = some s → step s e = some s' → test s e s' = true := by
  induction es generalizing start with
  | nil => simp [everyStep]
  | cons first es ih =>
    cases taken : step start first with
    | none =>
      simp only [everyStep, taken, true_iff]
      intro es' e s s' earlier reached stepped
      cases es' with
      | nil =>
        cases reached
        obtain ⟨rfl, -⟩ := List.cons_prefix_cons.mp earlier
        cases taken.symm.trans stepped
      | cons e' es' =>
        obtain ⟨rfl, -⟩ := List.cons_prefix_cons.mp earlier
        simp [run, taken] at reached
    | some next =>
      simp only [everyStep, taken, Bool.and_eq_true, ih]
      constructor
      · rintro ⟨here, later⟩ es' e s s' earlier reached stepped
        cases es' with
        | nil =>
          cases reached
          obtain ⟨rfl, -⟩ := List.cons_prefix_cons.mp earlier
          cases taken.symm.trans stepped
          exact here
        | cons e' es' =>
          obtain ⟨rfl, within⟩ := List.cons_prefix_cons.mp earlier
          simp only [run, taken, Option.bind_some] at reached
          exact later es' e s s' within reached stepped
      · intro every
        refine ⟨every [] first start next (by simp) rfl taken, fun es' e s s' earlier reached stepped => ?_⟩
        refine every (first :: es') e s s' (List.cons_prefix_cons.mpr ⟨rfl, earlier⟩) ?_ stepped
        simp [run, taken, reached]

end FlintDB.Lib
