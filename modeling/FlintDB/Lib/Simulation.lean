import Mathlib.Data.List.Forall2
import Mathlib.Data.List.Induction

set_option autoImplicit false

-- A machine is a function `S → E → A × S`. Two machines cannot be told apart by their answers if they can be kept in
-- related states.

namespace FlintDB.Lib

universe u v w

variable {S : Type u} {T : Type v} {E : Type w} {A B : Type}

namespace Machine

/-- Where the machine is after the requests. -/
def after (step : S → E → A × S) (s : S) (es : List E) : S := es.foldl (fun s e => (step s e).2) s

def answers (step : S → E → A × S) : S → List E → List A
  | _, [] => []
  | s, e :: es => (step s e).1 :: answers step (step s e).2 es

theorem after_snoc (step : S → E → A × S) (s : S) (es : List E) (e : E) :
    after step s (es ++ [e]) = (step (after step s es) e).2 := List.foldl_append ..

theorem answers_snoc (step : S → E → A × S) (s : S) (es : List E) (e : E) :
    answers step s (es ++ [e]) = answers step s es ++ [(step (after step s es) e).1] := by
  induction es generalizing s with
  | nil => rfl
  | cons first es ih =>
    rw [List.cons_append, answers, ih]
    rfl

variable {step : S → E → A × S} {step' : T → E → B × T} {s : S} {t : T}

theorem simulates (R : S → T → Prop) (alike : A → B → Prop) (init : R s t) {es : List E}
    (next : ∀ before e, before ++ [e] <+: es → R (after step s before) (after step' t before) →
      alike (step (after step s before) e).1 (step' (after step' t before) e).1 ∧
        R (step (after step s before) e).2 (step' (after step' t before) e).2) :
    List.Forall₂ alike (answers step s es) (answers step' t es) ∧ R (after step s es) (after step' t es) := by
  induction es using List.reverseRecOn with
  | nil => exact ⟨.nil, init⟩
  | append_singleton es e ih =>
    obtain ⟨answered, related⟩ := ih fun before e earlier => next before e (earlier.trans (List.prefix_append _ _))
    obtain ⟨here, onward⟩ := next es e (List.prefix_refl _) related
    rw [answers_snoc, answers_snoc, after_snoc, after_snoc]
    exact ⟨List.rel_append answered (.cons here .nil), onward⟩

end Machine

end FlintDB.Lib
