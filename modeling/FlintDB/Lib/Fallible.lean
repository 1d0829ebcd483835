import Mathlib.Data.List.Forall2

set_option autoImplicit false

-- A throw ends the program but takes back nothing: the state is the one reached so far.

namespace FlintDB.Lib

abbrev Fallible (σ ε : Type) := ExceptT ε (StateM σ)

namespace Fallible

variable {σ ε α β : Type}

/-- The outcome of a program from a state, and the state it leaves. -/
def exec (program : Fallible σ ε α) (s : σ) : Except ε α × σ := program.run.run s

@[simp] theorem exec_pure (a : α) (s : σ) : exec (pure a : Fallible σ ε α) s = (.ok a, s) := rfl

@[simp] theorem exec_throw (e : ε) (s : σ) :
    exec (throw e : Fallible σ ε α) s = (.error e, s) := rfl

@[simp] theorem exec_get (s : σ) : exec (get : Fallible σ ε σ) s = (.ok s, s) := rfl

@[simp] theorem exec_set (s s' : σ) : exec (set s' : Fallible σ ε PUnit) s = (.ok ⟨⟩, s') := rfl

@[simp] theorem exec_modify (f : σ → σ) (s : σ) :
    exec (modify f : Fallible σ ε PUnit) s = (.ok ⟨⟩, f s) := rfl

theorem exec_bind (program : Fallible σ ε α) (next : α → Fallible σ ε β) (s : σ) :
    exec (program >>= next) s =
      match exec program s with
      | (.ok a, s') => exec (next a) s'
      | (.error e, s') => (.error e, s') := by
  simp only [exec, bind, ExceptT.bind, ExceptT.mk, ExceptT.run, StateT.run, StateT.bind]
  rcases program s with ⟨outcome, s'⟩
  cases outcome <;> rfl

theorem exec_bind_ok {program : Fallible σ ε α} {next : α → Fallible σ ε β} {s s' : σ} {a : α}
    (done : exec program s = (.ok a, s')) : exec (program >>= next) s = exec (next a) s' := by
  rw [exec_bind, done]

theorem exec_bind_error {program : Fallible σ ε α} {next : α → Fallible σ ε β} {s s' : σ} {e : ε}
    (thrown : exec program s = (.error e, s')) :
    exec (program >>= next) s = (.error e, s') := by
  rw [exec_bind, thrown]

theorem exec_bind_eq_ok {program : Fallible σ ε α} {next : α → Fallible σ ε β} {s s' : σ} {b : β}
    (done : exec (program >>= next) s = (.ok b, s')) :
    ∃ a s₁, exec program s = (.ok a, s₁) ∧ exec (next a) s₁ = (.ok b, s') := by
  rw [exec_bind] at done
  rcases first : exec program s with ⟨_ | a, s₁⟩
  · rw [first] at done
    cases done
  · rw [first] at done
    exact ⟨a, s₁, rfl, done⟩

@[simp] theorem exec_liftM (outcome : Except ε α) (s : σ) :
    exec (liftM outcome : Fallible σ ε α) s = (outcome, s) := rfl

theorem exec_tryCatch (program : Fallible σ ε α) (handler : ε → Fallible σ ε α) (s : σ) :
    exec (tryCatch program handler) s =
      match exec program s with
      | (.ok a, s') => (.ok a, s')
      | (.error e, s') => exec (handler e) s' := by
  change (ExceptT.tryCatch program handler) s = match program s with
    | (.ok a, s') => (.ok a, s')
    | (.error e, s') => (handler e) s'
  simp only [ExceptT.tryCatch, ExceptT.mk, bind, StateT.bind]
  rcases program s with ⟨outcome, s'⟩
  cases outcome <;> rfl

-- A loop that appends what each round gives.
def collect (body : α → Fallible σ ε (List β)) : List α → Fallible σ ε (List β)
  | [] => return []
  | a :: as => do
    let here ← body a
    let rest ← collect body as
    return here ++ rest

def Yields (I : σ → Prop) (program : Fallible σ ε α) (a : α) : Prop :=
  ∀ s, I s → ∃ s', exec program s = (.ok a, s') ∧ I s'

namespace Yields

variable {I : σ → Prop}

theorem pure (a : α) : Yields I (pure a : Fallible σ ε α) a :=
  fun s holds => ⟨s, rfl, holds⟩

theorem lift {outcome : Except ε α} {a : α} (returns : outcome = .ok a) :
    Yields I (liftM outcome : Fallible σ ε α) a :=
  fun s holds => ⟨s, by rw [exec_liftM, returns], holds⟩

theorem bind {program : Fallible σ ε α} {next : α → Fallible σ ε β} {a : α} {b : β}
    (first : Yields I program a) (second : Yields I (next a) b) : Yields I (program >>= next) b := by
  intro s holds
  obtain ⟨s₁, done, holds₁⟩ := first s holds
  obtain ⟨s₂, done₂, holds₂⟩ := second s₁ holds₁
  exact ⟨s₂, by rw [exec_bind_ok done, done₂], holds₂⟩

theorem get_bind {next : σ → Fallible σ ε β} {b : β} (each : ∀ s, I s → Yields I (next s) b) :
    Yields I (get >>= next) b := by
  intro s holds
  rw [exec_bind_ok (exec_get s)]
  exact each s holds s holds

theorem collect_view {γ : Type} {body : α → Fallible σ ε (List β)} (view : γ → α) (f : γ → List β)
    {items : List γ} (each : ∀ item ∈ items, Yields I (body (view item)) (f item)) :
    Yields I (collect body (items.map view)) (items.flatMap f) := by
  induction items with
  | nil => exact Yields.pure []
  | cons item items ih =>
    apply Yields.bind (each item List.mem_cons_self)
    apply Yields.bind (ih fun other member => each other (List.mem_cons_of_mem _ member))
    exact Yields.pure _

theorem collect {body : α → Fallible σ ε (List β)} {f : α → List β} {as : List α}
    (each : ∀ a ∈ as, Yields I (body a) (f a)) : Yields I (collect body as) (as.flatMap f) := by
  simpa using collect_view id f each

end Yields

def Meets (P : σ → Prop) (program : Fallible σ ε α) (Q : α → σ → Prop) (E : σ → Prop) : Prop :=
  ∀ s, P s → match exec program s with
    | (.ok a, s') => Q a s'
    | (.error _, s') => E s'

namespace Meets

variable {P P' : σ → Prop} {Q : α → σ → Prop} {R : β → σ → Prop} {E : σ → Prop}

theorem pure (a : α) (holds : ∀ s, P s → Q a s) : Meets P (pure a : Fallible σ ε α) Q E :=
  fun s before => holds s before

theorem throw (e : ε) (holds : ∀ s, P s → E s) : Meets P (throw e : Fallible σ ε α) Q E :=
  fun s before => holds s before

theorem any (program : Fallible σ ε α) : Meets P program (fun _ _ => True) fun _ => True := by
  intro s _
  split <;> trivial

theorem of_pre (weaker : ∀ s, P s → P' s) {program : Fallible σ ε α} (met : Meets P' program Q E) :
    Meets P program Q E :=
  fun s before => met s (weaker s before)

theorem of_post {Q' : α → σ → Prop} {program : Fallible σ ε α} (met : Meets P program Q E)
    (stronger : ∀ a s, Q a s → Q' a s) : Meets P program Q' E := by
  intro s before
  have here := met s before
  split at here
  · exact stronger _ _ here
  · exact here

theorem of_error {E' : σ → Prop} {program : Fallible σ ε α} (met : Meets P program Q E)
    (weaker : ∀ s, E s → E' s) : Meets P program Q E' := by
  intro s before
  have here := met s before
  split at here
  · exact here
  · exact weaker _ here

theorem of_exec_error {program : Fallible σ ε α} {s s' : σ} {e : ε} (fails : exec program s = (.error e, s'))
    (holds : E s') : Meets (· = s) program Q E := by
  rintro _ rfl
  rw [fails]
  exact holds

theorem of_exists {γ : Type} {P : γ → σ → Prop} {program : Fallible σ ε α} (met : ∀ c, Meets (P c) program Q E) :
    Meets (fun s => ∃ c, P c s) program Q E :=
  fun s ⟨c, before⟩ => met c s before

theorem of_fact {fact : Prop} {program : Fallible σ ε α} (met : fact → Meets P program Q E) :
    Meets (fun s => fact ∧ P s) program Q E :=
  fun s before => met before.1 s before.2

theorem bind {program : Fallible σ ε α} {next : α → Fallible σ ε β} (first : Meets P program Q E)
    (second : ∀ a, Meets (Q a) (next a) R E) : Meets P (program >>= next) R E := by
  intro s before
  have here := first s before
  rw [exec_bind]
  split at here
  · exact second _ _ here
  · exact here

theorem bind_bind {γ : Type} {program : Fallible σ ε α} {next : α → Fallible σ ε β} {last : β → Fallible σ ε γ}
    {S : γ → σ → Prop} (both : Meets P (program >>= next) R E) (third : ∀ b, Meets (R b) (last b) S E) :
    Meets P (program >>= fun a => next a >>= last) S E := by
  rw [← bind_assoc]
  exact bind both third

theorem get_bind {next : σ → Fallible σ ε β} (each : ∀ s, P s → Meets (· = s) (next s) R E) :
    Meets P (Bind.bind MonadState.get next) R E := by
  intro s before
  rw [exec_bind_ok (exec_get s)]
  exact each s before s rfl

theorem get_bind_any {next : σ → Fallible σ ε β} (each : ∀ s, P s → Meets P (next s) R E) :
    Meets P (Bind.bind MonadState.get next) R E :=
  get_bind fun s before => of_pre (fun _ same => same ▸ before) (each s before)

theorem lift {outcome : Except ε α} (returns : ∀ a, outcome = .ok a → ∀ s, P s → Q a s)
    (throws : ∀ s, P s → E s) : Meets P (liftM outcome : Fallible σ ε α) Q E := by
  intro s before
  rw [exec_liftM]
  cases outcome with
  | ok a => exact returns a rfl s before
  | error e => exact throws s before

theorem ok_bind {a : α} {next : α → Fallible σ ε β} (met : Meets P (next a) R E) :
    Meets P ((liftM (Except.ok a : Except ε α) : Fallible σ ε α) >>= next) R E := by
  intro s before
  rw [exec_bind_ok (exec_liftM (.ok a) s)]
  exact met s before

theorem forM_view {γ : Type} {body : α → Fallible σ ε PUnit} (view : γ → α) (I : List γ → σ → Prop) {items : List γ}
    (each : ∀ before item after, items = before ++ item :: after →
      Meets (I before) (body (view item)) (fun _ => I (before ++ [item])) E) :
    Meets (I []) ((items.map view).forM body) (fun _ => I items) E := by
  suffices onward : ∀ rest before, items = before ++ rest →
      Meets (I before) ((rest.map view).forM body) (fun _ => I items) E from onward items [] rfl
  intro rest
  induction rest with
  | nil =>
    intro before split
    rw [List.append_nil] at split
    exact Meets.pure _ fun s holds => split ▸ holds
  | cons item rest ih =>
    intro before split
    show Meets (I before) (body (view item) >>= fun _ => (rest.map view).forM body) _ E
    exact Meets.bind (each before item rest split) fun _ => ih (before ++ [item]) (by simp [split])

theorem forM {body : α → Fallible σ ε PUnit} (I : List α → σ → Prop) {as : List α}
    (each : ∀ before a after, as = before ++ a :: after → Meets (I before) (body a) (fun _ => I (before ++ [a])) E) :
    Meets (I []) (as.forM body) (fun _ => I as) E := by
  have looped : Meets (I []) ((as.map id).forM body) (fun _ => I as) E := forM_view id I each
  rwa [List.map_id] at looped

theorem collect_view {γ : Type} {body : α → Fallible σ ε (List β)} (view : γ → α) (I : List γ → σ → Prop)
    {items : List γ} (each : ∀ before item after, items = before ++ item :: after →
      Meets (I before) (body (view item)) (fun _ => I (before ++ [item])) E) :
    Meets (I []) (collect body (items.map view)) (fun _ => I items) E := by
  suffices onward : ∀ rest before, items = before ++ rest →
      Meets (I before) (collect body (rest.map view)) (fun _ => I items) E from onward items [] rfl
  intro rest
  induction rest with
  | nil =>
    intro before split
    rw [List.append_nil] at split
    exact Meets.pure _ fun s holds => split ▸ holds
  | cons item rest ih =>
    intro before split
    refine Meets.bind (each before item rest split) fun here => ?_
    exact Meets.bind (ih (before ++ [item]) (by simp [split])) fun _ => Meets.pure _ fun s holds => holds

theorem collect_filter {body : α → Fallible σ ε (List β)} (view : β → α) (keep : β → Bool) (I : List β → σ → Prop)
    {items : List β} (each : ∀ before item after, items = before ++ item :: after →
      Meets (I (before.filter keep)) (body (view item))
        (fun here s => here = [item].filter keep ∧ I (before.filter keep ++ [item].filter keep) s) E) :
    Meets (I []) (Fallible.collect body (items.map view))
      (fun all s => all = items.filter keep ∧ I (items.filter keep) s) E := by
  suffices onward : ∀ rest before, items = before ++ rest → Meets (I (before.filter keep))
      (Fallible.collect body (rest.map view)) (fun all s => all = rest.filter keep ∧ I (items.filter keep) s) E from
    onward items [] rfl
  intro rest
  induction rest with
  | nil =>
    intro before split
    rw [List.append_nil] at split
    exact Meets.pure _ fun s holds => ⟨rfl, split ▸ holds⟩
  | cons item rest ih =>
    intro before split
    refine Meets.bind (each before item rest split) fun here => Meets.of_fact fun isHere => ?_
    have onward := ih (before ++ [item]) (by simp [split])
    rw [List.filter_append] at onward
    refine Meets.bind onward fun others => Meets.of_fact fun areOthers => Meets.pure _ fun s holds => ⟨?_, holds⟩
    rw [isHere, areOthers, ← List.filter_append]
    rfl

theorem collect {body : α → Fallible σ ε (List β)} (each : ∀ a, Meets P (body a) (fun _ => P) E) (as : List α) :
    Meets P (collect body as) (fun _ => P) E := by
  have looped : Meets P (Fallible.collect body (as.map id)) (fun _ => P) E :=
    collect_view id (fun _ => P) fun _ a _ _ => each a
  rwa [List.map_id] at looped

theorem of_yields {I E' : σ → Prop} {program : Fallible σ ε α} {a : α} (met : Meets P program Q E)
    (yields : Yields I program a) (start : ∀ s, P s → I s) : Meets P program (fun b s => b = a ∧ Q b s) E' := by
  intro s before
  have here := met s before
  obtain ⟨s', returned, -⟩ := yields s (start s before)
  rw [returned] at here ⊢
  exact ⟨rfl, here⟩

end Meets

def Raises (P : σ → Prop) (program : Fallible σ ε α) (K : ε → Prop) : Prop :=
  ∀ s, P s → ∀ e s', exec program s = (.error e, s') → K e

namespace Raises

variable {P P' : σ → Prop} {Q : α → σ → Prop} {K : ε → Prop}

theorem pure (a : α) : Raises P (pure a : Fallible σ ε α) K := by
  rintro s - e s' ⟨⟩

theorem throw {e : ε} (kind : K e) : Raises P (throw e : Fallible σ ε α) K := by
  rintro s - _ s' ⟨⟩
  exact kind

theorem of_fact {fact : Prop} {program : Fallible σ ε α} (raises : fact → Raises P program K) :
    Raises (fun s => fact ∧ P s) program K :=
  fun s before => raises before.1 s before.2

theorem bind {program : Fallible σ ε α} {next : α → Fallible σ ε β} {E : σ → Prop} (first : Raises P program K)
    (met : Meets P program Q E) (second : ∀ a, Raises (Q a) (next a) K) : Raises P (program >>= next) K := by
  intro s before e s' thrown
  have here := met s before
  rw [exec_bind] at thrown
  rcases ran : exec program s with ⟨_ | a, s₁⟩
  · rw [ran] at thrown
    cases thrown
    exact first s before e s' ran
  · rw [ran] at thrown here
    exact second a s₁ here e s' thrown

theorem after {program : Fallible σ ε α} {next : α → Fallible σ ε β} (met : Meets P program Q fun _ => False)
    (second : ∀ a, Raises (Q a) (next a) K) : Raises P (program >>= next) K := by
  refine bind (fun s before e s' thrown => ?_) met second
  have here := met s before
  rw [thrown] at here
  exact here.elim

theorem get_bind {next : σ → Fallible σ ε β} (each : ∀ s, P s → Raises P (next s) K) :
    Raises P (Bind.bind MonadState.get next) K := by
  intro s before e s' thrown
  rw [exec_bind_ok (exec_get s)] at thrown
  exact each s before s before e s' thrown

theorem ok_bind {a : α} {next : α → Fallible σ ε β} (raises : Raises P (next a) K) :
    Raises P ((liftM (Except.ok a : Except ε α) : Fallible σ ε α) >>= next) K := by
  intro s before e s' thrown
  rw [exec_bind_ok (exec_liftM (.ok a) s)] at thrown
  exact raises s before e s' thrown

theorem forM {body : α → Fallible σ ε PUnit} {as : List α} (each : ∀ a ∈ as, Raises P (body a) K)
    (keeps : ∀ a ∈ as, Meets P (body a) (fun _ => P) fun _ => True) : Raises P (as.forM body) K := by
  induction as with
  | nil => exact pure _
  | cons a as ih =>
    obtain ⟨first, rest⟩ := List.forall_mem_cons.mp each
    obtain ⟨keepsFirst, keepsRest⟩ := List.forall_mem_cons.mp keeps
    show Raises P (body a >>= fun _ => as.forM body) K
    exact bind first keepsFirst fun _ => ih rest keepsRest

end Raises

-- What is known of the value, or of the exception.
def Gives (outcome : Except ε α) (Q : α → Prop) (K : ε → Prop) : Prop :=
  match outcome with
  | .ok a => Q a
  | .error e => K e

namespace Gives

variable {Q Q' : α → Prop} {R : β → Prop} {K : ε → Prop}

theorem mono {outcome : Except ε α} (gives : Gives outcome Q K) (weaker : ∀ a, Q a → Q' a) :
    Gives outcome Q' K := by
  cases outcome with
  | ok a => exact weaker a gives
  | error e => exact gives

theorem bind {outcome : Except ε α} {next : α → Except ε β} (first : Gives outcome Q K)
    (second : ∀ a, Q a → Gives (next a) R K) : Gives (outcome >>= next) R K := by
  cases outcome with
  | ok a => exact second a first
  | error e => exact first

theorem forM {check : α → Except ε Unit} {as : List α} (each : ∀ a ∈ as, Gives (check a) (fun _ => True) K) :
    Gives (as.forM check) (fun _ => True) K := by
  induction as with
  | nil => exact trivial
  | cons a as ih =>
    obtain ⟨first, rest⟩ := List.forall_mem_cons.mp each
    exact bind first fun _ _ => ih rest

theorem mapM {f : α → Except ε β} {as : List α} (each : ∀ a ∈ as, Gives (f a) R K) :
    Gives (as.mapM f) (fun bs => ∀ b ∈ bs, R b) K := by
  induction as with
  | nil =>
    intro b none
    cases none
  | cons a as ih =>
    obtain ⟨first, rest⟩ := List.forall_mem_cons.mp each
    rw [List.mapM_cons]
    exact bind first fun b here => bind (ih rest) fun bs others => List.forall_mem_cons.mpr ⟨here, others⟩

end Gives

-- From a state with the invariant: the invariant again and something of what is returned, or a throw of this kind.
def Ends (I : σ → Prop) (program : Fallible σ ε α) (Q : α → Prop) (K : ε → Prop) : Prop :=
  ∀ s, I s → match exec program s with
    | (.ok a, s') => I s' ∧ Q a
    | (.error e, _) => K e

namespace Ends

variable {I : σ → Prop} {Q : α → Prop} {R : β → Prop} {K : ε → Prop}

theorem pure {a : α} (holds : Q a) : Ends I (pure a : Fallible σ ε α) Q K := fun _ inv => ⟨inv, holds⟩

theorem throw {e : ε} (kind : K e) : Ends I (throw e : Fallible σ ε α) Q K := fun _ _ => kind

theorem get : Ends I (get : Fallible σ ε σ) I K := fun _ inv => ⟨inv, inv⟩

theorem modify {f : σ → σ} (kept : ∀ s, I s → I (f s)) :
    Ends I (modify f : Fallible σ ε PUnit) (fun _ => True) K := fun s inv => ⟨kept s inv, trivial⟩

theorem set {s' : σ} (kept : I s') : Ends I (set s' : Fallible σ ε PUnit) (fun _ => True) K := fun _ _ => ⟨kept, trivial⟩

theorem lift {outcome : Except ε α} (gives : Gives outcome Q K) : Ends I (liftM outcome : Fallible σ ε α) Q K := by
  intro s inv
  rw [exec_liftM]
  cases outcome with
  | ok a => exact ⟨inv, gives⟩
  | error e => exact gives

theorem bind {program : Fallible σ ε α} {next : α → Fallible σ ε β} (first : Ends I program Q K)
    (second : ∀ a, Q a → Ends I (next a) R K) : Ends I (program >>= next) R K := by
  intro s inv
  have here := first s inv
  rw [exec_bind]
  rcases ran : exec program s with ⟨_ | a, s₁⟩
  · rw [ran] at here
    exact here
  · rw [ran] at here
    exact second a here.2 s₁ here.1

theorem gives {program : Fallible σ ε α} (ends : Ends (fun _ => True) program Q K) (s : σ) :
    Gives (exec program s).1 Q K := by
  have here := ends s trivial
  rcases ran : exec program s with ⟨e | a, s₁⟩
  · rw [ran] at here
    exact here
  · rw [ran] at here
    exact here.2

theorem forM {body : α → Fallible σ ε PUnit} {as : List α} (each : ∀ a ∈ as, Ends I (body a) (fun _ => True) K) :
    Ends I (as.forM body) (fun _ => True) K := by
  induction as with
  | nil => exact pure trivial
  | cons a as ih =>
    obtain ⟨first, rest⟩ := List.forall_mem_cons.mp each
    exact bind first fun _ _ => ih rest

theorem collect {body : α → Fallible σ ε (List β)} {as : List α} (each : ∀ a ∈ as, Ends I (body a) (fun _ => True) K) :
    Ends I (collect body as) (fun _ => True) K := by
  induction as with
  | nil => exact pure trivial
  | cons a as ih =>
    obtain ⟨first, rest⟩ := List.forall_mem_cons.mp each
    exact bind first fun _ _ => bind (ih rest) fun _ _ => pure trivial

end Ends

def Keeps (I : σ → Prop) (program : Fallible σ ε α) : Prop := Meets I program (fun _ => I) I

namespace Keeps

variable {I : σ → Prop}

theorem pure (a : α) : Keeps I (pure a : Fallible σ ε α) := fun _ holds => holds

theorem throw (e : ε) : Keeps I (throw e : Fallible σ ε α) := fun _ holds => holds

theorem bind {program : Fallible σ ε α} {next : α → Fallible σ ε β} (first : Keeps I program)
    (second : ∀ a, Keeps I (next a)) : Keeps I (program >>= next) := Meets.bind first second

theorem lift (outcome : Except ε α) : Keeps I (liftM outcome : Fallible σ ε α) :=
  Meets.lift (fun _ _ _ holds => holds) fun _ holds => holds

theorem forM {body : α → Fallible σ ε PUnit} (each : ∀ a, Keeps I (body a)) (as : List α) : Keeps I (as.forM body) :=
  Meets.forM (fun _ => I) fun _ a _ _ => each a

theorem get_bind {next : σ → Fallible σ ε β} (each : ∀ s, Keeps I (next s)) :
    Keeps I (Bind.bind MonadState.get next) := Meets.get_bind_any fun s _ => each s

end Keeps

def Agrees (R : σ → σ → Prop) (program : Fallible σ ε α) : Prop :=
  ∀ s t, R s t → (exec program s).1 = (exec program t).1 ∧ R (exec program s).2 (exec program t).2

namespace Agrees

variable {R : σ → σ → Prop}

theorem pure (a : α) : Agrees R (pure a : Fallible σ ε α) := fun _ _ related => ⟨rfl, related⟩

theorem throw (e : ε) : Agrees R (throw e : Fallible σ ε α) := fun _ _ related => ⟨rfl, related⟩

theorem bind {program : Fallible σ ε α} {next : α → Fallible σ ε β} (first : Agrees R program)
    (second : ∀ a, Agrees R (next a)) : Agrees R (program >>= next) := by
  intro s t related
  obtain ⟨alike, after⟩ := first s t related
  rw [exec_bind, exec_bind]
  rcases left : exec program s with ⟨outcome, s'⟩
  rcases right : exec program t with ⟨outcome', t'⟩
  rw [left, right] at alike after
  cases (alike : outcome = outcome')
  cases outcome with
  | ok a => exact second a s' t' after
  | error e => exact ⟨rfl, after⟩

theorem bind_of {program : Fallible σ ε α} {next : α → Fallible σ ε β} {P : α → Prop}
    (first : ∀ s t, R s t → ∃ a, P a ∧ exec program s = (.ok a, s) ∧ exec program t = (.ok a, t))
    (second : ∀ a, P a → Agrees R (next a)) : Agrees R (program >>= next) := by
  intro s t related
  obtain ⟨a, holds, left, right⟩ := first s t related
  rw [exec_bind_ok left, exec_bind_ok right]
  exact second a holds s t related

theorem modify {f : σ → σ} (kept : ∀ s t, R s t → R (f s) (f t)) :
    Agrees R (modify f : Fallible σ ε PUnit) :=
  fun s t related => ⟨rfl, kept s t related⟩

theorem tryCatch {program : Fallible σ ε α} {handler : ε → Fallible σ ε α} (first : Agrees R program)
    (second : ∀ e, Agrees R (handler e)) : Agrees R (tryCatch program handler) := by
  intro s t related
  obtain ⟨alike, after⟩ := first s t related
  rw [exec_tryCatch, exec_tryCatch]
  rcases left : exec program s with ⟨outcome, s'⟩
  rcases right : exec program t with ⟨outcome', t'⟩
  rw [left, right] at alike after
  cases (alike : outcome = outcome')
  cases outcome with
  | ok a => exact ⟨rfl, after⟩
  | error e => exact second e s' t' after

end Agrees

end Fallible

section Except

variable {ε α β : Type}

theorem bind_eq_ok {outcome : Except ε α} {next : α → Except ε β} {b : β} :
    (outcome >>= next) = .ok b ↔ ∃ a, outcome = .ok a ∧ next a = .ok b := by
  cases outcome <;> simp [bind, Except.bind]

theorem forM_eq_ok {check : α → Except ε Unit} {as : List α} :
    as.forM check = .ok () ↔ ∀ a ∈ as, check a = .ok () := by
  induction as with
  | nil => simp [pure, Except.pure]
  | cons a as ih =>
    rw [List.forall_mem_cons, ← ih]
    show (check a >>= fun _ => as.forM check) = .ok () ↔ _
    rw [bind_eq_ok]
    exact ⟨fun ⟨_, first, rest⟩ => ⟨first, rest⟩, fun ⟨first, rest⟩ => ⟨(), first, rest⟩⟩

theorem mapM_eq_ok {f : α → Except ε β} {as : List α} {bs : List β} :
    as.mapM f = .ok bs ↔ List.Forall₂ (fun a b => f a = .ok b) as bs := by
  induction as generalizing bs with
  | nil => simp [pure, Except.pure, eq_comm]
  | cons a as ih =>
    simp only [List.mapM_cons, bind_eq_ok, ih, pure, Except.pure, Except.ok.injEq, List.forall₂_cons_left_iff]
    constructor
    · rintro ⟨b, first, rest, others, rfl⟩
      exact ⟨b, rest, first, others, rfl⟩
    · rintro ⟨b, rest, first, others, rfl⟩
      exact ⟨b, first, rest, others, rfl⟩

theorem exists_mapM_eq_ok {f : α → Except ε β} {as : List α} :
    (∃ bs, as.mapM f = .ok bs) ↔ ∀ a ∈ as, ∃ b, f a = .ok b := by
  simp only [mapM_eq_ok]
  induction as with
  | nil => simp
  | cons a as ih =>
    rw [List.forall_mem_cons, ← ih]
    constructor
    · rintro ⟨_, first | ⟨first, rest⟩⟩
      exact ⟨⟨_, first⟩, _, rest⟩
    · rintro ⟨⟨b, first⟩, bs, rest⟩
      exact ⟨b :: bs, .cons first rest⟩

def Throws (P : ε → Prop) (outcome : Except ε α) : Prop := ∀ e, outcome = .error e → P e

namespace Throws

variable {P : ε → Prop}

theorem ok (a : α) : Throws P (.ok a : Except ε α) := by simp [Throws]

theorem error {e : ε} (kind : P e) : Throws P (.error e : Except ε α) := by
  rintro _ ⟨⟩
  exact kind

theorem bind {outcome : Except ε α} {next : α → Except ε β} (first : Throws P outcome)
    (rest : ∀ a, Throws P (next a)) : Throws P (outcome >>= next) := by
  cases outcome with
  | ok a => exact rest a
  | error e => exact error (first e rfl)

theorem forM {check : α → Except ε Unit} (each : ∀ a, Throws P (check a)) (as : List α) : Throws P (as.forM check) := by
  induction as with
  | nil => exact ok ()
  | cons a as ih => exact bind (each a) fun _ => ih

theorem mapM {f : α → Except ε β} (each : ∀ a, Throws P (f a)) (as : List α) : Throws P (as.mapM f) := by
  induction as with
  | nil => exact ok []
  | cons a as ih =>
    rw [List.mapM_cons]
    exact bind (each a) fun _ => bind ih fun _ => ok _

end Throws

end Except

end FlintDB.Lib
