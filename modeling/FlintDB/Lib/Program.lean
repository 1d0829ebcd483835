import FlintDB.Lib.Fallible

set_option autoImplicit false

-- A program that shares its state with others, one action at a time: a request for a lock, which others can hold up
-- or refuse, or a step on the shared state that nothing can come into the middle of.

namespace FlintDB.Lib

inductive Program (K M σ ε α : Type)
  | done (a : α)
  | throw (error : ε)
  | lock (key : K) (mode : M) (next : Program K M σ ε α)
  -- `next` is given the state before the update
  | atomic (update : σ → σ) (next : σ → Program K M σ ε α)

namespace Program

variable {K M σ ε α β : Type}

def bind : Program K M σ ε α → (α → Program K M σ ε β) → Program K M σ ε β
  | done a, f => f a
  | throw error, _ => throw error
  | lock key mode next, f => lock key mode (next.bind f)
  | atomic update next, f => atomic update fun s => (next s).bind f

instance : Monad (Program K M σ ε) where
  pure := done
  bind := bind

def acquire (key : K) (mode : M) : Program K M σ ε Unit := lock key mode (done ())

/-- A computation on the shared state as one action. -/
def whole (computation : Fallible σ ε α) : Program K M σ ε α :=
  atomic (fun s => (computation.exec s).2) fun s =>
    match (computation.exec s).1 with
    | .ok a => done a
    | .error error => throw error

/-- What the program computes when nobody else is there. -/
def alone : Program K M σ ε α → Fallible σ ε α
  | done a => pure a
  | throw error => MonadExcept.throw error
  | lock _ _ next => next.alone
  | atomic update next => do
    let s ← get
    MonadStateOf.set (update s)
    (next s).alone

def Locks (P : K → M → Prop) : Program K M σ ε α → Prop
  | done _ => True
  | throw _ => True
  | lock key mode next => P key mode ∧ next.Locks P
  | atomic _ next => ∀ s, (next s).Locks P

def ReadOnly : Program K M σ ε α → Prop
  | done _ => True
  | throw _ => True
  | lock _ _ next => next.ReadOnly
  | atomic update next => ∀ s, update s = s ∧ (next s).ReadOnly

/-- No action so much as reads the shared state. -/
def Apart : Program K M σ ε α → Prop
  | done _ => True
  | throw _ => True
  | lock _ _ next => next.Apart
  | atomic _ _ => False

@[simp] theorem exec_alone_pure (a : α) (s : σ) :
    (pure a : Program K M σ ε α).alone.exec s = (.ok a, s) := rfl

@[simp] theorem exec_alone_acquire (key : K) (mode : M) (s : σ) :
    (acquire key mode : Program K M σ ε Unit).alone.exec s = (.ok (), s) := rfl

@[simp] theorem exec_alone_whole (computation : Fallible σ ε α) (s : σ) :
    (whole computation : Program K M σ ε α).alone.exec s = computation.exec s := by
  show Fallible.exec (get >>= _) s = _
  rw [Fallible.exec_bind_ok (Fallible.exec_get s), Fallible.exec_bind_ok (Fallible.exec_set s _)]
  beta_reduce
  rcases Fallible.exec computation s with ⟨outcome, s'⟩
  cases outcome <;> rfl

theorem exec_alone_bind (program : Program K M σ ε α) (f : α → Program K M σ ε β) (s : σ) :
    (program >>= f).alone.exec s = (program.alone >>= fun a => (f a).alone).exec s := by
  induction program generalizing s with
  | done a => rfl
  | throw error => rfl
  | lock key mode next ih => exact ih s
  | atomic update next ih =>
    show Fallible.exec (get >>= _) s = Fallible.exec ((get >>= _) >>= _) s
    rw [Fallible.exec_bind_ok (Fallible.exec_get s), Fallible.exec_bind_ok (Fallible.exec_set s _)]
    refine (ih s (update s)).trans ?_
    simp only [Fallible.exec_bind, Fallible.exec_get, Fallible.exec_set]

theorem alone_bind {program : Program K M σ ε α} {f : α → Program K M σ ε β}
    {computation : Fallible σ ε α} {g : α → Fallible σ ε β} (first : program.alone.exec = computation.exec)
    (second : ∀ a, (f a).alone.exec = (g a).exec) :
    (program >>= f).alone.exec = (computation >>= g).exec := by
  funext s
  rw [exec_alone_bind, Fallible.exec_bind, Fallible.exec_bind, first]
  rcases Fallible.exec computation s with ⟨outcome, s'⟩
  cases outcome with
  | ok a => exact congrFun (second a) s'
  | error error => rfl

theorem alone_acquire_bind {key : K} {mode : M} {f : Unit → Program K M σ ε β} {g : Fallible σ ε β}
    (rest : (f ()).alone.exec = g.exec) : (acquire key mode >>= f).alone.exec = g.exec := rest

theorem alone_whole (computation : Fallible σ ε α) :
    (whole computation : Program K M σ ε α).alone.exec = computation.exec :=
  funext (exec_alone_whole computation)

theorem alone_whole_bind {computation : Fallible σ ε α} {f : α → Program K M σ ε β}
    {g : α → Fallible σ ε β} (second : ∀ a, (f a).alone.exec = (g a).exec) :
    (whole computation >>= f).alone.exec = (computation >>= g).exec :=
  alone_bind (alone_whole computation) second

theorem whole_bind_eq_atomic {computation : Fallible σ ε α} {f : α → Program K M σ ε β} {update : σ → σ}
    {next : σ → Program K M σ ε β} (isAtomic : (whole computation >>= f) = atomic update next) (s : σ) :
    update s = (computation.exec s).2 ∧
      next s = match (computation.exec s).1 with
        | .ok a => f a
        | .error error => throw error := by
  obtain ⟨rfl, rfl⟩ := Program.atomic.inj isAtomic
  refine ⟨rfl, ?_⟩
  beta_reduce
  cases (computation.exec s).1 <;> rfl

@[simp] theorem exec_alone_lock (key : K) (mode : M) (next : Program K M σ ε α) (s : σ) :
    (lock key mode next).alone.exec s = next.alone.exec s := rfl

theorem exec_alone_atomic (update : σ → σ) (next : σ → Program K M σ ε α) (s : σ) :
    (atomic update next).alone.exec s = (next s).alone.exec (update s) := by
  show Fallible.exec (get >>= _) s = _
  rw [Fallible.exec_bind_ok (Fallible.exec_get s), Fallible.exec_bind_ok (Fallible.exec_set s _)]

theorem ReadOnly.exec_alone {program : Program K M σ ε α} (readOnly : program.ReadOnly) (s : σ) :
    (program.alone.exec s).2 = s := by
  induction program with
  | done a => rfl
  | throw error => rfl
  | lock key mode next ih => exact ih readOnly
  | atomic update next ih =>
    rw [exec_alone_atomic, (readOnly s).1]
    exact ih s (readOnly s).2

theorem Apart.readOnly {program : Program K M σ ε α} (apart : program.Apart) : program.ReadOnly := by
  induction program with
  | done a => trivial
  | throw error => trivial
  | lock key mode next ih => exact ih apart
  | atomic update next ih => exact apart.elim

theorem Apart.exec_alone {program : Program K M σ ε α} (apart : program.Apart) (s t : σ) :
    (program.alone.exec s).1 = (program.alone.exec t).1 := by
  induction program with
  | done a => rfl
  | throw error => rfl
  | lock key mode next ih => exact ih apart
  | atomic update next ih => exact apart.elim

theorem ReadOnly.bind {program : Program K M σ ε α} {f : α → Program K M σ ε β} (first : program.ReadOnly)
    (second : ∀ a, (f a).ReadOnly) : (program >>= f).ReadOnly := by
  induction program with
  | done a => exact second a
  | throw error => trivial
  | lock key mode next ih => exact ih first
  | atomic update next ih => exact fun s => ⟨(first s).1, ih s (first s).2⟩

theorem readOnly_whole {computation : Fallible σ ε α} (reads : ∀ s, (computation.exec s).2 = s) :
    (whole computation : Program K M σ ε α).ReadOnly := by
  intro s
  refine ⟨reads s, ?_⟩
  show ReadOnly (match (computation.exec s).1 with
    | .ok a => done a
    | .error error => throw error)
  cases (computation.exec s).1 <;> trivial

variable {P : K → M → Prop}

theorem Locks.bind {program : Program K M σ ε α} {f : α → Program K M σ ε β} (first : program.Locks P)
    (second : ∀ a, (f a).Locks P) : (program >>= f).Locks P := by
  induction program with
  | done a => exact second a
  | throw error => trivial
  | lock key mode next ih => exact ⟨first.1, ih first.2⟩
  | atomic update next ih => exact fun s => ih s (first s)

theorem Locks.acquire {key : K} {mode : M} (allowed : P key mode) :
    (acquire key mode : Program K M σ ε Unit).Locks P := ⟨allowed, trivial⟩

theorem Locks.whole (computation : Fallible σ ε α) : (whole computation : Program K M σ ε α).Locks P := by
  intro s
  show Locks P (match (computation.exec s).1 with
    | .ok a => done a
    | .error error => throw error)
  cases (computation.exec s).1 <;> trivial

end Program

end FlintDB.Lib
