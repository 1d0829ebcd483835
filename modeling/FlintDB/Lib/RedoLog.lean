import FlintDB.Lib.Replay
import Mathlib.Data.List.Induction

set_option autoImplicit false

-- Transactions append their updates and then a commit entry. Redo applies, in log order, the updates of the
-- transactions whose commit entry is in the log. When a key passes from one transaction to the next only after the
-- commit entry, that is the same as applying whole transactions in commit order.

namespace FlintDB.Lib

universe u v w

variable {T : Type w} {K : Type u} {V : Type v}

inductive LogEntry (T : Type w) (K : Type u) (V : Type v)
  | update (txn : T) (key : K) (value : V)
  | commit (txn : T)
  | other (txn : T)

namespace LogEntry

def committed? : LogEntry T K V → Option T
  | commit txn => some txn
  | _ => none

def updater? : LogEntry T K V → Option T
  | update txn _ _ => some txn
  | _ => none

def writeBy? (keep : T → Bool) : LogEntry T K V → Option (K × V)
  | update txn key value => if keep txn then some (key, value) else none
  | _ => none

end LogEntry

/-- The committed transactions in the order of their commit entries. -/
def commits (log : List (LogEntry T K V)) : List T := log.filterMap LogEntry.committed?

-- The transactions with an update in the log, once for each update.
def updaters (log : List (LogEntry T K V)) : List T := log.filterMap LogEntry.updater?

def updatesBy (keep : T → Bool) (log : List (LogEntry T K V)) : List (K × V) :=
  log.filterMap (LogEntry.writeBy? keep)

section Append

variable (log : List (LogEntry T K V)) (txn : T) (key : K) (value : V) (keep : T → Bool)

@[simp] theorem commits_append (first second : List (LogEntry T K V)) :
    commits (first ++ second) = commits first ++ commits second := by
  simp [commits]

theorem commits_cons (entry : LogEntry T K V) :
    commits (entry :: log) = commits [entry] ++ commits log := commits_append [entry] log

@[simp] theorem commits_update : commits [LogEntry.update txn key value] = [] := rfl

@[simp] theorem commits_commit : commits [(LogEntry.commit txn : LogEntry T K V)] = [txn] := rfl

@[simp] theorem commits_other : commits [(LogEntry.other txn : LogEntry T K V)] = [] := rfl

@[simp] theorem updatesBy_append (first second : List (LogEntry T K V)) :
    updatesBy keep (first ++ second) = updatesBy keep first ++ updatesBy keep second := by
  simp [updatesBy]

theorem updatesBy_cons (entry : LogEntry T K V) :
    updatesBy keep (entry :: log) = updatesBy keep [entry] ++ updatesBy keep log :=
  updatesBy_append keep [entry] log

@[simp] theorem updatesBy_update : updatesBy keep [LogEntry.update txn key value] =
    if keep txn then [(key, value)] else [] := by
  cases kept : keep txn <;> simp [updatesBy, LogEntry.writeBy?, kept]

@[simp] theorem updatesBy_commit :
    updatesBy keep [(LogEntry.commit txn : LogEntry T K V)] = [] := rfl

@[simp] theorem updatesBy_other :
    updatesBy keep [(LogEntry.other txn : LogEntry T K V)] = [] := rfl

end Append

theorem mem_updatesBy {keep : T → Bool} {log : List (LogEntry T K V)} {key : K} {value : V} :
    (key, value) ∈ updatesBy keep log ↔ ∃ txn, keep txn = true ∧ .update txn key value ∈ log := by
  simp only [updatesBy, List.mem_filterMap]
  constructor
  · rintro ⟨entry, member, write⟩
    cases entry with
    | update txn key' value' =>
      simp only [LogEntry.writeBy?, Option.ite_none_right_eq_some, Option.some.injEq,
        Prod.mk.injEq] at write
      obtain ⟨kept, rfl, rfl⟩ := write
      exact ⟨txn, kept, member⟩
    | commit => cases write
    | other => cases write
  · rintro ⟨txn, kept, member⟩
    exact ⟨_, member, by simp [LogEntry.writeBy?, kept]⟩

theorem mem_commits {log : List (LogEntry T K V)} {txn : T} :
    txn ∈ commits log ↔ .commit txn ∈ log := by
  simp only [commits, List.mem_filterMap]
  constructor
  · rintro ⟨entry, member, committed⟩
    cases entry with
    | update => cases committed
    | commit => cases committed; exact member
    | other => cases committed
  · exact fun member => ⟨_, member, rfl⟩

theorem mem_updaters {log : List (LogEntry T K V)} {txn : T} :
    txn ∈ updaters log ↔ ∃ key value, .update txn key value ∈ log := by
  simp only [updaters, List.mem_filterMap]
  constructor
  · rintro ⟨entry, member, updater⟩
    cases entry with
    | update other key value => cases updater; exact ⟨key, value, member⟩
    | commit => cases updater
    | other => cases updater
  · rintro ⟨key, value, member⟩
    exact ⟨_, member, rfl⟩

theorem mem_keys_updatesBy {keep : T → Bool} {log : List (LogEntry T K V)} {key : K} :
    key ∈ (updatesBy keep log).map Prod.fst ↔
      ∃ txn value, keep txn = true ∧ .update txn key value ∈ log := by
  simp only [List.mem_map, Prod.exists, exists_and_right, exists_eq_right, mem_updatesBy]
  exact ⟨fun ⟨value, txn, h⟩ => ⟨txn, value, h⟩, fun ⟨txn, value, h⟩ => ⟨value, txn, h⟩⟩

variable [DecidableEq T]

def updatesOf (log : List (LogEntry T K V)) (txn : T) : List (K × V) :=
  updatesBy (fun other => other = txn) log

theorem mem_updatesOf {log : List (LogEntry T K V)} {txn : T} {key : K} {value : V} :
    (key, value) ∈ updatesOf log txn ↔ .update txn key value ∈ log := by
  simp [updatesOf, mem_updatesBy]

theorem mem_keys_updatesOf {log : List (LogEntry T K V)} {txn : T} {key : K} :
    key ∈ (updatesOf log txn).map Prod.fst ↔ ∃ value, .update txn key value ∈ log := by
  simp [mem_updatesOf]

def Permits (log : List (LogEntry T K V)) : LogEntry T K V → Prop
  | .update txn key _ => txn ∉ commits log ∧
    ∀ other, other ≠ txn → (∃ value, .update other key value ∈ log) → other ∈ commits log
  | .commit txn => txn ∉ commits log
  | .other _ => True

def Isolated (log : List (LogEntry T K V)) : Prop :=
  ∀ before entry after, log = before ++ entry :: after → Permits before entry

omit [DecidableEq T] in
theorem isolated_nil : Isolated ([] : List (LogEntry T K V)) := by
  intro before entry after split
  simp at split

omit [DecidableEq T] in
theorem Isolated.left {log rest : List (LogEntry T K V)} (isolated : Isolated (log ++ rest)) :
    Isolated log := by
  intro before entry after split
  exact isolated before entry (after ++ rest) (by simp [split])

omit [DecidableEq T] in
theorem isolated_snoc {log : List (LogEntry T K V)} {entry : LogEntry T K V} :
    Isolated (log ++ [entry]) ↔ Isolated log ∧ Permits log entry := by
  constructor
  · exact fun isolated => ⟨isolated.left, isolated log entry [] rfl⟩
  · rintro ⟨isolated, permits⟩ before last after split
    cases after using List.reverseRecOn with
    | nil =>
      obtain ⟨rfl, same⟩ := List.append_inj' split rfl
      cases same
      exact permits
    | append_singleton after' last' =>
      rw [← List.cons_append, ← List.append_assoc] at split
      obtain ⟨rfl, -⟩ := List.append_inj' split rfl
      exact isolated before last after' rfl

omit [DecidableEq T] in
theorem Isolated.update_before_commit {log before : List (LogEntry T K V)} (isolated : Isolated log)
    {txn : T} (committed : before ++ [.commit txn] <+: log) {key : K} {value : V}
    (updated : .update txn key value ∈ log) : .update txn key value ∈ before := by
  obtain ⟨after, rfl⟩ := committed
  rcases List.mem_append.mp updated with early | late
  · simpa using early
  · obtain ⟨between, rest, rfl⟩ := List.append_of_mem late
    have permits := isolated (before ++ [.commit txn] ++ between) (.update txn key value) rest
      (by simp)
    exact absurd (mem_commits.mpr (by simp)) permits.1

variable [DecidableEq K]

def redo (store : K → V) (log : List (LogEntry T K V)) : K → V :=
  applyWrites store (updatesBy (fun txn => txn ∈ commits log) log)

theorem redo_cases (store : K → V) (log : List (LogEntry T K V)) (key : K) :
    redo store log key = store key ∨ ∃ txn ∈ commits log, .update txn key (redo store log key) ∈ log := by
  by_cases written : key ∈ (updatesBy (fun txn => txn ∈ commits log) log).map Prod.fst
  · obtain ⟨txn, committed, member⟩ := mem_updatesBy.mp (applyWrites_mem store written)
    exact .inr ⟨txn, by simpa using committed, member⟩
  · exact .inl (applyWrites_unwritten _ _ _ written)

omit [DecidableEq T] in
theorem applyWrites_updatesBy_congr (store : K → V) {log : List (LogEntry T K V)}
    {keep keep' : T → Bool} {key : K}
    (same : ∀ txn value, .update txn key value ∈ log → keep txn = keep' txn) :
    applyWrites store (updatesBy keep log) key = applyWrites store (updatesBy keep' log) key := by
  induction log using List.reverseRecOn with
  | nil => rfl
  | append_singleton log entry ih =>
    have before := ih fun txn value member => same txn value (List.mem_append_left _ member)
    cases entry with
    | update txn other value =>
      by_cases here : other = key
      · subst here
        have kept := same txn value (by simp)
        cases keeps : keep' txn <;> simp [keeps, kept, applyWrites_append, before]
      · have there : key ≠ other := Ne.symm here
        simp only [updatesBy_append, updatesBy_update, applyWrites_append]
        split <;> split <;> simp [there, before]
    | commit txn => simpa using before
    | other txn => simpa using before

theorem redo_of_uncommitted {log : List (LogEntry T K V)} (isolated : Isolated log) {txn : T}
    (uncommitted : txn ∉ commits log) {keep : T → Bool} (kept : keep txn = true) {key : K}
    (updated : ∃ value, .update txn key value ∈ log) (store store' : K → V) :
    applyWrites store (updatesBy keep log) key = applyWrites store' (updatesOf log txn) key := by
  induction log using List.reverseRecOn with
  | nil => simp at updated
  | append_singleton log entry ih =>
    obtain ⟨before, permits⟩ := isolated_snoc.mp isolated
    have open_before : txn ∉ commits log := fun member => uncommitted (by simp [member])
    cases entry with
    | update other key' value =>
      by_cases here : key' = key
      · subst here
        -- nobody else may touch the key while `txn` is open
        have mine : other = txn := by
          by_contra different
          simp only [List.mem_append, List.mem_singleton, LogEntry.update.injEq] at updated
          obtain ⟨value', member | ⟨same, -⟩⟩ := updated
          · exact open_before (permits.2 txn (Ne.symm different) ⟨value', member⟩)
          · exact different same.symm
        subst mine
        simp [updatesOf, kept, applyWrites_append]
      · have there : key ≠ key' := Ne.symm here
        have updated_before : ∃ value, .update txn key value ∈ log := by
          simpa [there] using updated
        have step := ih before open_before updated_before
        simp only [updatesOf, updatesBy_append, updatesBy_update, applyWrites_append] at step ⊢
        split <;> split <;> simpa [there] using step
    | commit other => simpa [updatesOf] using ih before open_before (by simpa using updated)
    | other other => simpa [updatesOf] using ih before open_before (by simpa using updated)

section Forget

def forget (gone : T → Bool) (log : List (LogEntry T K V)) : List (LogEntry T K V) :=
  log.filter fun entry => !entry.updater?.any gone

variable {gone : T → Bool} {log : List (LogEntry T K V)}

omit [DecidableEq T] [DecidableEq K]

theorem forget_append (gone : T → Bool) (first second : List (LogEntry T K V)) :
    forget gone (first ++ second) = forget gone first ++ forget gone second := by
  simp [forget]

theorem mem_forget_update {txn : T} {key : K} {value : V} :
    .update txn key value ∈ forget gone log ↔ .update txn key value ∈ log ∧ gone txn = false := by
  simp [forget, LogEntry.updater?]

theorem forget_update (gone : T → Bool) (txn : T) (key : K) (value : V) :
    forget gone [LogEntry.update txn key value] = if gone txn then [] else [LogEntry.update txn key value] := by
  cases isGone : gone txn <;> simp [forget, LogEntry.updater?, isGone]

theorem commits_forget (gone : T → Bool) (log : List (LogEntry T K V)) : commits (forget gone log) = commits log := by
  induction log using List.reverseRecOn with
  | nil => rfl
  | append_singleton log entry ih =>
    rw [forget_append, commits_append, commits_append, ih]
    cases entry with
    | update txn key value =>
      rw [forget_update]
      split <;> rfl
    | commit txn => rfl
    | other txn => rfl

theorem updatesBy_forget {keep : T → Bool} (others : ∀ txn, gone txn = true → keep txn = false)
    (log : List (LogEntry T K V)) : updatesBy keep (forget gone log) = updatesBy keep log := by
  induction log using List.reverseRecOn with
  | nil => rfl
  | append_singleton log entry ih =>
    rw [forget_append, updatesBy_append, updatesBy_append, ih]
    cases entry with
    | update txn key value =>
      rw [forget_update]
      split
      · rename_i isGone
        simp [updatesBy, LogEntry.writeBy?, others txn isGone]
      · rfl
    | commit txn => rfl
    | other txn => rfl

theorem forget_forget (gone gone' : T → Bool) (log : List (LogEntry T K V)) :
    forget gone' (forget gone log) = forget (fun txn => gone txn || gone' txn) log := by
  rw [forget, forget, List.filter_filter]
  refine List.filter_congr fun entry _ => ?_
  cases entry.updater? <;> simp [Bool.and_comm]

theorem permits_forget {entry : LogEntry T K V} (permits : Permits log entry) : Permits (forget gone log) entry := by
  cases entry with
  | update txn key value =>
    refine ⟨by rw [commits_forget]; exact permits.1, fun other different => ?_⟩
    rintro ⟨value', member⟩
    rw [commits_forget]
    exact permits.2 other different ⟨value', (mem_forget_update.mp member).1⟩
  | commit txn =>
    rw [Permits, commits_forget]
    exact permits
  | other txn => trivial

theorem Isolated.forget (isolated : Isolated log) (gone : T → Bool) : Isolated (forget gone log) := by
  induction log using List.reverseRecOn with
  | nil => exact isolated_nil
  | append_singleton log entry ih =>
    obtain ⟨before, permits⟩ := isolated_snoc.mp isolated
    rw [forget_append]
    cases isGone : entry.updater?.any gone with
    | true => simpa [Lib.forget, isGone] using ih before
    | false =>
      have kept : Lib.forget gone [entry] = [entry] := by simp [Lib.forget, isGone]
      rw [kept]
      exact isolated_snoc.mpr ⟨ih before, permits_forget permits⟩

end Forget

theorem redo_forget {gone : T → Bool} {log : List (LogEntry T K V)}
    (uncommitted : ∀ txn, gone txn = true → txn ∉ commits log) (store : K → V) :
    redo store (forget gone log) = redo store log := by
  rw [redo, redo, commits_forget, updatesBy_forget fun txn isGone => decide_eq_false (uncommitted txn isGone)]

theorem redo_eq_commit_order (store : K → V) {log : List (LogEntry T K V)}
    (isolated : Isolated log) :
    redo store log = applyWrites store ((commits log).flatMap (updatesOf log)) := by
  induction log using List.reverseRecOn with
  | nil => rfl
  | append_singleton log entry ih =>
    obtain ⟨before, permits⟩ := isolated_snoc.mp isolated
    have step := ih before
    cases entry with
    | update txn key value =>
      have closed : ∀ other ∈ commits log,
          updatesOf (log ++ [.update txn key value]) other = updatesOf log other := by
        intro other member
        have different : txn ≠ other := by
          rintro rfl
          exact permits.1 member
        simp [updatesOf, different]
      simp only [redo, commits_append, commits_update, List.append_nil, updatesBy_append,
        updatesBy_update, permits.1, decide_false, Bool.false_eq_true, if_false]
      rw [List.flatMap_congr closed]
      exact step
    | other txn =>
      have updates : updatesOf (log ++ [.other txn]) = updatesOf log := by
        funext other
        simp [updatesOf]
      rw [updates]
      simpa [redo] using step
    | commit txn =>
      funext key
      have updates : updatesOf (log ++ [.commit txn]) = updatesOf log := by
        funext other
        simp [updatesOf]
      rw [updates]
      simp only [redo, commits_append, commits_commit, updatesBy_append, updatesBy_commit,
        List.append_nil, List.flatMap_append, List.flatMap_singleton, applyWrites_append]
      rw [← step]
      by_cases updated : ∃ value, .update txn key value ∈ log
      · rw [redo_of_uncommitted before permits (by simp) updated _ (redo store log)]
      · rw [applyWrites_unwritten _ (updatesOf log txn) _ (by rwa [mem_keys_updatesOf])]
        refine applyWrites_updatesBy_congr store fun other value member => ?_
        have different : other ≠ txn := by
          rintro rfl
          exact updated ⟨value, member⟩
        simp [different]

theorem redo_congr {store store' : K → V} {log : List (LogEntry T K V)}
    (same : ∀ key, store key = store' key ∨
      ∃ txn ∈ commits log, ∃ value, .update txn key value ∈ log) :
    redo store log = redo store' log := by
  funext key
  refine applyWrites_congr _ _ _ _ ((same key).symm.imp_left ?_)
  rintro ⟨txn, committed, value, member⟩
  exact mem_keys_updatesBy.mpr ⟨txn, value, by simpa using committed, member⟩

theorem redo_flatten (store : K → V) {logs : List (List (LogEntry T K V))}
    (own : ∀ log ∈ logs, ∀ txn key value, .update txn key value ∈ log →
      txn ∈ commits logs.flatten → txn ∈ commits log) :
    redo store logs.flatten = logs.foldl redo store := by
  have writes : ∀ part : List (List (LogEntry T K V)), (∀ log ∈ part, log ∈ logs) →
      applyWrites store (updatesBy (fun txn => txn ∈ commits logs.flatten) part.flatten) =
        part.foldl redo store := by
    intro part
    induction part using List.reverseRecOn with
    | nil => intro _; rfl
    | append_singleton part log ih =>
      intro within
      have here := within log (by simp)
      simp only [List.flatten_append, List.flatten_singleton, updatesBy_append, applyWrites_append,
        List.foldl_append, List.foldl_cons, List.foldl_nil]
      rw [ih fun other member => within other (List.mem_append_left _ member), redo]
      funext key
      refine applyWrites_updatesBy_congr _ fun txn value member => ?_
      refine decide_eq_decide.mpr ⟨own log here txn key value member, fun committed => ?_⟩
      exact mem_commits.mpr (List.mem_flatten_of_mem here (mem_commits.mp committed))
  exact writes logs fun _ => id

end FlintDB.Lib
