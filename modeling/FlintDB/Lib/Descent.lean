import FlintDB.Lib.Fallible

set_option autoImplicit false

-- A parser that looks at one token ahead of it, over the tokens from its cursor on, and the language it accepts: the
-- sentences, each with what the parser makes of it. What may stand behind a sentence is part of the judgement, for
-- the parser looks at it.

namespace FlintDB.Lib

-- The phrases of a grammar, each with its meaning.
abbrev Phrases (ι α : Type) := List ι → α → Prop

namespace Phrases

variable {ι α β : Type}

def just (a : α) : Phrases ι α := fun sentence meaning => sentence = [] ∧ meaning = a

-- The one terminal that `s` gives for a meaning.
def one (s : α → ι) : Phrases ι α := fun sentence a => sentence = [s a]

def followedBy (L : Phrases ι α) (K : α → Phrases ι β) : Phrases ι β :=
  fun sentence b => ∃ front back a, sentence = front ++ back ∧ L front a ∧ K a back b

inductive Iterated (separator : ι) (L : α → Phrases ι α) : α → Phrases ι α
  | stop (a : α) : Iterated separator L a [] a
  | step {a b c : α} {front back : List ι} (first : L a front b) (others : Iterated separator L b back c) :
      Iterated separator L a (separator :: (front ++ back)) c

/-- At least one phrase, a separator between any two. -/
inductive Separated (separator : ι) (L : Phrases ι α) : Phrases ι (List α)
  | last {sentence : List ι} {a : α} (only : L sentence a) : Separated separator L sentence [a]
  | cons {front back : List ι} {a : α} {as : List α} (first : L front a) (others : Separated separator L back as) :
      Separated separator L (front ++ separator :: back) (a :: as)

theorem Iterated.head {separator : ι} {L : α → Phrases ι α} {sentence : List ι} {a b : α}
    (iterated : Iterated separator L a sentence b) : sentence = [] ∨ ∃ rest, sentence = separator :: rest := by
  cases iterated with
  | stop => exact .inl rfl
  | step => exact .inr ⟨_, rfl⟩

def folded {δ : Type} (L : Phrases ι δ) (step : α → δ → Option α) (a : α) : Phrases ι α :=
  fun sentence b => ∃ d, L sentence d ∧ step a d = some b

section Folded

variable {δ : Type} {separator : ι} {L : Phrases ι δ} {step : α → δ → Option α}

theorem Iterated.separated {front back : List ι} {a b c : α} (iterated : Iterated separator (folded L step) b back c)
    (first : folded L step a front b) :
    ∃ ds, Separated separator L (front ++ back) ds ∧ ds.foldlM step a = some c := by
  induction iterated generalizing front a with
  | stop b =>
    obtain ⟨d, first, stepped⟩ := first
    exact ⟨[d], by rw [List.append_nil]; exact .last first, by simp [stepped]⟩
  | @step b _ c next behind second _ ih =>
    obtain ⟨d, first, stepped⟩ := first
    obtain ⟨ds, separated, result⟩ := ih second
    exact ⟨d :: ds, .cons first separated, by simp [stepped, result]⟩

theorem Separated.iterated {sentence : List ι} {ds : List δ} {a c : α} (separated : Separated separator L sentence ds)
    (result : ds.foldlM step a = some c) :
    ∃ front back b, sentence = front ++ back ∧ folded L step a front b ∧
      Iterated separator (folded L step) b back c := by
  induction separated generalizing a with
  | @last sentence d only =>
    have stepped : step a d = some c := by simpa using result
    exact ⟨sentence, [], c, by simp, ⟨d, only, stepped⟩, .stop c⟩
  | @cons front _ d ds first _ ih =>
    rw [List.foldlM_cons] at result
    obtain ⟨b, stepped, result⟩ := Option.bind_eq_some_iff.mp result
    obtain ⟨next, behind, b', rfl, second, rest⟩ := ih result
    exact ⟨front, separator :: (next ++ behind), b, rfl, ⟨d, first, stepped⟩, .step second rest⟩

theorem foldlM_push (as bs : List α) : bs.foldlM (fun as a => some (as ++ [a])) as = some (as ++ bs) := by
  induction bs generalizing as with
  | nil => simp
  | cons b bs ih => simp [ih]

end Folded

end Phrases

structure Alphabet (τ ι ε : Type) where
  view : τ → ι
  ending : ι
  Complains : ε → Prop

namespace Alphabet

variable {τ ι ε α β : Type} (A : Alphabet τ ι ε)

def Terminated (tokens : List τ) : Prop :=
  ∃ front last, tokens = front ++ [last] ∧ A.view last = A.ending ∧ ∀ token ∈ front, A.view token ≠ A.ending

structure Parses (program : Fallible (List τ) ε α) (L : Phrases ι α) (follow : ι → Prop) : Prop where
  returns : ∀ input a rest, A.Terminated input → program.exec input = (.ok a, rest) →
    A.Terminated rest ∧ ∃ tokens, input = tokens ++ rest ∧ L (tokens.map A.view) a
  throws : ∀ input e rest, A.Terminated input → program.exec input = (.error e, rest) → A.Complains e
  complete : ∀ tokens next rest a, L (tokens.map A.view) a → follow (A.view next) →
    program.exec (tokens ++ next :: rest) = (.ok a, next :: rest)

variable {A}

theorem Terminated.singleton {token : τ} (ends : A.view token = A.ending) : A.Terminated [token] :=
  ⟨[], token, rfl, ends, by simp⟩

theorem Terminated.cons {token : τ} {tokens : List τ} (inside : A.view token ≠ A.ending)
    (ends : A.Terminated tokens) : A.Terminated (token :: tokens) := by
  obtain ⟨front, last, rfl, isLast, others⟩ := ends
  exact ⟨token :: front, last, rfl, isLast, List.forall_mem_cons.mpr ⟨inside, others⟩⟩

theorem Terminated.tail {token : τ} {tokens : List τ} (ends : A.Terminated (token :: tokens))
    (inside : A.view token ≠ A.ending) : A.Terminated tokens := by
  obtain ⟨front, last, split, isLast, others⟩ := ends
  cases front with
  | nil =>
    cases split
    exact absurd isLast inside
  | cons first front =>
    cases split
    exact ⟨front, last, rfl, isLast, fun other member => others other (List.mem_cons_of_mem _ member)⟩

theorem Terminated.eq_nil {token : τ} {tokens : List τ} (ends : A.Terminated (token :: tokens))
    (isEnd : A.view token = A.ending) : tokens = [] := by
  obtain ⟨front, last, split, -, others⟩ := ends
  cases front with
  | nil =>
    cases split
    rfl
  | cons first front =>
    cases split
    exact absurd isEnd (others _ List.mem_cons_self)

theorem Terminated.exists_cons {tokens : List τ} (ends : A.Terminated tokens) :
    ∃ token rest, tokens = token :: rest := by
  obtain ⟨front, last, rfl, -⟩ := ends
  cases front with
  | nil => exact ⟨last, [], rfl⟩
  | cons first front => exact ⟨first, front ++ [last], rfl⟩

namespace Parses

variable {program : Fallible (List τ) ε α} {L K : Phrases ι α} {F G : ι → Prop}

theorem of_iff (parses : A.Parses program L F) (same : ∀ sentence a, L sentence a ↔ K sentence a) :
    A.Parses program K F := by
  have equal : L = K := by
    funext sentence a
    exact propext (same sentence a)
  exact equal ▸ parses

theorem of_exec {other : Fallible (List τ) ε α} (parses : A.Parses other L F)
    (same : ∀ token rest, program.exec (token :: rest) = other.exec (token :: rest)) : A.Parses program L F where
  returns := by
    intro input a rest ends done
    obtain ⟨token, behind, rfl⟩ := ends.exists_cons
    exact parses.returns _ a rest ends (same token behind ▸ done)
  throws := by
    intro input e rest ends thrown
    obtain ⟨token, behind, rfl⟩ := ends.exists_cons
    exact parses.throws _ e rest ends (same token behind ▸ thrown)
  complete := by
    intro tokens next rest a means follows
    have done := parses.complete tokens next rest a means follows
    cases tokens with
    | nil => exact (same next rest).trans done
    | cons token tokens => exact (same token (tokens ++ next :: rest)).trans done

theorem of_follow (parses : A.Parses program L F) (stronger : ∀ t, G t → F t) : A.Parses program L G :=
  { parses with
    complete := fun tokens next rest a means follows => parses.complete tokens next rest a means (stronger _ follows) }

theorem pure (a : α) : A.Parses (pure a : Fallible (List τ) ε α) (Phrases.just a) F where
  returns := by
    rintro input _ _ ends ⟨⟩
    exact ⟨ends, [], rfl, rfl, rfl⟩
  throws := by rintro input _ _ _ ⟨⟩
  complete := by
    rintro tokens next rest _ ⟨empty, rfl⟩ -
    rw [List.map_eq_nil_iff.mp empty]
    rfl

theorem bind {next : α → Fallible (List τ) ε β} {M : α → Phrases ι β} (first : A.Parses program L F)
    (second : ∀ a, A.Parses (next a) (M a) G)
    (joins : ∀ a sentence b t, M a sentence b → G t → F (sentence.headD t)) :
    A.Parses (program >>= next) (L.followedBy M) G where
  returns := by
    intro input b rest ends done
    rw [Fallible.exec_bind] at done
    split at done
    · rename_i a middle read
      obtain ⟨endsThen, front, rfl, means⟩ := first.returns input a middle ends read
      obtain ⟨endsLast, back, rfl, meansOn⟩ := (second a).returns middle b rest endsThen done
      exact ⟨endsLast, front ++ back, by simp, _, _, a, List.map_append, means, meansOn⟩
    · cases done
  throws := by
    intro input e rest ends thrown
    rw [Fallible.exec_bind] at thrown
    split at thrown
    · rename_i a middle read
      obtain ⟨ends, -⟩ := first.returns input a middle ends read
      exact (second a).throws middle e rest ends thrown
    · rename_i complaint
      cases thrown
      exact first.throws input e rest ends complaint
  complete := by
    rintro tokens t rest b ⟨front, back, a, split, means, meansOn⟩ follows
    obtain ⟨fronts, backs, rfl, rfl, rfl⟩ := List.map_eq_append_iff.mp split
    have may := joins a _ b _ meansOn follows
    rw [List.append_assoc]
    have done : program.exec (fronts ++ (backs ++ t :: rest)) = (.ok a, backs ++ t :: rest) := by
      cases backs with
      | nil => exact first.complete fronts t rest a means may
      | cons token backs => exact first.complete fronts token (backs ++ t :: rest) a means may
    rw [Fallible.exec_bind_ok done]
    exact (second a).complete backs t rest b meansOn follows

theorem bind_any {next : α → Fallible (List τ) ε β} {M : α → Phrases ι β}
    (first : A.Parses program L fun _ => True) (second : ∀ a, A.Parses (next a) (M a) G) :
    A.Parses (program >>= next) (L.followedBy M) G :=
  bind first second fun _ _ _ _ _ _ => trivial

theorem bind_pure {f : α → β} (parses : A.Parses program L F) :
    A.Parses (program >>= fun a => Pure.pure (f a)) (fun sentence b => ∃ a, L sentence a ∧ b = f a) F := by
  refine of_iff (bind parses (fun a => pure (f a)) ?_) ?_
  · rintro a _ _ t ⟨rfl, -⟩ follows
    exact follows
  · intro sentence b
    constructor
    · rintro ⟨front, _, a, rfl, means, rfl, rfl⟩
      exact ⟨a, by rwa [List.append_nil], rfl⟩
    · rintro ⟨a, means, rfl⟩
      exact ⟨sentence, [], a, by simp, means, rfl, rfl⟩

theorem one {program : Fallible (List τ) ε α} {f : α → ι} (inside : ∀ a, f a ≠ A.ending)
    (takes : ∀ token rest a, A.view token = f a → program.exec (token :: rest) = (.ok a, rest))
    (complains : ∀ token rest, (∀ a, A.view token ≠ f a) →
      ∃ e, program.exec (token :: rest) = (.error e, token :: rest) ∧ A.Complains e) :
    A.Parses program (Phrases.one f) F where
  returns := by
    intro input a rest ends done
    obtain ⟨token, behind, rfl⟩ := ends.exists_cons
    by_cases isOne : ∃ b, A.view token = f b
    · obtain ⟨b, isOne⟩ := isOne
      rw [takes token behind b isOne] at done
      cases done
      exact ⟨ends.tail (isOne ▸ inside a), [token], rfl, by simp [Phrases.one, isOne]⟩
    · obtain ⟨e, thrown, -⟩ := complains token behind fun b same => isOne ⟨b, same⟩
      rw [thrown] at done
      cases done
  throws := by
    intro input e rest ends thrown
    obtain ⟨token, behind, rfl⟩ := ends.exists_cons
    by_cases isOne : ∃ b, A.view token = f b
    · obtain ⟨b, isOne⟩ := isOne
      rw [takes token behind b isOne] at thrown
      cases thrown
    · obtain ⟨e', complaint, isComplaint⟩ := complains token behind fun b same => isOne ⟨b, same⟩
      rw [complaint] at thrown
      cases thrown
      exact isComplaint
  complete := by
    intro tokens next rest a means _
    obtain ⟨token, rfl, isOne⟩ := List.map_eq_singleton_iff.mp means
    exact takes token (next :: rest) a isOne

theorem never {program : Fallible (List τ) ε α}
    (complains : ∀ input, A.Terminated input → ∃ e, program.exec input = (.error e, input) ∧ A.Complains e) :
    A.Parses program (fun _ _ => False) F where
  returns := by
    intro input a rest ends done
    obtain ⟨e, thrown, -⟩ := complains input ends
    rw [thrown] at done
    cases done
  throws := by
    intro input e rest ends thrown
    obtain ⟨e', complaint, isComplaint⟩ := complains input ends
    rw [complaint] at thrown
    cases thrown
    exact isComplaint
  complete := by rintro _ _ _ _ ⟨⟩

end Parses

variable (A) in
def Takes (test : Fallible (List τ) ε Bool) (s : ι) : Prop :=
  s ≠ A.ending ∧ ∀ token rest,
    (A.view token = s → test.exec (token :: rest) = (.ok true, rest)) ∧
    (A.view token ≠ s → test.exec (token :: rest) = (.ok false, token :: rest))

variable (A) in
def Sees (test : Fallible (List τ) ε Bool) (s : ι) : Prop :=
  ∀ token rest, ∃ seen, test.exec (token :: rest) = (.ok seen, token :: rest) ∧ (seen = true ↔ A.view token = s)

namespace Parses

variable {test : Fallible (List τ) ε Bool} {s : ι} {yes no : Fallible (List τ) ε α} {L K : Phrases ι α}
  {F : ι → Prop}

theorem take (takes : A.Takes test s) (ifYes : A.Parses yes L F) (ifNo : A.Parses no K F)
    (apart : ∀ sentence a t, K sentence a → F t → sentence.headD t ≠ s) :
    A.Parses (test >>= fun taken => if taken then yes else no)
      (fun sentence a => (∃ rest, sentence = s :: rest ∧ L rest a) ∨ K sentence a) F where
  returns := by
    intro input a rest ends done
    obtain ⟨token, behind, rfl⟩ := ends.exists_cons
    by_cases isNext : A.view token = s
    · rw [Fallible.exec_bind_ok ((takes.2 token behind).1 isNext)] at done
      obtain ⟨endsThen, tokens, rfl, means⟩ := ifYes.returns behind a rest (ends.tail (isNext ▸ takes.1)) done
      exact ⟨endsThen, token :: tokens, rfl, .inl ⟨tokens.map A.view, by simp [isNext], means⟩⟩
    · rw [Fallible.exec_bind_ok ((takes.2 token behind).2 isNext)] at done
      obtain ⟨ends, tokens, split, means⟩ := ifNo.returns (token :: behind) a rest ends done
      exact ⟨ends, tokens, split, .inr means⟩
  throws := by
    intro input e rest ends thrown
    obtain ⟨token, behind, rfl⟩ := ends.exists_cons
    by_cases isNext : A.view token = s
    · rw [Fallible.exec_bind_ok ((takes.2 token behind).1 isNext)] at thrown
      exact ifYes.throws behind e rest (ends.tail (isNext ▸ takes.1)) thrown
    · rw [Fallible.exec_bind_ok ((takes.2 token behind).2 isNext)] at thrown
      exact ifNo.throws (token :: behind) e rest ends thrown
  complete := by
    rintro tokens next rest a (⟨behind, split, means⟩ | means) follows
    · obtain ⟨token, others, rfl, isNext, rfl⟩ := List.map_eq_cons_iff.mp split
      rw [List.cons_append, Fallible.exec_bind_ok ((takes.2 token _).1 isNext)]
      exact ifYes.complete others next rest a means follows
    · have otherwise := apart _ a _ means follows
      have refused : test.exec (tokens ++ next :: rest) = (.ok false, tokens ++ next :: rest) := by
        cases tokens with
        | nil => exact (takes.2 next rest).2 otherwise
        | cons token tokens => exact (takes.2 token _).2 otherwise
      rw [Fallible.exec_bind_ok refused]
      exact ifNo.complete tokens next rest a means follows

theorem see (sees : A.Sees test s) (ifYes : A.Parses yes L F) (ifNo : A.Parses no K F)
    (starts : ∀ sentence a, L sentence a → sentence.head? = some s)
    (apart : ∀ sentence a t, K sentence a → F t → sentence.headD t ≠ s) :
    A.Parses (test >>= fun seen => if seen then yes else no) (fun sentence a => L sentence a ∨ K sentence a) F where
  returns := by
    intro input a rest ends done
    obtain ⟨token, behind, rfl⟩ := ends.exists_cons
    obtain ⟨seen, looked, -⟩ := sees token behind
    rw [Fallible.exec_bind_ok looked] at done
    split at done
    · obtain ⟨ends, tokens, split, means⟩ := ifYes.returns _ a rest ends done
      exact ⟨ends, tokens, split, .inl means⟩
    · obtain ⟨ends, tokens, split, means⟩ := ifNo.returns _ a rest ends done
      exact ⟨ends, tokens, split, .inr means⟩
  throws := by
    intro input e rest ends thrown
    obtain ⟨token, behind, rfl⟩ := ends.exists_cons
    obtain ⟨seen, looked, -⟩ := sees token behind
    rw [Fallible.exec_bind_ok looked] at thrown
    split at thrown
    · exact ifYes.throws _ e rest ends thrown
    · exact ifNo.throws _ e rest ends thrown
  complete := by
    rintro tokens next rest a (means | means) follows
    · have first := starts _ a means
      cases tokens with
      | nil => cases first
      | cons token tokens =>
        obtain ⟨seen, looked, decides⟩ := sees token (tokens ++ next :: rest)
        have isNext : A.view token = s := by simpa using first
        rw [List.cons_append, Fallible.exec_bind_ok looked, if_pos (decides.mpr isNext)]
        exact ifYes.complete (token :: tokens) next rest a means follows
    · have otherwise := apart _ a _ means follows
      have refused : test.exec (tokens ++ next :: rest) = (.ok false, tokens ++ next :: rest) := by
        cases tokens with
        | nil =>
          obtain ⟨seen, looked, decides⟩ := sees next rest
          rw [List.nil_append, looked, Bool.eq_false_iff.mpr fun isSeen => otherwise (decides.mp isSeen)]
        | cons token tokens =>
          obtain ⟨seen, looked, decides⟩ := sees token (tokens ++ next :: rest)
          rw [List.cons_append, looked, Bool.eq_false_iff.mpr fun isSeen => otherwise (decides.mp isSeen)]
      rw [Fallible.exec_bind_ok refused]
      exact ifNo.complete tokens next rest a means follows

end Parses

def iterateRounds (test : Fallible (List τ) ε Bool) (body : α → Fallible (List τ) ε α) :
    Nat → α → Fallible (List τ) ε α
  | 0, a => return a
  | rounds + 1, a => do
    if ← test then
      let b ← body a
      iterateRounds test body rounds b
    else return a

def iterate (test : Fallible (List τ) ε Bool) (body : α → Fallible (List τ) ε α) (a : α) :
    Fallible (List τ) ε α := do
  let left ← get
  iterateRounds test body left.length a

namespace Parses

variable {test : Fallible (List τ) ε Bool} {s : ι} {body : α → Fallible (List τ) ε α} {L : α → Phrases ι α}
  {F G : ι → Prop}

theorem exec_iterateRounds_take {token : τ} (takes : A.Takes test s) (isNext : A.view token = s) (rounds : Nat)
    (a : α) (behind : List τ) : (iterateRounds test body (rounds + 1) a).exec (token :: behind) =
      (body a >>= iterateRounds test body rounds).exec behind := by
  rw [iterateRounds, Fallible.exec_bind_ok ((takes.2 token behind).1 isNext)]
  rfl

theorem exec_iterateRounds_stop {token : τ} (takes : A.Takes test s) (other : A.view token ≠ s) (rounds : Nat)
    (a : α) (behind : List τ) :
    (iterateRounds test body rounds a).exec (token :: behind) = (.ok a, token :: behind) := by
  cases rounds with
  | zero => rfl
  | succ rounds =>
    rw [iterateRounds, Fallible.exec_bind_ok ((takes.2 token behind).2 other)]
    rfl

theorem iterateRounds_returns (takes : A.Takes test s) (parses : ∀ a, A.Parses (body a) (L a) F) {rounds : Nat}
    {input rest : List τ} {a b : α} (enough : input.length ≤ rounds) (ends : A.Terminated input)
    (done : (iterateRounds test body rounds a).exec input = (.ok b, rest)) :
    A.Terminated rest ∧ ∃ tokens, input = tokens ++ rest ∧ Phrases.Iterated s L a (tokens.map A.view) b := by
  induction rounds generalizing input a with
  | zero =>
    obtain ⟨token, behind, rfl⟩ := ends.exists_cons
    cases enough
  | succ rounds ih =>
    obtain ⟨token, behind, rfl⟩ := ends.exists_cons
    by_cases isNext : A.view token = s
    · rw [exec_iterateRounds_take takes isNext, Fallible.exec_bind] at done
      split at done
      · rename_i c middle read
        obtain ⟨endsThen, front, rfl, means⟩ := (parses a).returns behind c middle (ends.tail (isNext ▸ takes.1)) read
        have fewer : middle.length ≤ rounds := by
          rw [List.length_cons, List.length_append] at enough
          omega
        obtain ⟨endsLast, back, rfl, meansOn⟩ := ih fewer endsThen done
        refine ⟨endsLast, token :: (front ++ back), by simp, ?_⟩
        rw [List.map_cons, List.map_append, isNext]
        exact .step means meansOn
      · cases done
    · rw [exec_iterateRounds_stop takes isNext] at done
      cases done
      exact ⟨ends, [], rfl, .stop _⟩

theorem iterateRounds_throws (takes : A.Takes test s) (parses : ∀ a, A.Parses (body a) (L a) F) {rounds : Nat}
    {input rest : List τ} {a : α} {e : ε} (ends : A.Terminated input)
    (thrown : (iterateRounds test body rounds a).exec input = (.error e, rest)) : A.Complains e := by
  induction rounds generalizing input a with
  | zero => cases thrown
  | succ rounds ih =>
    obtain ⟨token, behind, rfl⟩ := ends.exists_cons
    by_cases isNext : A.view token = s
    · have endsThen := ends.tail (isNext ▸ takes.1)
      rw [exec_iterateRounds_take takes isNext, Fallible.exec_bind] at thrown
      split at thrown
      · rename_i c middle read
        exact ih ((parses a).returns behind c middle endsThen read).1 thrown
      · rename_i complaint
        cases thrown
        exact (parses a).throws behind e rest endsThen complaint
    · rw [exec_iterateRounds_stop takes isNext] at thrown
      cases thrown

theorem iterateRounds_complete (takes : A.Takes test s) (parses : ∀ a, A.Parses (body a) (L a) F) (again : F s)
    (stops : ∀ t, G t → F t ∧ t ≠ s) {rounds : Nat} {tokens rest : List τ} {next : τ} {a b : α}
    (enough : tokens.length ≤ rounds) (means : Phrases.Iterated s L a (tokens.map A.view) b)
    (follows : G (A.view next)) :
    (iterateRounds test body rounds a).exec (tokens ++ next :: rest) = (.ok b, next :: rest) := by
  generalize sentence : tokens.map A.view = phrase at means
  induction means generalizing tokens rounds with
  | stop =>
    rw [List.map_eq_nil_iff.mp sentence]
    exact exec_iterateRounds_stop takes (stops _ follows).2 rounds _ rest
  | @step a c b front back first others ih =>
    obtain ⟨token, behind, rfl, isNext, split⟩ := List.map_eq_cons_iff.mp sentence
    obtain ⟨fronts, backs, rfl, rfl, rfl⟩ := List.map_eq_append_iff.mp split
    cases rounds with
    | zero => cases enough
    | succ rounds =>
      have fewer : backs.length ≤ rounds := by
        rw [List.length_cons, List.length_append] at enough
        omega
      have read : (body a).exec (fronts ++ (backs ++ next :: rest)) = (.ok c, backs ++ next :: rest) := by
        rcases others.head with empty | ⟨rest', starts⟩
        · rw [List.map_eq_nil_iff.mp empty]
          exact (parses a).complete fronts next rest c first (stops _ follows).1
        · obtain ⟨second, later, rfl, isSecond, -⟩ := List.map_eq_cons_iff.mp starts
          exact (parses a).complete fronts second (later ++ next :: rest) c first (isSecond ▸ again)
      rw [List.cons_append, List.append_assoc, exec_iterateRounds_take takes isNext, Fallible.exec_bind_ok read]
      exact ih fewer rfl

theorem iterate (takes : A.Takes test s) (parses : ∀ a, A.Parses (body a) (L a) F) (again : F s)
    (stops : ∀ t, G t → F t ∧ t ≠ s) (a : α) : A.Parses (iterate test body a) (Phrases.Iterated s L a) G where
  returns := fun _ _ _ ends done => iterateRounds_returns takes parses (Nat.le_refl _) ends done
  throws := fun _ _ _ ends thrown => iterateRounds_throws takes parses ends thrown
  complete := fun tokens next rest b means follows =>
    iterateRounds_complete takes parses again stops (by simp) means follows

end Parses

theorem Parses.iterate_folded {δ : Type} {test : Fallible (List τ) ε Bool} {s : ι}
    {body : α → Fallible (List τ) ε α} {L : Phrases ι δ} {step : α → δ → Option α} {F G : ι → Prop}
    (takes : A.Takes test s) (parses : ∀ a, A.Parses (body a) (Phrases.folded L step a) F) (again : F s)
    (stops : ∀ t, G t → F t ∧ t ≠ s) (a : α) :
    A.Parses (body a >>= fun b => Alphabet.iterate test body b)
      (fun sentence c => ∃ ds, Phrases.Separated s L sentence ds ∧ ds.foldlM step a = some c) G := by
  refine of_iff (Parses.bind (parses a) (Parses.iterate takes parses again stops) ?_) fun sentence c => ?_
  · intro b sentence c t iterated follows
    rcases iterated.head with rfl | ⟨rest, rfl⟩
    · exact (stops t follows).1
    · exact again
  · constructor
    · rintro ⟨front, back, b, rfl, first, iterated⟩
      exact iterated.separated first
    · rintro ⟨ds, separated, result⟩
      exact separated.iterated result

def separated (test : Fallible (List τ) ε Bool) (item : Fallible (List τ) ε α) : Fallible (List τ) ε (List α) :=
  let push := fun as => do
    let a ← item
    return as ++ [a]
  push [] >>= fun as => iterate test push as

theorem Parses.separated {test : Fallible (List τ) ε Bool} {s : ι} {item : Fallible (List τ) ε α} {L : Phrases ι α}
    {F G : ι → Prop} (takes : A.Takes test s) (parses : A.Parses item L F) (again : F s)
    (stops : ∀ t, G t → F t ∧ t ≠ s) : A.Parses (separated test item) (Phrases.Separated s L) G := by
  have push : ∀ as : List α, A.Parses (do
      let a ← item
      return as ++ [a]) (Phrases.folded L (fun as a => some (as ++ [a])) as) F := by
    intro as
    refine of_iff parses.bind_pure fun sentence bs => ?_
    simp only [Phrases.folded, Option.some.injEq, eq_comm]
  refine of_iff (iterate_folded takes push again stops []) fun sentence as => ?_
  simp [Phrases.foldlM_push]

end Alphabet

end FlintDB.Lib
