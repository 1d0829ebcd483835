import FlintDB.Lib.Fallible

set_option autoImplicit false

-- The two extractions of an input stream, a word and a decimal number, each behind any white space; and what a
-- program of them reads off the text that spells a list of words.

namespace FlintDB.Lib

theorem takeWhile_run {α : Type} {p : α → Bool} {run rest : List α} (inside : ∀ a ∈ run, p a = true)
    (stops : rest.head?.all fun a => !p a) :
    (run ++ rest).takeWhile p = run ∧ (run ++ rest).dropWhile p = rest := by
  rw [List.takeWhile_append_of_pos inside, List.dropWhile_append_of_pos inside]
  cases rest with
  | nil => simp
  | cons a rest =>
    have outside : p a = false := by simpa using stops
    simp [outside]

namespace TextReader

-- std::isspace.
def isSpace (c : Char) : Bool := c.toNat = 32 ∨ 9 ≤ c.toNat ∧ c.toNat ≤ 13

def nextWord (input : List Char) : Option (List Char × List Char) :=
  let input := input.dropWhile isSpace
  let word := input.takeWhile fun c => !isSpace c
  if word = [] then none else some (word, input.dropWhile fun c => !isSpace c)

-- A sign is not read.
def nextNumber (input : List Char) : Option (Nat × List Char) :=
  let input := input.dropWhile isSpace
  let digits := input.takeWhile Char.isDigit
  if digits = [] then none else some (Nat.ofDigitChars 10 digits 0, input.dropWhile Char.isDigit)

def IsSolid (word : List Char) : Prop := word ≠ [] ∧ ∀ c ∈ word, isSpace c = false

instance (word : List Char) : Decidable (IsSolid word) :=
  decidable_of_bool (!word.isEmpty && word.all fun c => !isSpace c) (by simp [IsSolid])

inductive Spells : List (List Char) → List Char → Prop
  | nil {input : List Char} (blank : ∀ c ∈ input, isSpace c = true) : Spells [] input
  | cons {blank word rest : List Char} {words : List (List Char)} (isBlank : ∀ c ∈ blank, isSpace c = true)
      (solid : IsSolid word) (ends : rest.head?.all isSpace) (spells : Spells words rest) :
      Spells (word :: words) (blank ++ (word ++ rest))

theorem not_isSpace_of_isDigit {c : Char} (digit : c.isDigit = true) : isSpace c = false := by
  simp only [Char.isDigit, ge_iff_le, Bool.and_eq_true, decide_eq_true_eq, UInt32.le_iff_toNat_le] at digit
  have low : 48 ≤ c.toNat := digit.1
  simp only [isSpace, decide_eq_false_iff_not]
  omega

theorem not_isDigit_of_isSpace {c : Char} (space : isSpace c = true) : c.isDigit = false := by
  cases digit : c.isDigit with
  | false => rfl
  | true => rw [not_isSpace_of_isDigit digit] at space; cases space

theorem Spells.skip {word : List Char} {words : List (List Char)} {input : List Char}
    (spells : Spells (word :: words) input) :
    ∃ rest, input.dropWhile isSpace = word ++ rest ∧ IsSolid word ∧ rest.head?.all isSpace ∧ Spells words rest := by
  cases spells with
  | @cons blank _ rest _ isBlank solid ends spells =>
    refine ⟨rest, (takeWhile_run isBlank ?_).2, solid, ends, spells⟩
    cases word with
    | nil => exact absurd rfl solid.1
    | cons c word => simpa using solid.2 c List.mem_cons_self

theorem Spells.nextWord {word : List Char} {words : List (List Char)} {input : List Char}
    (spells : Spells (word :: words) input) : ∃ rest, nextWord input = some (word, rest) ∧ Spells words rest := by
  obtain ⟨rest, skipped, solid, ends, spells⟩ := spells.skip
  obtain ⟨taken, left⟩ : (word ++ rest).takeWhile (fun c => !isSpace c) = word ∧
      (word ++ rest).dropWhile (fun c => !isSpace c) = rest :=
    takeWhile_run (fun c member => by simp [solid.2 c member]) (by simpa using ends)
  refine ⟨rest, ?_, spells⟩
  rw [TextReader.nextWord, skipped, taken, left, if_neg solid.1]

theorem Spells.nextNumber {n : Nat} {words : List (List Char)} {input : List Char}
    (spells : Spells (n.repr.toList :: words) input) :
    ∃ rest, nextNumber input = some (n, rest) ∧ Spells words rest := by
  obtain ⟨rest, skipped, -, ends, spells⟩ := spells.skip
  rw [Nat.toList_repr] at skipped
  obtain ⟨taken, left⟩ : (Nat.toDigits 10 n ++ rest).takeWhile Char.isDigit = Nat.toDigits 10 n ∧
      (Nat.toDigits 10 n ++ rest).dropWhile Char.isDigit = rest := by
    apply takeWhile_run
    · exact fun c member => Nat.isDigit_of_mem_toDigits (by decide) (by decide) member
    · cases rest with
      | nil => rfl
      | cons c rest => simpa using not_isDigit_of_isSpace ends
  refine ⟨rest, ?_, spells⟩
  rw [TextReader.nextNumber, skipped, taken, left, if_neg Nat.toDigits_ne_nil, Nat.ofDigitChars_ten_toDigits]

theorem isSolid_repr (n : Nat) : IsSolid n.repr.toList := by
  rw [Nat.toList_repr]
  exact ⟨Nat.toDigits_ne_nil, fun c member =>
    not_isSpace_of_isDigit (Nat.isDigit_of_mem_toDigits (by decide) (by decide) member)⟩

def lineText : List String → List Char
  | [] => ['\n']
  | [word] => word.toList ++ ['\n']
  | word :: words => word.toList ++ ' ' :: lineText words

def linesText (lines : List (List String)) : List Char := lines.flatMap lineText

theorem Spells.blank {words : List (List Char)} {input : List Char} {c : Char} (space : isSpace c = true)
    (spells : Spells words input) : Spells words (c :: input) := by
  cases spells with
  | nil blank => exact Spells.nil (List.forall_mem_cons.mpr ⟨space, blank⟩)
  | @cons blank word rest words isBlank solid ends spells =>
    exact Spells.cons (List.forall_mem_cons.mpr ⟨space, isBlank⟩) solid ends spells

theorem Spells.solid_append {word : List Char} {words : List (List Char)} {rest : List Char} {c : Char}
    (solid : IsSolid word) (space : isSpace c = true) (spells : Spells words rest) :
    Spells (word :: words) (word ++ c :: rest) := by
  rw [← List.nil_append (word ++ c :: rest)]
  exact Spells.cons (by simp) solid (by simpa using space) (spells.blank space)

theorem Spells.line_append {line : List String} {later : List (List Char)} {rest : List Char}
    (solid : ∀ word ∈ line, IsSolid word.toList) (spells : Spells later rest) :
    Spells (line.map String.toList ++ later) (lineText line ++ rest) := by
  fun_induction lineText line with
  | case1 => exact spells.blank rfl
  | case2 word =>
    rw [List.append_assoc]
    exact spells.solid_append (solid word List.mem_cons_self) rfl
  | case3 word words _ ih =>
    rw [List.append_assoc]
    exact Spells.solid_append (solid word List.mem_cons_self) rfl
      (ih fun other member => solid other (List.mem_cons_of_mem _ member))

theorem spells_linesText {lines : List (List String)}
    (solid : ∀ line ∈ lines, ∀ word ∈ line, IsSolid word.toList) :
    Spells (lines.flatten.map String.toList) (linesText lines) := by
  induction lines with
  | nil => exact Spells.nil (by simp [linesText])
  | cons line lines ih =>
    rw [List.forall_mem_cons] at solid
    rw [List.flatten_cons, List.map_append, linesText, List.flatMap_cons]
    exact Spells.line_append solid.1 (ih solid.2)

section Reads

variable {ε α β γ : Type} {a : α} {b : β} {words later : List String}

def extractWord : Fallible (List Char) ε (Option String) := do
  match nextWord (← get) with
  | none => return none
  | some (word, rest) =>
    set rest
    return some (String.ofList word)

def extractNumber : Fallible (List Char) ε (Option Nat) := do
  match nextNumber (← get) with
  | none => return none
  | some (number, rest) =>
    set rest
    return some number

-- A loop of so many rounds.
def times : Nat → Fallible (List Char) ε α → Fallible (List Char) ε (List α)
  | 0, _ => return []
  | count + 1, body => do
    let first ← body
    let others ← times count body
    return first :: others

-- The program reads these words off the front of the text, and they make it return `a`.
def Reads (program : Fallible (List Char) ε α) (words : List String) (a : α) : Prop :=
  ∀ later input, Spells (words.map String.toList ++ later) input →
    ∃ rest, program.exec input = (.ok a, rest) ∧ Spells later rest

theorem Reads.pure (a : α) : Reads (pure a : Fallible (List Char) ε α) [] a :=
  fun _ input spells => ⟨input, rfl, spells⟩

theorem Reads.bind {program : Fallible (List Char) ε α} {next : α → Fallible (List Char) ε β}
    (first : Reads program words a) (second : Reads (next a) later b) :
    Reads (program >>= next) (words ++ later) b := by
  intro behind input spells
  rw [List.map_append, List.append_assoc] at spells
  obtain ⟨middle, read, spells⟩ := first _ input spells
  obtain ⟨rest, readOn, spells⟩ := second _ middle spells
  exact ⟨rest, by rw [Fallible.exec_bind_ok read, readOn], spells⟩

theorem reads_extractWord (word : String) : 
    Reads (extractWord : Fallible (List Char) ε (Option String)) [word] (some word) := by
  intro later input spells
  obtain ⟨rest, next, spells⟩ := spells.nextWord
  refine ⟨rest, ?_, spells⟩
  rw [extractWord, Fallible.exec_bind_ok (Fallible.exec_get input), next]
  show (Except.ok (some (String.ofList word.toList)), rest) = _
  rw [String.ofList_toList]

theorem reads_extractNumber (n : Nat) : 
    Reads (extractNumber : Fallible (List Char) ε (Option Nat)) [n.repr] (some n) := by
  intro later input spells
  obtain ⟨rest, next, spells⟩ := spells.nextNumber
  refine ⟨rest, ?_, spells⟩
  rw [extractNumber, Fallible.exec_bind_ok (Fallible.exec_get input), next]
  rfl

theorem Reads.times {body : Fallible (List Char) ε α} {spelling : γ → List String} {f : γ → α} {items : List γ}
    (each : ∀ item ∈ items, Reads body (spelling item) (f item)) :
    Reads (times items.length body) (items.flatMap spelling) (items.map f) := by
  induction items with
  | nil => exact Reads.pure []
  | cons item items ih =>
    rw [List.flatMap_cons]
    refine Reads.bind (each item List.mem_cons_self) ?_
    rw [← List.append_nil (items.flatMap spelling)]
    exact Reads.bind (ih fun other member => each other (List.mem_cons_of_mem _ member)) (Reads.pure _)

end Reads

end TextReader

end FlintDB.Lib
