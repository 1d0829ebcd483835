import Mathlib.Data.List.Forall2
import FlintDB.Lib.Decimal
import FlintDB.Lib.TextReader
import FlintDB.Lib.Utf8

set_option autoImplicit false

-- What a reader makes of a text, for the values that are whole numbers, strings, arrays, objects, true, false and
-- null, with no white space between the tokens. A string is the bytes it stands for; an escape beyond ASCII is not
-- read.

namespace FlintDB.Lib

inductive Json
  | null
  | bool (value : Bool)
  | number (value : Int)
  | string (value : Bytes)
  | array (items : List Json)
  | object (members : List (Bytes × Json))

namespace Json

def hexDigit (c : UInt8) : Option Nat :=
  if 48 ≤ c && c ≤ 57 then some (c.toNat - 48)
  else if 97 ≤ c && c ≤ 102 then some (c.toNat - 87)
  else if 65 ≤ c && c ≤ 70 then some (c.toNat - 55)
  else none

def ofHex (first second third fourth : UInt8) : Option UInt8 := do
  let code := 4096 * (← hexDigit first) + 256 * (← hexDigit second) + 16 * (← hexDigit third) + (← hexDigit fourth)
  if code < 128 then some (UInt8.ofNat code) else none

def ofLetter (c : UInt8) : Option UInt8 :=
  if c = 34 ∨ c = 92 ∨ c = 47 then some c
  else if c = 98 then some 8
  else if c = 102 then some 12
  else if c = 110 then some 10
  else if c = 114 then some 13
  else if c = 116 then some 9
  else none

def character : Bytes → Option (UInt8 × Bytes)
  | [] => none
  | c :: rest =>
    if c = 34 ∨ c < 32 then none
    else if c ≠ 92 then some (c, rest)
    else
      match rest with
      | 117 :: first :: second :: third :: fourth :: rest => (ofHex first second third fourth).map fun c => (c, rest)
      | letter :: rest => (ofLetter letter).map fun c => (c, rest)
      | [] => none

def readString : Nat → Bytes → Option (Bytes × Bytes)
  | 0, _ => none
  | _ + 1, 34 :: rest => some ([], rest)
  | fuel + 1, input => do
    let (c, rest) ← character input
    let (text, rest) ← readString fuel rest
    some (c :: text, rest)

-- There is nothing behind a whole number that would go on with it.
def ends (rest : Bytes) : Bool :=
  rest.head?.all fun c => !(Decimal.isDigit c || c = 46 || c = 69 || c = 101)

def readNatural (input : Bytes) : Option (Nat × Bytes) :=
  let digits := input.takeWhile Decimal.isDigit
  let rest := input.dropWhile Decimal.isDigit
  if digits = [] ∨ (digits.head? = some 48 ∧ digits ≠ [48]) ∨ ends rest = false then none
  else some (Decimal.value digits, rest)

def readNumber : Bytes → Option (Int × Bytes)
  | 45 :: rest => (readNatural rest).map fun (n, rest) => (-(n : Int), rest)
  | input => (readNatural input).map fun (n, rest) => ((n : Int), rest)

def word (text : Bytes) (value : Json) (input : Bytes) : Option (Json × Bytes) :=
  if text <+: input then some (value, input.drop text.length) else none

mutual

def readValue : Nat → Bytes → Option (Json × Bytes)
  | 0, _ => none
  | fuel + 1, input =>
    match input with
    | [] => none
    | c :: rest =>
      if c = 34 then (readString fuel rest).map fun (text, rest) => (.string text, rest)
      else if c = 91 then
        if rest.head? = some 93 then some (.array [], rest.tail)
        else (readItems fuel rest).map fun (items, rest) => (.array items, rest)
      else if c = 123 then
        if rest.head? = some 125 then some (.object [], rest.tail)
        else (readMembers fuel rest).map fun (members, rest) => (.object members, rest)
      else if c = 116 then word [114, 117, 101] (.bool true) rest
      else if c = 102 then word [97, 108, 115, 101] (.bool false) rest
      else if c = 110 then word [117, 108, 108] .null rest
      else (readNumber input).map fun (n, rest) => (.number n, rest)

def readItems : Nat → Bytes → Option (List Json × Bytes)
  | 0, _ => none
  | fuel + 1, input => do
    let (item, rest) ← readValue fuel input
    match rest with
    | 44 :: rest =>
      let (items, rest) ← readItems fuel rest
      some (item :: items, rest)
    | 93 :: rest => some ([item], rest)
    | _ => none

def readMembers : Nat → Bytes → Option (List (Bytes × Json) × Bytes)
  | 0, _ => none
  | fuel + 1, input => do
    match input with
    | 34 :: rest =>
      let (key, rest) ← readString fuel rest
      match rest with
      | 58 :: rest =>
        let (value, rest) ← readValue fuel rest
        match rest with
        | 44 :: rest =>
          let (members, rest) ← readMembers fuel rest
          some ((key, value) :: members, rest)
        | 125 :: rest => some ([(key, value)], rest)
        | _ => none
      | _ => none
    | _ => none

end

-- The value that is the whole of the text, which has to be UTF-8.
def decode (text : Bytes) : Option Json :=
  if IsUtf8 text then
    match readValue text.length text with
    | some (value, []) => some value
    | _ => none
  else none

def Spells (text : Bytes) (value : Json) : Prop :=
  ∀ fuel rest, text.length ≤ fuel → ends rest = true → readValue fuel (text ++ rest) = some (value, rest)

def Escapes (c : UInt8) (text : Bytes) : Prop := ∀ rest, character (text ++ rest) = some (c, rest)

def SpellsString (text value : Bytes) : Prop :=
  ∀ fuel rest, text.length < fuel → readString fuel (text ++ 34 :: rest) = some (value, rest)

theorem Spells.decode {text : Bytes} {value : Json} (spells : Spells text value) (utf8 : IsUtf8 text) :
    decode text = some value := by
  have read := spells text.length [] (Nat.le_refl _) rfl
  rw [List.append_nil] at read
  rw [Json.decode, if_pos utf8, read]

theorem Spells.first {text : Bytes} {value : Json} (spells : Spells text value) :
    ∃ c rest, text = c :: rest ∧ c ≠ 93 := by
  have read := spells (text.length + 1) [] (Nat.le_succ _) rfl
  cases text with
  | nil => cases read
  | cons c rest =>
    refine ⟨c, rest, rfl, ?_⟩
    rintro rfl
    cases read

theorem Escapes.first {c : UInt8} {text : Bytes} (escapes : Escapes c text) : ∃ d rest, text = d :: rest ∧ d ≠ 34 := by
  have read := escapes []
  cases text with
  | nil => cases read
  | cons d rest =>
    refine ⟨d, rest, rfl, ?_⟩
    rintro rfl
    cases read

theorem readString_cons {fuel : Nat} {d : UInt8} {rest : Bytes} (notQuote : d ≠ 34) :
    readString (fuel + 1) (d :: rest) = (do
      let (c, rest) ← character (d :: rest)
      let (text, rest) ← readString fuel rest
      some (c :: text, rest)) := by
  rw [readString]
  rintro _ ⟨⟩
  exact notQuote rfl

theorem spellsString_nil : SpellsString [] [] := by
  intro fuel rest enough
  cases fuel with
  | zero => exact absurd enough (Nat.lt_irrefl 0)
  | succ fuel => rfl

theorem SpellsString.cons {c : UInt8} {text first value : Bytes} (escapes : Escapes c first)
    (spells : SpellsString text value) : SpellsString (first ++ text) (c :: value) := by
  intro fuel rest enough
  obtain ⟨d, behind, rfl, notQuote⟩ := escapes.first
  obtain ⟨fuel, rfl⟩ : ∃ less, fuel = less + 1 := ⟨fuel - 1, by simp at enough; omega⟩
  have onward := spells fuel rest (by simp at enough; omega)
  have here := escapes (text ++ 34 :: rest)
  rw [List.append_assoc, List.cons_append, readString_cons notQuote, ← List.cons_append, here]
  simp only [Option.bind_eq_bind, Option.bind_some, onward]

theorem spellsString_flatMap {escape : UInt8 → Bytes} (escapes : ∀ c, Escapes c (escape c)) (value : Bytes) :
    SpellsString (value.flatMap escape) value := by
  induction value with
  | nil => exact spellsString_nil
  | cons c value ih => exact ih.cons (escapes c)

theorem SpellsString.spells {text value : Bytes} (spells : SpellsString text value) :
    Spells (34 :: (text ++ [34])) (.string value) := by
  intro fuel rest enough _
  obtain ⟨fuel, rfl⟩ : ∃ less, fuel = less + 1 := ⟨fuel - 1, by simp at enough; omega⟩
  have read := spells fuel rest (by simp at enough; omega)
  rw [List.cons_append, List.append_assoc, readValue]
  simp only [List.cons_append, List.nil_append, read, if_true]
  rfl

theorem readNatural_text {rest : Bytes} (ended : ends rest = true) (n : Nat) :
    readNatural (Decimal.text n ++ rest) = some (n, rest) := by
  have stops : rest.head?.all fun c => !Decimal.isDigit c := by
    cases rest with
    | nil => rfl
    | cons c rest => simp_all [ends]
  obtain ⟨taken, left⟩ := takeWhile_run (Decimal.text_digits n) stops
  have noZero : ¬ ((Decimal.text n).head? = some 48 ∧ Decimal.text n ≠ [48]) := by
    rintro ⟨zero, more⟩
    rcases Nat.eq_zero_or_pos n with rfl | positive
    · exact more rfl
    · exact Decimal.head_text positive zero
  rw [readNatural, taken, left, if_neg, Decimal.value_text]
  simp [Decimal.text_ne_nil, ended] at noZero ⊢
  exact noZero

theorem readValue_number {fuel : Nat} {c : UInt8} {rest : Bytes} (other : c ∉ [34, 91, 123, 116, 102, 110]) :
    readValue (fuel + 1) (c :: rest) = (readNumber (c :: rest)).map fun (n, rest) => (.number n, rest) := by
  simp only [List.mem_cons, List.not_mem_nil, or_false, not_or] at other
  simp only [readValue, other, if_false]

theorem spells_natural (n : Nat) : Spells (Decimal.text n) (.number n) := by
  intro fuel rest enough ended
  have read := readNatural_text ended n
  obtain ⟨c, digits, text_eq⟩ := List.exists_cons_of_ne_nil (Decimal.text_ne_nil n)
  have digit : Decimal.isDigit c = true := Decimal.text_digits n c (by simp [text_eq])
  have other : c ∉ [34, 91, 123, 116, 102, 110, 45] := by
    intro member
    simp only [List.mem_cons, List.not_mem_nil, or_false] at member
    rcases member with rfl | rfl | rfl | rfl | rfl | rfl | rfl <;> cases digit
  rw [text_eq] at enough read ⊢
  obtain ⟨fuel, rfl⟩ : ∃ less, fuel = less + 1 := ⟨fuel - 1, by simp at enough; omega⟩
  rw [List.cons_append] at read ⊢
  have positive : readNumber (c :: (digits ++ rest)) = some ((n : Int), rest) := by
    rw [readNumber, read]
    · rfl
    · rintro _ ⟨⟩
      exact other (by simp)
  rw [readValue_number fun member => other (by simp at member ⊢; tauto), positive]
  rfl

theorem spells_negative (n : Nat) : Spells (45 :: Decimal.text n) (.number (-(n : Int))) := by
  intro fuel rest enough ended
  obtain ⟨fuel, rfl⟩ : ∃ less, fuel = less + 1 := ⟨fuel - 1, by simp at enough; omega⟩
  rw [List.cons_append, readValue_number (by decide), readNumber, readNatural_text ended n]
  rfl

theorem spells_true : Spells [116, 114, 117, 101] (.bool true) := by
  intro fuel rest enough _
  obtain ⟨fuel, rfl⟩ : ∃ less, fuel = less + 1 := ⟨fuel - 1, by simp at enough; omega⟩
  simp [readValue, word]

theorem spells_false : Spells [102, 97, 108, 115, 101] (.bool false) := by
  intro fuel rest enough _
  obtain ⟨fuel, rfl⟩ : ∃ less, fuel = less + 1 := ⟨fuel - 1, by simp at enough; omega⟩
  simp [readValue, word]

def separated : List Bytes → Bytes
  | [] => []
  | [text] => text
  | text :: next :: texts => text ++ 44 :: separated (next :: texts)

theorem separated_cons (text : Bytes) (texts : List Bytes) :
    separated (text :: texts) = text ++ texts.flatMap fun text => 44 :: text := by
  induction texts generalizing text with
  | nil => rw [separated, List.flatMap_nil, List.append_nil]
  | cons next texts ih => rw [separated, ih, List.flatMap_cons, List.cons_append]

theorem readItems_separated {texts : List Bytes} {items : List Json} (spell : List.Forall₂ Spells texts items)
    (some : texts ≠ []) {fuel : Nat} (enough : (separated texts).length < fuel) (rest : Bytes) :
    readItems fuel (separated texts ++ 93 :: rest) = Option.some (items, rest) := by
  induction spell generalizing fuel with
  | nil => exact absurd rfl some
  | @cons text item texts items spells others ih =>
    obtain ⟨fuel, rfl⟩ : ∃ less, fuel = less + 1 := ⟨fuel - 1, by omega⟩
    cases others with
    | nil =>
      have read := spells fuel (93 :: rest) (Nat.le_of_lt_succ enough) rfl
      rw [separated, readItems, read]
      rfl
    | @cons next item' texts items' nextSpells others =>
      simp only [separated, List.length_append, List.length_cons] at enough
      have read := spells fuel (44 :: (separated (next :: texts) ++ 93 :: rest)) (by omega) rfl
      have onward := ih (List.cons_ne_nil _ _) (by omega : (separated (next :: texts)).length < fuel)
      rw [separated, List.append_assoc, List.cons_append, readItems, read]
      simp only [Option.bind_eq_bind, Option.bind_some, onward]

theorem spells_array {texts : List Bytes} {items : List Json} (spell : List.Forall₂ Spells texts items) :
    Spells (91 :: (separated texts ++ [93])) (.array items) := by
  intro fuel rest enough _
  obtain ⟨fuel, rfl⟩ : ∃ less, fuel = less + 1 := ⟨fuel - 1, by simp at enough; omega⟩
  cases spell with
  | nil => rfl
  | @cons text item texts items spells others =>
    have read := @readItems_separated _ _ (.cons spells others) (List.cons_ne_nil _ _) fuel
      (by simp at enough; omega) rest
    obtain ⟨c, behind, text_eq, notEnd⟩ := spells.first
    have head : (separated (text :: texts) ++ 93 :: rest).head? ≠ some 93 := by
      cases texts <;> simp [separated, text_eq, notEnd]
    rw [List.cons_append, List.append_assoc, List.singleton_append, readValue]
    simp only [head, read, if_false]
    rfl

def SpellsMember (text : Bytes) (member : Bytes × Json) : Prop :=
  ∃ keyText valueText, text = 34 :: (keyText ++ 34 :: 58 :: valueText) ∧ SpellsString keyText member.1 ∧
    Spells valueText member.2

theorem readMembers_separated {texts : List Bytes} {members : List (Bytes × Json)}
    (spell : List.Forall₂ SpellsMember texts members) (some : texts ≠ []) {fuel : Nat}
    (enough : (separated texts).length < fuel) (rest : Bytes) :
    readMembers fuel (separated texts ++ 125 :: rest) = Option.some (members, rest) := by
  induction spell generalizing fuel with
  | nil => exact absurd rfl some
  | @cons text member texts members spells others ih =>
    obtain ⟨fuel, rfl⟩ : ∃ less, fuel = less + 1 := ⟨fuel - 1, by omega⟩
    obtain ⟨keyText, valueText, rfl, isKey, isValue⟩ := spells
    cases others with
    | nil =>
      simp only [separated, List.length_cons, List.length_append] at enough
      have key := isKey fuel (58 :: (valueText ++ 125 :: rest)) (by omega)
      have read := isValue fuel (125 :: rest) (by omega) rfl
      simp only [separated, List.cons_append, List.append_assoc]
      rw [readMembers]
      simp only [key, read, Option.bind_eq_bind, Option.bind_some]
    | @cons next member' texts members' nextSpells others =>
      simp only [separated, List.length_append, List.length_cons] at enough
      have key := isKey fuel (58 :: (valueText ++ 44 :: (separated (next :: texts) ++ 125 :: rest))) (by omega)
      have read := isValue fuel (44 :: (separated (next :: texts) ++ 125 :: rest)) (by omega) rfl
      have onward := ih (List.cons_ne_nil _ _) (by omega : (separated (next :: texts)).length < fuel)
      simp only [separated, List.cons_append, List.append_assoc]
      rw [readMembers]
      simp only [key, read, onward, Option.bind_eq_bind, Option.bind_some]

theorem spells_object {texts : List Bytes} {members : List (Bytes × Json)}
    (spell : List.Forall₂ SpellsMember texts members) (some : texts ≠ []) :
    Spells (123 :: (separated texts ++ [125])) (.object members) := by
  intro fuel rest enough _
  obtain ⟨fuel, rfl⟩ : ∃ less, fuel = less + 1 := ⟨fuel - 1, by simp at enough; omega⟩
  have read := @readMembers_separated _ _ spell some fuel (by simp at enough; omega) rest
  have head : (separated texts ++ 125 :: rest).head? ≠ Option.some 125 := by
    cases spell with
    | nil => exact absurd rfl some
    | @cons text member texts members spells others =>
      obtain ⟨keyText, valueText, rfl, -⟩ := spells
      cases texts <;> simp [separated]
  rw [List.cons_append, List.append_assoc, List.singleton_append, readValue]
  simp only [head, read, if_false]
  rfl

end Json

end FlintDB.Lib
