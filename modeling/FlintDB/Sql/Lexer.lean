import FlintDB.Lib.LittleEndian
import FlintDB.Lib.TextReader
import FlintDB.Lib.Descent

set_option autoImplicit false

-- The source text is a sequence of bytes. What is kept of it as a name is a string of the characters with the bytes'
-- numbers, which for an identifier are its letters.

namespace FlintDB

open Lib

inductive TokenType
  | kCreate
  | kTable
  | kIndex
  | kOn
  | kInteger
  | kText
  | kPrimary
  | kKey
  | kInsert
  | kInto
  | kValues
  | kSelect
  | kFrom
  | kJoin
  | kWhere
  | kAnd
  | kUpdate
  | kSet
  | kDelete
  | kBegin
  | kCommit
  | kRollback
  | kIdentifier
  | kIntegerLiteral
  | kStringLiteral
  | kLParen
  | kRParen
  | kComma
  | kDot
  | kStar
  | kEq
  | kNeq
  | kLt
  | kLe
  | kGt
  | kGe
  | kSemicolon
  | kEndOfInput
  deriving DecidableEq, Repr

def tokenTypeName : TokenType → String
  | .kCreate => "CREATE"
  | .kTable => "TABLE"
  | .kIndex => "INDEX"
  | .kOn => "ON"
  | .kInteger => "INTEGER"
  | .kText => "TEXT"
  | .kPrimary => "PRIMARY"
  | .kKey => "KEY"
  | .kInsert => "INSERT"
  | .kInto => "INTO"
  | .kValues => "VALUES"
  | .kSelect => "SELECT"
  | .kFrom => "FROM"
  | .kJoin => "JOIN"
  | .kWhere => "WHERE"
  | .kAnd => "AND"
  | .kUpdate => "UPDATE"
  | .kSet => "SET"
  | .kDelete => "DELETE"
  | .kBegin => "BEGIN"
  | .kCommit => "COMMIT"
  | .kRollback => "ROLLBACK"
  | .kIdentifier => "IDENTIFIER"
  | .kIntegerLiteral => "INTEGER_LITERAL"
  | .kStringLiteral => "STRING_LITERAL"
  | .kLParen => "'('"
  | .kRParen => "')'"
  | .kComma => "','"
  | .kDot => "'.'"
  | .kStar => "'*'"
  | .kEq => "'='"
  | .kNeq => "'!='"
  | .kLt => "'<'"
  | .kLe => "'<='"
  | .kGt => "'>'"
  | .kGe => "'>='"
  | .kSemicolon => "';'"
  | .kEndOfInput => "end of input"

-- What Tokenize and Parse can end with instead of returning.
inductive ParseException
  | sqlSyntaxError (message : String) (position : Nat)
  -- std::invalid_argument and std::out_of_range, as std::stoll throws them
  | invalidArgument
  | outOfRange
  -- tokens_[pos_] with pos_ past the last token
  | undefined
  deriving DecidableEq

structure Token where
  type : TokenType
  text : Bytes := []
  intValue : Int64 := 0
  position : Nat := 0
  deriving DecidableEq

-- What the grammar is written in.
inductive Terminal
  -- a keyword, punctuation, a comparator or the end of the input
  | symbol (type : TokenType)
  | identifier (name : String)
  | integerLiteral (value : Int64)
  | stringLiteral (value : Bytes)
  deriving DecidableEq

def bytesOf (text : String) : Bytes := text.toList.map Char.toUInt8

def asString (bytes : Bytes) : String := String.ofList (bytes.map Char.ofUInt8)

def Token.terminal (token : Token) : Terminal :=
  match token.type with
  | .kIdentifier => .identifier (asString token.text)
  | .kIntegerLiteral => .integerLiteral token.intValue
  | .kStringLiteral => .stringLiteral token.text
  | type => .symbol type

def sqlAlphabet : Alphabet Token Terminal ParseException where
  view := Token.terminal
  ending := .symbol .kEndOfInput
  Complains := fun e => ∃ message position, e = .sqlSyntaxError message position

theorem Token.terminal_ending {token : Token} :
    token.terminal = .symbol .kEndOfInput ↔ token.type = .kEndOfInput := by
  rcases token with ⟨type, text, intValue, position⟩
  cases type <;> simp [Token.terminal]

def isUpper (c : UInt8) : Bool := 65 ≤ c && c ≤ 90

def isLower (c : UInt8) : Bool := 97 ≤ c && c ≤ 122

def isDigit (c : UInt8) : Bool := 48 ≤ c && c ≤ 57

def isIdentStart (c : UInt8) : Bool := isUpper c || isLower c || c == 95

def isIdentCont (c : UInt8) : Bool := isUpper c || isLower c || isDigit c || c == 95

def isWhitespace (c : UInt8) : Bool := c == 32 || c == 9 || c == 10 || c == 13

def toUpper (word : Bytes) : Bytes := word.map fun c => if isLower c then c - 32 else c

def keywordTable : List (String × TokenType) :=
  [("CREATE", .kCreate), ("TABLE", .kTable), ("INDEX", .kIndex), ("ON", .kOn), ("INTEGER", .kInteger),
    ("TEXT", .kText), ("PRIMARY", .kPrimary), ("KEY", .kKey), ("INSERT", .kInsert), ("INTO", .kInto),
    ("VALUES", .kValues), ("SELECT", .kSelect), ("FROM", .kFrom), ("JOIN", .kJoin), ("WHERE", .kWhere),
    ("AND", .kAnd), ("UPDATE", .kUpdate), ("SET", .kSet), ("DELETE", .kDelete), ("BEGIN", .kBegin),
    ("COMMIT", .kCommit), ("ROLLBACK", .kRollback)]

def findKeyword (word : Bytes) : Option TokenType :=
  (keywordTable.find? fun entry => bytesOf entry.1 = toUpper word).map Prod.snd

def wordToken (word : Bytes) (start : Nat) : Token :=
  match findKeyword word with
  | some keyword => ⟨keyword, word, 0, start⟩
  | none => ⟨.kIdentifier, word, 0, start⟩

def digitsValue (digits : Bytes) : Nat := digits.foldl (fun value digit => 10 * value + (digit.toNat - 48)) 0

def numberDigits (number : Bytes) : Bytes :=
  (if number.head? = some 45 then number.tail else number).takeWhile isDigit

def numberValue (number : Bytes) : Int :=
  if number.head? = some 45 then -digitsValue (numberDigits number) else digitsValue (numberDigits number)

-- std::stoll of a number whose only sign can be a minus.
def stoll (number : Bytes) : Except ParseException Int64 :=
  if numberDigits number = [] then .error .invalidArgument
  else if -2 ^ 63 ≤ numberValue number ∧ numberValue number < 2 ^ 63 then .ok (Int64.ofInt (numberValue number))
  else .error .outOfRange

def integerToken (number : Bytes) (start : Nat) : Except ParseException Token :=
  match stoll number with
  | .ok value => .ok ⟨.kIntegerLiteral, number, value, start⟩
  | .error .outOfRange =>
    .error (.sqlSyntaxError ("integer literal '" ++ asString number ++ "' is out of range") start)
  | .error e => .error e

def stringBody : Bytes → Option (Bytes × Bytes)
  | [] => none
  | 39 :: 39 :: rest => (stringBody rest).map fun (value, behind) => (39 :: value, behind)
  | 39 :: rest => some ([], rest)
  | c :: rest => (stringBody rest).map fun (value, behind) => (c :: value, behind)

def punctuation (c : UInt8) : Option TokenType :=
  match c with
  | 40 => some .kLParen
  | 41 => some .kRParen
  | 44 => some .kComma
  | 46 => some .kDot
  | 42 => some .kStar
  | 59 => some .kSemicolon
  | _ => none

def comparatorToken (start : Nat) (c : UInt8) (rest : Bytes) : Except ParseException (Token × Bytes) :=
  match c, rest with
  | 61, rest => .ok (⟨.kEq, [61], 0, start⟩, rest)
  | 33, 61 :: rest => .ok (⟨.kNeq, [33, 61], 0, start⟩, rest)
  | 33, _ => .error (.sqlSyntaxError "unexpected character '!' (did you mean '!='?)" start)
  | 60, 61 :: rest => .ok (⟨.kLe, [60, 61], 0, start⟩, rest)
  | 60, rest => .ok (⟨.kLt, [60], 0, start⟩, rest)
  | 62, 61 :: rest => .ok (⟨.kGe, [62, 61], 0, start⟩, rest)
  | 62, rest => .ok (⟨.kGt, [62], 0, start⟩, rest)
  | c, _ => .error (.sqlSyntaxError ("unrecognized character '" ++ asString [c] ++ "'") start)

def nextToken (start : Nat) (c : UInt8) (rest : Bytes) : Except ParseException (Token × Bytes) :=
  if isIdentStart c then
    .ok (wordToken (c :: rest.takeWhile isIdentCont) start, rest.dropWhile isIdentCont)
  else if isDigit c || (c == 45 && rest.head?.any isDigit) then do
    let token ← integerToken (c :: rest.takeWhile isDigit) start
    return (token, rest.dropWhile isDigit)
  else if c = 39 then
    match stringBody rest with
    | some (value, behind) => .ok (⟨.kStringLiteral, value, 0, start⟩, behind)
    | none => .error (.sqlSyntaxError "unterminated string literal starting here" start)
  else
    match punctuation c with
    | some type => .ok (⟨type, [c], 0, start⟩, rest)
    | none => comparatorToken start c rest

def tokenizeRounds : Nat → Nat → Bytes → Except ParseException (List Token)
  | rounds + 1, pos, c :: rest =>
    if isWhitespace c then tokenizeRounds rounds (pos + 1) rest
    else do
      let (token, behind) ← nextToken pos c rest
      return token :: (← tokenizeRounds rounds (pos + (rest.length + 1 - behind.length)) behind)
  | _, pos, _ => .ok [⟨.kEndOfInput, [], 0, pos⟩]

-- The loop from `pos` on. A round moves by a byte at least.
def tokenizeFrom (pos : Nat) (rest : Bytes) : Except ParseException (List Token) :=
  tokenizeRounds rest.length pos rest

def tokenize (sql : Bytes) : Except ParseException (List Token) := tokenizeFrom 0 sql

example : (tokenize (bytesOf "select a<=-12, 'it''s'")).map (List.map Token.type) =
    .ok [.kSelect, .kIdentifier, .kLe, .kIntegerLiteral, .kComma, .kStringLiteral, .kEndOfInput] := by
  decide

theorem stringBody_shorter {rest value behind : Bytes} (found : stringBody rest = some (value, behind)) :
    behind.length ≤ rest.length := by
  fun_induction stringBody rest generalizing value with
  | case1 => cases found
  | case2 rest ih =>
    obtain ⟨⟨inner, left⟩, cut, same⟩ := Option.map_eq_some_iff.mp found
    cases same
    have := ih cut
    simp only [List.length_cons]
    omega
  | case3 rest =>
    cases found
    simp
  | case4 c rest _ _ ih =>
    obtain ⟨⟨inner, left⟩, cut, same⟩ := Option.map_eq_some_iff.mp found
    cases same
    exact Nat.le_succ_of_le (ih cut)

theorem numberDigits_ne {c : UInt8} {rest : Bytes}
    (digits : (isDigit c || (c == 45 && rest.head?.any isDigit)) = true) :
    numberDigits (c :: rest.takeWhile isDigit) ≠ [] := by
  by_cases signed : c = 45
  · subst signed
    cases rest with
    | nil => cases digits
    | cons d rest =>
      have digit : isDigit d = true := digits
      simp [numberDigits, digit]
  · have digit : isDigit c = true := by simpa [signed] using digits
    simp [numberDigits, signed, digit]

structure Lexes (rest : Bytes) (outcome : Except ParseException (Token × Bytes)) : Prop where
  moves : ∀ token behind, outcome = .ok (token, behind) → behind.length ≤ rest.length
  inside : ∀ token behind, outcome = .ok (token, behind) → token.type ≠ .kEndOfInput
  complains : ∀ e, outcome = .error e → sqlAlphabet.Complains e

theorem Lexes.ok {rest behind : Bytes} {token : Token} (shorter : behind.length ≤ rest.length)
    (type : token.type ≠ .kEndOfInput) : Lexes rest (.ok (token, behind)) where
  moves := by
    rintro _ _ ⟨⟩
    exact shorter
  inside := by
    rintro _ _ ⟨⟩
    exact type
  complains := by rintro _ ⟨⟩

theorem Lexes.error {rest : Bytes} (message : String) (position : Nat) :
    Lexes rest (.error (.sqlSyntaxError message position)) where
  moves := by rintro _ _ ⟨⟩
  inside := by rintro _ _ ⟨⟩
  complains := by
    rintro _ ⟨⟩
    exact ⟨message, position, rfl⟩

theorem findKeyword_mem {word : Bytes} {keyword : TokenType} (found : findKeyword word = some keyword) :
    keyword ∈ keywordTable.map Prod.snd := by
  obtain ⟨entry, hit, rfl⟩ := Option.map_eq_some_iff.mp found
  exact List.mem_map_of_mem (List.mem_of_find?_eq_some hit)

theorem wordToken_type (word : Bytes) (start : Nat) :
    (wordToken word start).type ∈ keywordTable.map Prod.snd ∨ (wordToken word start).type = .kIdentifier := by
  rw [wordToken]
  split
  · exact .inl (findKeyword_mem ‹_›)
  · exact .inr rfl

theorem wordToken_lexes (c : UInt8) (rest : Bytes) (start : Nat) :
    Lexes rest (.ok (wordToken (c :: rest.takeWhile isIdentCont) start, rest.dropWhile isIdentCont)) := by
  apply Lexes.ok ((List.dropWhile_suffix _).length_le)
  rcases wordToken_type (c :: rest.takeWhile isIdentCont) start with keyword | identifier
  · intro ends
    rw [ends] at keyword
    revert keyword
    decide
  · rw [identifier]
    decide

theorem integerToken_lexes {c : UInt8} {rest : Bytes} (start : Nat)
    (digits : (isDigit c || (c == 45 && rest.head?.any isDigit)) = true) :
    Lexes rest (do
      let token ← integerToken (c :: rest.takeWhile isDigit) start
      return (token, rest.dropWhile isDigit)) := by
  by_cases fits : -2 ^ 63 ≤ numberValue (c :: rest.takeWhile isDigit) ∧
      numberValue (c :: rest.takeWhile isDigit) < 2 ^ 63
  · rw [integerToken, stoll, if_neg (numberDigits_ne digits), if_pos fits]
    exact Lexes.ok (List.dropWhile_suffix _).length_le (by simp)
  · rw [integerToken, stoll, if_neg (numberDigits_ne digits), if_neg fits]
    exact Lexes.error _ start

theorem comparatorToken_lexes (start : Nat) (c : UInt8) (rest : Bytes) :
    Lexes rest (comparatorToken start c rest) := by
  fun_cases comparatorToken start c rest
  case case3 | case8 => exact Lexes.error _ start
  all_goals exact Lexes.ok (by simp) (by simp)

theorem punctuation_inside (c : UInt8) : punctuation c ≠ some .kEndOfInput := by
  fun_cases punctuation c <;> simp

theorem nextToken_lexes (start : Nat) (c : UInt8) (rest : Bytes) : Lexes rest (nextToken start c rest) := by
  rw [nextToken]
  split
  · exact wordToken_lexes c rest start
  split
  · exact integerToken_lexes start ‹_›
  split
  · cases body : stringBody rest with
    | none => exact Lexes.error _ start
    | some cut => exact Lexes.ok (stringBody_shorter body) (by simp)
  cases mark : punctuation c with
  | none => exact comparatorToken_lexes start c rest
  | some type =>
    apply Lexes.ok (Nat.le_refl _)
    rintro rfl
    exact punctuation_inside c mark

theorem tokenizeRounds_enough {rounds others : Nat} (pos : Nat) {rest : Bytes} (enough : rest.length ≤ rounds)
    (alsoEnough : rest.length ≤ others) : tokenizeRounds rounds pos rest = tokenizeRounds others pos rest := by
  induction rounds generalizing others pos rest with
  | zero =>
    obtain rfl := List.length_eq_zero_iff.mp (Nat.le_zero.mp enough)
    cases others <;> rfl
  | succ rounds ih =>
    match rest, others with
    | [], 0 => rfl
    | [], others + 1 => rfl
    | c :: rest, others + 1 =>
      have enough : rest.length ≤ rounds := Nat.le_of_succ_le_succ enough
      have alsoEnough : rest.length ≤ others := Nat.le_of_succ_le_succ alsoEnough
      rw [tokenizeRounds, tokenizeRounds]
      split
      · exact ih _ enough alsoEnough
      cases lexed : nextToken pos c rest with
      | error e => rfl
      | ok cut =>
        have shorter := (nextToken_lexes pos c rest).moves _ _ lexed
        simp only [bind, Except.bind]
        rw [ih _ (shorter.trans enough) (shorter.trans alsoEnough)]

theorem tokenizeFrom_space {c : UInt8} (pos : Nat) (rest : Bytes) (space : isWhitespace c = true) :
    tokenizeFrom pos (c :: rest) = tokenizeFrom (pos + 1) rest := by
  rw [tokenizeFrom, List.length_cons, tokenizeRounds, if_pos space, tokenizeFrom]

theorem tokenizeFrom_token {c : UInt8} (pos : Nat) (rest : Bytes) (text : isWhitespace c = false) :
    tokenizeFrom pos (c :: rest) = (do
      let (token, behind) ← nextToken pos c rest
      return token :: (← tokenizeFrom (pos + (rest.length + 1 - behind.length)) behind)) := by
  rw [tokenizeFrom, List.length_cons, tokenizeRounds, text]
  cases lexed : nextToken pos c rest with
  | error e => rfl
  | ok cut =>
    have shorter := (nextToken_lexes pos c rest).moves _ _ lexed
    simp only [Bool.false_eq_true, if_false, bind, Except.bind, tokenizeFrom]
    rw [tokenizeRounds_enough _ shorter (Nat.le_refl _)]

theorem tokenizeFrom_rule {P : Nat → Except ParseException (List Token) → Prop}
    (ends : ∀ pos, P pos (.ok [⟨.kEndOfInput, [], 0, pos⟩]))
    (skips : ∀ pos outcome, P (pos + 1) outcome → P pos outcome)
    (complains : ∀ start c rest e, nextToken start c rest = .error e → P start (.error e))
    (fails : ∀ start next e, P next (.error e) → P start (.error e))
    (lexes : ∀ start next c rest token behind tokens, nextToken start c rest = .ok (token, behind) → start < next →
      P next (.ok tokens) → P start (.ok (token :: tokens)))
    (pos : Nat) (rest : Bytes) : P pos (tokenizeFrom pos rest) := by
  -- on the bytes left: a round leaves fewer
  induction left : rest.length using Nat.strong_induction_on generalizing pos rest with
  | _ length ih =>
    subst left
    cases rest with
    | nil => exact ends pos
    | cons c rest =>
      cases space : isWhitespace c with
      | true =>
        rw [tokenizeFrom_space pos rest space]
        exact skips pos _ (ih rest.length (by simp) (pos + 1) rest rfl)
      | false =>
        rw [tokenizeFrom_token pos rest space]
        cases lexed : nextToken pos c rest with
        | error e => exact complains pos c rest e lexed
        | ok cut =>
          have shorter := (nextToken_lexes pos c rest).moves _ _ lexed
          have behind := ih cut.2.length (Nat.lt_succ_of_le shorter) (pos + (rest.length + 1 - cut.2.length)) cut.2 rfl
          simp only [bind, Except.bind]
          cases read : tokenizeFrom (pos + (rest.length + 1 - cut.2.length)) cut.2 with
          | error e =>
            rw [read] at behind
            exact fails _ _ e behind
          | ok tokens =>
            rw [read] at behind
            exact lexes pos _ c rest cut.1 cut.2 tokens lexed (by omega) behind

theorem tokenizeFrom_outcome {P : Except ParseException (List Token) → Prop}
    (ends : ∀ pos, P (.ok [⟨.kEndOfInput, [], 0, pos⟩]))
    (complains : ∀ start c rest e, nextToken start c rest = .error e → P (.error e))
    (lexes : ∀ start c rest token behind tokens, nextToken start c rest = .ok (token, behind) →
      P (.ok tokens) → P (.ok (token :: tokens)))
    (pos : Nat) (rest : Bytes) : P (tokenizeFrom pos rest) :=
  tokenizeFrom_rule (P := fun _ => P) ends (fun _ _ earlier => earlier) complains (fun _ _ _ earlier => earlier)
    (fun start _ c rest token behind tokens lexed _ => lexes start c rest token behind tokens lexed) pos rest

theorem tokenize_ends {sql : Bytes} {tokens : List Token} (lexed : tokenize sql = .ok tokens) :
    sqlAlphabet.Terminated tokens := by
  refine tokenizeFrom_outcome (P := fun outcome => ∀ tokens, outcome = .ok tokens → sqlAlphabet.Terminated tokens)
    ?_ ?_ ?_ 0 sql tokens lexed
  · rintro pos _ ⟨⟩
    exact Alphabet.Terminated.singleton rfl
  · rintro start c rest e - _ ⟨⟩
  · rintro start c rest token behind tokens lexed ends _ ⟨⟩
    have inside := (nextToken_lexes start c rest).inside _ _ lexed
    exact Alphabet.Terminated.cons (mt Token.terminal_ending.mp inside) (ends tokens rfl)

theorem tokenize_throws {sql : Bytes} {e : ParseException} (thrown : tokenize sql = .error e) :
    sqlAlphabet.Complains e := by
  refine tokenizeFrom_outcome (P := fun outcome => ∀ e, outcome = .error e → sqlAlphabet.Complains e)
    ?_ ?_ ?_ 0 sql e thrown
  · rintro pos _ ⟨⟩
  · rintro start c rest e complaint _ ⟨⟩
    exact (nextToken_lexes start c rest).complains e complaint
  · rintro start c rest token behind tokens - - _ ⟨⟩

@[simp] theorem bytesOf_asString (bytes : Bytes) : bytesOf (asString bytes) = bytes := by
  have same : ∀ c : UInt8, (Char.toUInt8 ∘ Char.ofUInt8) c = c := UInt8.toUInt8_toUInt32
  rw [bytesOf, asString, String.toList_ofList, List.map_map]
  exact List.map_id'' same bytes

def isWord : Bytes → Bool
  | [] => false
  | c :: rest => isIdentStart c && rest.all isIdentCont

/-- A name that the lexer can produce: a word of letters, digits and underscores that is no keyword. -/
def IsIdentifier (name : String) : Prop :=
  asString (bytesOf name) = name ∧ isWord (bytesOf name) = true ∧ findKeyword (bytesOf name) = none

instance (name : String) : Decidable (IsIdentifier name) := inferInstanceAs (Decidable (_ ∧ _ ∧ _))

theorem isIdentifier_asString {word : Bytes} (isWord : isWord word = true) (name : findKeyword word = none) :
    IsIdentifier (asString word) := by
  refine ⟨?_, ?_, ?_⟩ <;> rw [bytesOf_asString]
  · exact isWord
  · exact name

theorem not_keyword_identifier : .kIdentifier ∉ keywordTable.map Prod.snd := by decide

theorem wordToken_identifier {word : Bytes} {start : Nat} (type : (wordToken word start).type = .kIdentifier) :
    findKeyword word = none ∧ (wordToken word start).text = word := by
  cases found : findKeyword word with
  | none => exact ⟨rfl, by simp [wordToken, found]⟩
  | some keyword =>
    have type : keyword = .kIdentifier := by simpa [wordToken, found] using type
    exact absurd (type ▸ findKeyword_mem found) not_keyword_identifier

theorem nextToken_identifier {start : Nat} {c : UInt8} {rest behind : Bytes} {token : Token}
    (lexed : nextToken start c rest = .ok (token, behind)) (type : token.type = .kIdentifier) :
    IsIdentifier (asString token.text) := by
  rw [nextToken] at lexed
  split at lexed
  · rename_i starts
    cases lexed
    obtain ⟨noKeyword, text⟩ := wordToken_identifier type
    rw [text]
    exact isIdentifier_asString (by simp [isWord, starts, List.all_takeWhile]) noKeyword
  exfalso
  split at lexed
  · rw [integerToken] at lexed
    split at lexed <;> cases lexed
    cases type
  split at lexed
  · split at lexed <;> cases lexed
    cases type
  split at lexed
  · rename_i mark
    cases lexed
    fun_cases punctuation c <;> simp_all [punctuation]
  · fun_cases comparatorToken start c rest <;> simp_all [comparatorToken]
    all_goals grind

theorem not_whitespace_of_isIdentStart {c : UInt8} (starts : isIdentStart c = true) : isWhitespace c = false := by
  simp only [isIdentStart, isUpper, isLower, isWhitespace, Bool.or_eq_true, Bool.and_eq_true, decide_eq_true_eq,
    beq_iff_eq, UInt8.le_iff_toNat_le, ← UInt8.toNat_inj, Bool.or_eq_false_iff, beq_eq_false_iff_ne, ne_eq] at starts ⊢
  simp only [UInt8.reduceToNat] at starts ⊢
  omega

theorem nextToken_word {c : UInt8} {word rest : Bytes} (start : Nat) (isWord : isWord (c :: word) = true)
    (stops : rest.head?.all fun c => !isIdentCont c) :
    nextToken start c (word ++ rest) = .ok (wordToken (c :: word) start, rest) := by
  obtain ⟨starts, continues⟩ := Bool.and_eq_true_iff.mp isWord
  obtain ⟨taken, left⟩ := takeWhile_run (List.all_eq_true.mp continues) stops
  rw [nextToken, if_pos starts, taken, left]

theorem isIdentifier_iff {name : String} :
    IsIdentifier name ↔ ∃ sql tokens, tokenize sql = .ok tokens ∧
      ∃ token ∈ tokens, token.type = .kIdentifier ∧ asString token.text = name := by
  constructor
  · rintro ⟨same, word, noKeyword⟩
    cases bytes : bytesOf name with
    | nil => simp [bytes, isWord] at word
    | cons c rest =>
      rw [bytes] at same word noKeyword
      have text := not_whitespace_of_isIdentStart (Bool.and_eq_true_iff.mp word).1
      have lexed : nextToken 0 c (rest ++ []) = _ := nextToken_word 0 word rfl
      rw [List.append_nil] at lexed
      refine ⟨c :: rest, _, by rw [tokenize, tokenizeFrom_token 0 rest text, lexed]; rfl,
        wordToken (c :: rest) 0, List.mem_cons_self, ?_, ?_⟩
      · simp [wordToken, noKeyword]
      · simpa [wordToken, noKeyword] using same
  · rintro ⟨sql, tokens, lexed, token, member, type, rfl⟩
    refine tokenizeFrom_outcome (P := fun outcome => ∀ tokens, outcome = .ok tokens → ∀ token ∈ tokens,
      token.type = .kIdentifier → IsIdentifier (asString token.text)) ?_ ?_ ?_ 0 sql tokens lexed token member type
    · rintro pos _ ⟨⟩ token member type
      rw [List.mem_singleton.mp member] at type
      cases type
    · rintro start c rest e - _ ⟨⟩
    · rintro start c rest token behind tokens lexed earlier _ ⟨⟩ other member type
      rcases List.mem_cons.mp member with rfl | later
      · exact nextToken_identifier lexed type
      · exact earlier tokens rfl other later type

end FlintDB
