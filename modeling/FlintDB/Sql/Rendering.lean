import FlintDB.Sql.Lexer

set_option autoImplicit false

-- A token can be written in more than one way: a keyword in any mix of upper and lower case, an integer with leading
-- zeros. A lexeme is one of these ways. With white space between its lexemes a text is cut into their tokens.

namespace FlintDB

open Lib

def symbolText : TokenType → Bytes
  | .kLParen => [40]
  | .kRParen => [41]
  | .kComma => [44]
  | .kDot => [46]
  | .kStar => [42]
  | .kEq => [61]
  | .kNeq => [33, 61]
  | .kLt => [60]
  | .kLe => [60, 61]
  | .kGt => [62]
  | .kGe => [62, 61]
  | .kSemicolon => [59]
  | keyword => bytesOf (tokenTypeName keyword)

/-- A text with each of its quotes doubled. -/
def doubleQuotes (text : Bytes) : Bytes := text.flatMap fun c => if c = 39 then [39, 39] else [c]

def TokenType.isKeyword (type : TokenType) : Bool := type ∈ keywordTable.map Prod.snd

-- Punctuation and comparators.
def TokenType.isMark : TokenType → Bool
  | .kLParen | .kRParen | .kComma | .kDot | .kStar | .kSemicolon => true
  | .kEq | .kNeq | .kLt | .kLe | .kGt | .kGe => true
  | _ => false

inductive Lexeme
  | keyword (type : TokenType) (spelling : Bytes)
  | identifier (name : Bytes)
  | integerLiteral (negative : Bool) (digits : Bytes)
  | stringLiteral (value : Bytes)
  | mark (type : TokenType)

namespace Lexeme

def text : Lexeme → Bytes
  | keyword _ spelling => spelling
  | identifier name => name
  | integerLiteral negative digits => if negative then 45 :: digits else digits
  | stringLiteral value => 39 :: (doubleQuotes value ++ [39])
  | mark type => symbolText type

def Valid : Lexeme → Prop
  | keyword type spelling => type.isKeyword = true ∧ toUpper spelling = bytesOf (tokenTypeName type)
  | identifier name => isWord name = true ∧
      ∀ type : TokenType, type.isKeyword = true → toUpper name ≠ bytesOf (tokenTypeName type)
  | integerLiteral _ digits => digits ≠ [] ∧ ∀ digit ∈ digits, isDigit digit = true
  | stringLiteral _ => True
  | mark type => type.isMark = true

def integerValue (negative : Bool) (digits : Bytes) : Int :=
  if negative then -digitsValue digits else digitsValue digits

def InRange : Lexeme → Prop
  | integerLiteral negative digits => -2 ^ 63 ≤ integerValue negative digits ∧ integerValue negative digits < 2 ^ 63
  | _ => True

-- The token that a lexeme at `start` stands for.
def token (start : Nat) : Lexeme → Token
  | keyword type spelling => ⟨type, spelling, 0, start⟩
  | identifier name => ⟨.kIdentifier, name, 0, start⟩
  | integerLiteral negative digits =>
    ⟨.kIntegerLiteral, (integerLiteral negative digits).text, Int64.ofInt (integerValue negative digits), start⟩
  | stringLiteral value => ⟨.kStringLiteral, value, 0, start⟩
  | mark type => ⟨type, symbolText type, 0, start⟩

end Lexeme

def Stops (behind : Bytes) : Prop := behind.head?.all isWhitespace = true

theorem stops_nil : Stops [] := rfl

theorem stops_cons {c : UInt8} (rest : Bytes) (space : isWhitespace c = true) : Stops (c :: rest) := space

theorem Stops.cases {behind : Bytes} (stops : Stops behind) :
    behind = [] ∨ ∃ c rest, behind = c :: rest ∧ (c = 32 ∨ c = 9 ∨ c = 10 ∨ c = 13) := by
  cases behind with
  | nil => exact .inl rfl
  | cons c rest =>
    have space : isWhitespace c = true := stops
    simp only [isWhitespace, Bool.or_eq_true, beq_iff_eq, or_assoc] at space
    exact .inr ⟨c, rest, rfl, space⟩

theorem Stops.outside {behind : Bytes} (stops : Stops behind) :
    (behind.head?.all fun c => !isIdentCont c) = true ∧ (behind.head?.all fun c => !isDigit c) = true := by
  rcases stops.cases with rfl | ⟨c, rest, rfl, rfl | rfl | rfl | rfl⟩
  · exact ⟨rfl, rfl⟩
  all_goals exact ⟨rfl, rfl⟩

theorem of_isDigit {c : UInt8} (digit : isDigit c = true) :
    isIdentStart c = false ∧ isWhitespace c = false ∧ c ≠ 45 := by
  simp only [isDigit, Bool.and_eq_true, decide_eq_true_eq, UInt8.le_iff_toNat_le, UInt8.reduceToNat] at digit
  simp only [isIdentStart, isUpper, isLower, isWhitespace, Bool.or_eq_false_iff, Bool.and_eq_false_iff,
    decide_eq_false_iff_not, beq_eq_false_iff_ne, ne_eq, UInt8.le_iff_toNat_le, ← UInt8.toNat_inj, UInt8.reduceToNat]
  omega

theorem findKeyword_of_upper {type : TokenType} {word : Bytes} (isKeyword : type.isKeyword = true)
    (spelled : toUpper word = bytesOf (tokenTypeName type)) : findKeyword word = some type := by
  rw [findKeyword, spelled]
  cases type <;> first | rfl | cases isKeyword

theorem findKeyword_none {word : Bytes}
    (other : ∀ type : TokenType, type.isKeyword = true → toUpper word ≠ bytesOf (tokenTypeName type)) :
    findKeyword word = none := by
  have names : ∀ entry ∈ keywordTable, entry.1 = tokenTypeName entry.2 ∧ entry.2.isKeyword = true := by decide
  rw [findKeyword, Option.map_eq_none_iff, List.find?_eq_none]
  intro entry member
  obtain ⟨name, isKeyword⟩ := names entry member
  rw [decide_eq_true_eq, name]
  exact (other entry.2 isKeyword).symm

theorem isWord_of_upper {word : Bytes} (some : word ≠ []) (upper : ∀ c ∈ toUpper word, isUpper c = true) :
    isWord word = true := by
  have letters : ∀ c ∈ word, isUpper c = true ∨ isLower c = true := by
    intro c member
    have here := upper _ (List.mem_map_of_mem member)
    cases low : isLower c with
    | true => exact .inr rfl
    | false => exact .inl (by simpa [low] using here)
  cases word with
  | nil => exact absurd rfl some
  | cons c rest =>
    rw [List.forall_mem_cons] at letters
    simp only [isWord, Bool.and_eq_true, List.all_eq_true]
    refine ⟨?_, fun d member => ?_⟩
    · rcases letters.1 with upper | lower
      · simp [isIdentStart, upper]
      · simp [isIdentStart, lower]
    · rcases letters.2 d member with upper | lower
      · simp [isIdentCont, upper]
      · simp [isIdentCont, lower]

theorem isWord_keyword {type : TokenType} {spelling : Bytes} (isKeyword : type.isKeyword = true)
    (spelled : toUpper spelling = bytesOf (tokenTypeName type)) : isWord spelling = true := by
  have named : (bytesOf (tokenTypeName type)).isEmpty = false := by
    cases type <;> rfl
  have letters : (bytesOf (tokenTypeName type)).all isUpper = true := by
    cases type <;> first | rfl | cases isKeyword
  refine isWord_of_upper ?_ (by rw [spelled]; exact List.all_eq_true.mp letters)
  rintro rfl
  rw [← spelled] at named
  cases named

theorem stringBody_cons (c : UInt8) (value rest : Bytes) :
    stringBody (doubleQuotes (c :: value) ++ rest) =
      (stringBody (doubleQuotes value ++ rest)).map fun (value, behind) => (c :: value, behind) := by
  have split : doubleQuotes (c :: value) = (if c = 39 then [39, 39] else [c]) ++ doubleQuotes value :=
    List.flatMap_cons
  rw [split, List.append_assoc]
  by_cases quote : c = 39
  · subst quote
    rfl
  · rw [if_neg quote, List.singleton_append, stringBody]
    · intro more other
      exact absurd other quote
    · exact quote

theorem stringBody_doubleQuotes (value : Bytes) {rest : Bytes} (closed : rest.head? ≠ some 39) :
    stringBody (doubleQuotes value ++ 39 :: rest) = some (value, rest) := by
  induction value with
  | nil =>
    cases rest with
    | nil => rfl
    | cons c rest =>
      show stringBody (39 :: c :: rest) = _
      rw [stringBody]
      rintro more ⟨⟩
      exact closed rfl
  | cons c value ih => rw [stringBody_cons, ih, Option.map_some]

theorem stringBody_unterminated (value : Bytes) : stringBody (doubleQuotes value) = none := by
  induction value with
  | nil => rfl
  | cons c value ih =>
    have body := stringBody_cons c value []
    rwa [List.append_nil, List.append_nil, ih, Option.map_none] at body

namespace Lexeme

def Lexes (lexeme : Lexeme) (start : Nat) (behind : Bytes) (outcome : Except ParseException (Token × Bytes)) : Prop :=
  ∃ c rest, lexeme.text = c :: rest ∧ isWhitespace c = false ∧ nextToken start c (rest ++ behind) = outcome

theorem lexes_word {word behind : Bytes} (start : Nat) (isWord : isWord word = true) (stops : Stops behind) :
    ∃ c rest, word = c :: rest ∧ isWhitespace c = false ∧
      nextToken start c (rest ++ behind) = .ok (wordToken word start, behind) := by
  cases word with
  | nil => cases isWord
  | cons c rest =>
    have starts := (Bool.and_eq_true_iff.mp isWord).1
    exact ⟨c, rest, rfl, not_whitespace_of_isIdentStart starts, nextToken_word start isWord stops.outside.1⟩

theorem integerLiteral_cons {negative : Bool} {digits : Bytes} (valid : (integerLiteral negative digits).Valid)
    (behind : Bytes) :
    ∃ c rest, (integerLiteral negative digits).text = c :: rest ∧ isIdentStart c = false ∧ isWhitespace c = false ∧
      (isDigit c || (c == 45 && (rest ++ behind).head?.any isDigit)) = true ∧ ∀ d ∈ rest, isDigit d = true := by
  obtain ⟨nonempty, all⟩ := valid
  cases digits with
  | nil => exact absurd rfl nonempty
  | cons d rest =>
    rw [List.forall_mem_cons] at all
    cases negative with
    | true => exact ⟨45, d :: rest, rfl, rfl, rfl, by simp [all.1], List.forall_mem_cons.mpr all⟩
    | false =>
      obtain ⟨noStart, noSpace, -⟩ := of_isDigit all.1
      exact ⟨d, rest, rfl, noStart, noSpace, by simp [all.1], all.2⟩

theorem numberDigits_text {negative : Bool} {digits : Bytes} (valid : (integerLiteral negative digits).Valid) :
    numberDigits (integerLiteral negative digits).text = digits := by
  have all : (digits ++ []).takeWhile isDigit = digits := (takeWhile_run valid.2 rfl).1
  rw [List.append_nil] at all
  cases negative with
  | true => exact all
  | false =>
    have unsigned : digits.head? ≠ some 45 := fun signed =>
      (of_isDigit (valid.2 45 (List.mem_of_head? signed))).2.2 rfl
    show numberDigits digits = digits
    rw [numberDigits, if_neg unsigned, all]

theorem numberValue_text {negative : Bool} {digits : Bytes} (valid : (integerLiteral negative digits).Valid) :
    numberValue (integerLiteral negative digits).text = integerValue negative digits := by
  rw [numberValue, numberDigits_text valid]
  cases negative with
  | true => rfl
  | false =>
    have unsigned : digits.head? ≠ some 45 := fun signed =>
      (of_isDigit (valid.2 45 (List.mem_of_head? signed))).2.2 rfl
    exact if_neg unsigned

theorem lexes_integerLiteral {negative : Bool} {digits behind : Bytes} (start : Nat)
    (valid : (integerLiteral negative digits).Valid) (stops : (behind.head?.all fun c => !isDigit c) = true) :
    (integerLiteral negative digits).Lexes start behind (do
      let token ← integerToken (integerLiteral negative digits).text start
      return (token, behind)) := by
  obtain ⟨c, rest, text, noStart, noSpace, isNumber, all⟩ := integerLiteral_cons valid behind
  obtain ⟨taken, left⟩ := takeWhile_run all stops
  refine ⟨c, rest, text, noSpace, ?_⟩
  rw [nextToken, if_neg (by simp [noStart]), if_pos isNumber, taken, left, text]

theorem stoll_text {negative : Bool} {digits : Bytes} (valid : (integerLiteral negative digits).Valid) :
    stoll (integerLiteral negative digits).text =
      if -2 ^ 63 ≤ integerValue negative digits ∧ integerValue negative digits < 2 ^ 63 then
        .ok (Int64.ofInt (integerValue negative digits))
      else .error .outOfRange := by
  rw [stoll, numberDigits_text valid, if_neg valid.1, numberValue_text valid]

theorem lexes_mark {type : TokenType} {behind : Bytes} (start : Nat) (isMark : type.isMark = true)
    (stops : Stops behind) : (mark type).Lexes start behind (.ok ((mark type).token start, behind)) := by
  -- a comparator of one character looks at what is behind it
  rcases stops.cases with rfl | ⟨c, rest, rfl, rfl | rfl | rfl | rfl⟩
  all_goals cases type <;> first | exact ⟨_, _, rfl, rfl, rfl⟩ | cases isMark

theorem lexes_stringLiteral {value behind : Bytes} (start : Nat) (stops : Stops behind) :
    (stringLiteral value).Lexes start behind (.ok ((stringLiteral value).token start, behind)) := by
  refine ⟨39, doubleQuotes value ++ [39], rfl, rfl, ?_⟩
  have closed : behind.head? ≠ some 39 := by
    rcases stops.cases with rfl | ⟨c, rest, rfl, rfl | rfl | rfl | rfl⟩
    all_goals simp
  rw [List.append_assoc, List.singleton_append, nextToken, if_neg (by decide), if_neg (by simp [isDigit]), if_pos rfl,
    stringBody_doubleQuotes value closed]
  rfl

theorem Valid.lexes {lexeme : Lexeme} {behind : Bytes} (start : Nat) (valid : lexeme.Valid) (inRange : lexeme.InRange)
    (stops : Stops behind) : lexeme.Lexes start behind (.ok (lexeme.token start, behind)) := by
  cases lexeme with
  | keyword type spelling =>
    have lexed := lexes_word start (isWord_keyword valid.1 valid.2) stops
    rwa [wordToken, findKeyword_of_upper valid.1 valid.2] at lexed
  | identifier name =>
    have lexed := lexes_word start valid.1 stops
    rwa [wordToken, findKeyword_none valid.2] at lexed
  | integerLiteral negative digits =>
    have lexed := lexes_integerLiteral start valid stops.outside.2
    have value := (stoll_text valid).trans (if_pos inRange)
    rwa [integerToken, value] at lexed
  | stringLiteral value => exact lexes_stringLiteral start stops
  | mark type => exact lexes_mark start valid stops

end Lexeme

def Blank (text : Bytes) : Prop := ∀ c ∈ text, isWhitespace c = true

/-- Lexemes, each with the white space behind it. -/
def render (items : List (Lexeme × Bytes)) : Bytes := items.flatMap fun (lexeme, gap) => lexeme.text ++ gap

/-- The tokens of a text from `pos` on, without the end of the input. -/
def tokensFrom (pos : Nat) : List (Lexeme × Bytes) → List Token
  | [] => []
  | (lexeme, gap) :: items => lexeme.token pos :: tokensFrom (pos + lexeme.text.length + gap.length) items

/-- There is white space between neighbours, and there may be some behind the last. -/
def Separated : List (Lexeme × Bytes) → Prop
  | [] => True
  | (_, gap) :: items => Blank gap ∧ (gap = [] → items = []) ∧ Separated items

theorem tokenizeFrom_blank {gap : Bytes} (blank : Blank gap) (pos : Nat) (rest : Bytes) :
    tokenizeFrom pos (gap ++ rest) = tokenizeFrom (pos + gap.length) rest := by
  induction gap generalizing pos with
  | nil => rfl
  | cons c gap ih =>
    rw [Blank, List.forall_mem_cons] at blank
    rw [List.cons_append, tokenizeFrom_space pos _ blank.1, ih blank.2, List.length_cons, Nat.add_assoc, Nat.add_comm 1]

theorem Lexeme.Lexes.round {lexeme : Lexeme} {start : Nat} {behind : Bytes} {token : Token}
    (lexes : lexeme.Lexes start behind (.ok (token, behind))) :
    tokenizeFrom start (lexeme.text ++ behind) =
      (tokenizeFrom (start + lexeme.text.length) behind).map (token :: ·) := by
  obtain ⟨c, rest, text, noSpace, lexed⟩ := lexes
  rw [text, List.cons_append, tokenizeFrom_token start _ noSpace, lexed]
  have moved : (rest ++ behind).length + 1 - behind.length = (c :: rest).length := by
    rw [List.length_append, List.length_cons]
    omega
  simp only [bind, Except.bind, moved]
  cases tokenizeFrom (start + (c :: rest).length) behind <;> rfl

theorem tokenizeFrom_render {items : List (Lexeme × Bytes)} (separated : Separated items)
    (valid : ∀ item ∈ items, item.1.Valid ∧ item.1.InRange) {behind : Bytes}
    (stops : Stops behind ∨ ∀ item ∈ items, item.2 ≠ []) (pos : Nat) :
    tokenizeFrom pos (render items ++ behind) =
      (tokenizeFrom (pos + (render items).length) behind).map (tokensFrom pos items ++ ·) := by
  induction items generalizing pos with
  | nil =>
    show tokenizeFrom pos behind = (tokenizeFrom pos behind).map fun tokens => tokens
    cases tokenizeFrom pos behind <;> rfl
  | cons item items ih =>
    obtain ⟨lexeme, gap⟩ := item
    obtain ⟨blank, last, separated⟩ := separated
    rw [List.forall_mem_cons] at valid
    have split : render ((lexeme, gap) :: items) = lexeme.text ++ (gap ++ render items) := by
      rw [render, List.flatMap_cons, List.append_assoc]
      rfl
    have stopsHere : Stops (gap ++ (render items ++ behind)) := by
      cases gap with
      | cons c gap => exact blank c List.mem_cons_self
      | nil =>
        rw [last rfl]
        rcases stops with stops | all
        · exact stops
        · exact absurd rfl (all _ List.mem_cons_self)
    have stopsRest : Stops behind ∨ ∀ item ∈ items, item.2 ≠ [] :=
      stops.imp_right fun all item member => all item (List.mem_cons_of_mem _ member)
    rw [split, List.append_assoc, List.append_assoc, (valid.1.1.lexes pos valid.1.2 stopsHere).round,
      tokenizeFrom_blank blank, ih separated valid.2 stopsRest, List.length_append, List.length_append,
      ← Nat.add_assoc, ← Nat.add_assoc, tokensFrom]
    cases tokenizeFrom (pos + lexeme.text.length + gap.length + (render items).length) behind <;> rfl

theorem wordToken_position (word : Bytes) (start : Nat) : (wordToken word start).position = start := by
  rw [wordToken]
  split <;> rfl

theorem nextToken_position {start : Nat} {c : UInt8} {rest behind : Bytes} {token : Token}
    (lexed : nextToken start c rest = .ok (token, behind)) : token.position = start := by
  rw [nextToken] at lexed
  split at lexed
  · cases lexed
    exact wordToken_position _ start
  split at lexed
  · rw [integerToken] at lexed
    split at lexed <;> cases lexed
    rfl
  split at lexed
  · split at lexed <;> cases lexed
    rfl
  split at lexed
  · cases lexed
    rfl
  · fun_cases comparatorToken start c rest <;> simp_all [comparatorToken]
    all_goals grind

theorem tokenizeFrom_positions (pos : Nat) (rest : Bytes) (tokens : List Token)
    (lexed : tokenizeFrom pos rest = .ok tokens) :
    (∀ token ∈ tokens, pos ≤ token.position) ∧ (tokens.map Token.position).Pairwise (· < ·) := by
  refine tokenizeFrom_rule (P := fun pos outcome => ∀ tokens, outcome = .ok tokens →
    (∀ token ∈ tokens, pos ≤ token.position) ∧ (tokens.map Token.position).Pairwise (· < ·))
    ?_ ?_ ?_ ?_ ?_ pos rest tokens lexed
  · rintro pos _ ⟨⟩
    simp
  · intro pos outcome earlier tokens returned
    obtain ⟨from_here, sorted⟩ := earlier tokens returned
    exact ⟨fun token member => Nat.le_of_succ_le (from_here token member), sorted⟩
  · rintro start c rest e - _ ⟨⟩
  · rintro start next e - _ ⟨⟩
  · rintro start next c rest token behind tokens lexed moved earlier _ ⟨⟩
    obtain ⟨from_next, sorted⟩ := earlier tokens rfl
    have here := nextToken_position lexed
    refine ⟨fun other member => ?_, ?_⟩
    · rcases List.mem_cons.mp member with rfl | later
      · exact Nat.le_of_eq here.symm
      · exact Nat.le_trans (Nat.le_of_lt moved) (from_next other later)
    · rw [List.map_cons, List.pairwise_cons]
      refine ⟨fun position member => ?_, sorted⟩
      obtain ⟨other, later, rfl⟩ := List.mem_map.mp member
      rw [here]
      exact Nat.lt_of_lt_of_le moved (from_next other later)

section Whole

variable {leading : Bytes} {items : List (Lexeme × Bytes)}

theorem tokenize_render (blank : Blank leading) (separated : Separated items)
    (valid : ∀ item ∈ items, item.1.Valid ∧ item.1.InRange) {behind : Bytes}
    (stops : Stops behind ∨ ∀ item ∈ items, item.2 ≠ []) :
    tokenize (leading ++ render items ++ behind) =
      (tokenizeFrom (leading ++ render items).length behind).map (tokensFrom leading.length items ++ ·) := by
  rw [tokenize, List.append_assoc, tokenizeFrom_blank blank, tokenizeFrom_render separated valid stops,
    List.length_append, Nat.zero_add]

theorem tokenizeFrom_outOfRange {negative : Bool} {digits behind : Bytes} (pos : Nat)
    (valid : (Lexeme.integerLiteral negative digits).Valid) (outside : ¬ (Lexeme.integerLiteral negative digits).InRange)
    (stops : (behind.head?.all fun c => !isDigit c) = true) :
    tokenizeFrom pos ((Lexeme.integerLiteral negative digits).text ++ behind) =
      .error (.sqlSyntaxError ("integer literal '" ++ asString (Lexeme.integerLiteral negative digits).text ++
        "' is out of range") pos) := by
  obtain ⟨c, rest, text, noSpace, lexed⟩ := Lexeme.lexes_integerLiteral pos valid stops
  have refused := (Lexeme.stoll_text valid).trans (if_neg outside)
  rw [integerToken, refused, text] at lexed
  rw [text, List.cons_append, tokenizeFrom_token pos _ noSpace, lexed]
  rfl

theorem tokenizeFrom_unterminated (pos : Nat) (value : Bytes) :
    tokenizeFrom pos (39 :: doubleQuotes value) =
      .error (.sqlSyntaxError "unterminated string literal starting here" pos) := by
  rw [tokenizeFrom_token pos _ rfl, nextToken, if_neg (by decide), if_neg (by simp [isDigit]), if_pos rfl,
    stringBody_unterminated]
  rfl

end Whole

/-- Lexemes with white space between them are cut into their tokens. Where the first that is none is a number too large
or a string without an end, that is what Tokenize complains of. No two tokens of any text begin at the same place. -/
theorem tokenize_undoes_rendering :
    (∀ leading items, Blank leading → Separated items → (∀ item ∈ items, item.1.Valid) →
      ((∀ item ∈ items, item.1.InRange) → tokenize (leading ++ render items) =
        .ok (tokensFrom leading.length items ++ [⟨.kEndOfInput, [], 0, (leading ++ render items).length⟩])) ∧
      ((∀ item ∈ items, item.1.InRange ∧ item.2 ≠ []) →
        (∀ negative digits behind, (Lexeme.integerLiteral negative digits).Valid →
          ¬ (Lexeme.integerLiteral negative digits).InRange → (behind.head?.all fun c => !isDigit c) = true →
          tokenize (leading ++ render items ++ ((Lexeme.integerLiteral negative digits).text ++ behind)) =
            .error (.sqlSyntaxError ("integer literal '" ++ asString (Lexeme.integerLiteral negative digits).text ++
              "' is out of range") (leading ++ render items).length)) ∧
        ∀ value, tokenize (leading ++ render items ++ 39 :: doubleQuotes value) =
          .error (.sqlSyntaxError "unterminated string literal starting here" (leading ++ render items).length))) ∧
      ∀ sql tokens, tokenize sql = .ok tokens → (tokens.map Token.position).Pairwise (· < ·) := by
  refine ⟨fun leading items blank separated valid => ⟨fun inRange => ?_, fun spaced => ⟨?_, ?_⟩⟩, ?_⟩
  · have lexed := tokenize_render blank separated (fun item member => ⟨valid item member, inRange item member⟩)
      (.inl stops_nil)
    rwa [List.append_nil] at lexed
  · intro negative digits behind number outside stops
    rw [tokenize_render blank separated (fun item member => ⟨valid item member, (spaced item member).1⟩)
      (.inr fun item member => (spaced item member).2), tokenizeFrom_outOfRange _ number outside stops]
    rfl
  · intro value
    rw [tokenize_render blank separated (fun item member => ⟨valid item member, (spaced item member).1⟩)
      (.inr fun item member => (spaced item member).2), tokenizeFrom_unterminated]
    rfl
  · exact fun sql tokens lexed => (tokenizeFrom_positions 0 sql tokens lexed).2

def sampleItems : List (Lexeme × Bytes) :=
  [(.keyword .kSelect (bytesOf "sElEcT"), [32]), (.stringLiteral (bytesOf "it's"), [10]),
    (.integerLiteral true (bytesOf "007"), [9])]

theorem tokenize_undoes_rendering_sample :
    tokenize (bytesOf " sElEcT 'it''s'\n-007\t") =
        .ok [⟨.kSelect, bytesOf "sElEcT", 0, 1⟩, ⟨.kStringLiteral, bytesOf "it's", 0, 8⟩,
          ⟨.kIntegerLiteral, bytesOf "-007", -7, 16⟩, ⟨.kEndOfInput, [], 0, 21⟩] ∧
      tokenize (bytesOf " sElEcT 'it''s'\n-007\t9223372036854775808;") =
        .error (.sqlSyntaxError "integer literal '9223372036854775808' is out of range" 21) ∧
      tokenize (bytesOf " sElEcT 'it''s'\n-007\t'it''s") =
        .error (.sqlSyntaxError "unterminated string literal starting here" 21) := by
  have blank : Blank [32] := by simp [Blank, isWhitespace]
  have separated : Separated sampleItems := by
    simp [Separated, sampleItems, Blank, isWhitespace]
  have valid : ∀ item ∈ sampleItems, item.1.Valid := by
    simp only [sampleItems, List.forall_mem_cons]
    exact ⟨by constructor <;> decide, trivial, ⟨by decide, List.all_eq_true.mp (by decide)⟩, by simp⟩
  have inRange : ∀ item ∈ sampleItems, item.1.InRange ∧ item.2 ≠ [] := by
    simp only [sampleItems, List.forall_mem_cons]
    exact ⟨⟨trivial, by simp⟩, ⟨trivial, by simp⟩, ⟨by constructor <;> decide, by simp⟩, by simp⟩
  obtain ⟨accepted, refused⟩ := tokenize_undoes_rendering.1 [32] sampleItems blank separated valid
  obtain ⟨outOfRange, unterminated⟩ := refused inRange
  have text : bytesOf " sElEcT 'it''s'\n-007\t" = [32] ++ render sampleItems := by decide +kernel
  have textLarge : bytesOf " sElEcT 'it''s'\n-007\t9223372036854775808;" = [32] ++ render sampleItems ++
      ((Lexeme.integerLiteral false (bytesOf "9223372036854775808")).text ++ [59]) := by decide +kernel
  have textOpen : bytesOf " sElEcT 'it''s'\n-007\t'it''s" = [32] ++ render sampleItems ++
      39 :: doubleQuotes (bytesOf "it's") := by decide +kernel
  have length : ([32] ++ render sampleItems).length = 21 := by decide +kernel
  have digits : asString (Lexeme.integerLiteral false (bytesOf "9223372036854775808")).text = "9223372036854775808" := by
    decide +kernel
  refine ⟨?_, ?_, ?_⟩
  · rw [text, accepted fun item member => (inRange item member).1]
    decide +kernel
  · rw [textLarge, outOfRange false _ [59] ⟨by decide, List.all_eq_true.mp (by decide)⟩
      (fun within => absurd within.2 (by decide)) rfl, length, digits]
    decide +kernel
  · rw [textOpen, unterminated, length]

end FlintDB
