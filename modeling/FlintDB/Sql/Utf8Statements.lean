import FlintDB.Sql.Messages
import FlintDB.Sql.ParsedStatements

set_option autoImplicit false

namespace FlintDB

open Lib Fallible

def Token.InUtf8 (token : Token) : Prop := token.type = .kStringLiteral → IsUtf8 token.text

-- The part of the value in front of what is left is carried along, for it can end within a character.
theorem stringBody_utf8 {rest value behind : Bytes} (body : stringBody rest = some (value, behind)) {front : Bytes}
    (utf8 : IsUtf8 (front ++ rest)) : IsUtf8 (front ++ value) ∧ IsUtf8 behind := by
  fun_induction stringBody rest generalizing value front with
  | case1 => cases body
  | case2 rest ih =>
    obtain ⟨⟨inner, left⟩, cut, same⟩ := Option.map_eq_some_iff.mp body
    cases same
    obtain ⟨before, others⟩ := (isUtf8_middle (by decide)).mp utf8
    have inside : IsUtf8 ([] ++ rest) := (isUtf8_cons (by decide)).mp others
    obtain ⟨within, after⟩ := ih cut inside
    exact ⟨(isUtf8_middle (by decide)).mpr ⟨before, within⟩, after⟩
  | case3 rest =>
    cases body
    obtain ⟨before, others⟩ := (isUtf8_middle (by decide)).mp utf8
    exact ⟨by rwa [List.append_nil], others⟩
  | case4 c rest _ _ ih =>
    obtain ⟨⟨inner, left⟩, cut, same⟩ := Option.map_eq_some_iff.mp body
    cases same
    have inside : IsUtf8 ((front ++ [c]) ++ rest) := by simpa using utf8
    obtain ⟨within, after⟩ := ih cut inside
    exact ⟨by simpa using within, after⟩

theorem isWhitespace_ascii {c : UInt8} (space : isWhitespace c = true) : c < 128 := by
  simp only [isWhitespace, Bool.or_eq_true, beq_iff_eq] at space
  rcases space with ((rfl | rfl) | rfl) | rfl <;> decide

theorem isDigit_ascii {c : UInt8} (digit : isDigit c = true) : c < 128 := by
  simp only [isDigit, Bool.and_eq_true, decide_eq_true_eq] at digit
  exact UInt8.lt_of_le_of_lt digit.2 (by decide)

theorem integerToken_type {number : Bytes} {start : Nat} {token : Token} (lexed : integerToken number start = .ok token) :
    token.type = .kIntegerLiteral := by
  rw [integerToken] at lexed
  split at lexed <;> cases lexed
  rfl

theorem comparatorToken_utf8 {start : Nat} {c : UInt8} {rest behind : Bytes} {token : Token}
    (after : c < 128 → IsUtf8 rest) (lexed : comparatorToken start c rest = .ok (token, behind)) :
    token.InUtf8 ∧ IsUtf8 behind := by
  revert lexed after
  fun_cases comparatorToken start c rest
  case case3 | case8 => rintro - ⟨⟩
  all_goals
    rintro after ⟨⟩
    have others := after (by decide)
    refine ⟨by simp [Token.InUtf8], ?_⟩
  case case2 | case4 | case6 => exact (isUtf8_cons (by decide)).mp others
  all_goals exact others

theorem nextToken_utf8 {start : Nat} {c : UInt8} {rest behind : Bytes} {token : Token} (utf8 : IsUtf8 (c :: rest))
    (lexed : nextToken start c rest = .ok (token, behind)) : token.InUtf8 ∧ IsUtf8 behind := by
  have after : c < 128 → IsUtf8 rest := fun ascii => (isUtf8_cons ascii).mp utf8
  rw [nextToken] at lexed
  split at lexed
  · rename_i starts
    cases lexed
    refine ⟨fun isText => ?_, IsUtf8.dropWhile (fun _ => isIdentCont_ascii)
      (after (isIdentCont_ascii (isIdentStart_cont starts)))⟩
    rcases wordToken_type (c :: rest.takeWhile isIdentCont) start with keyword | identifier
    · rw [isText] at keyword
      exact absurd keyword (by decide)
    · rw [isText] at identifier
      cases identifier
  split at lexed
  · rename_i digits
    obtain ⟨number, made, same⟩ := bind_eq_ok.mp lexed
    cases same
    have ascii : c < 128 := by
      simp only [Bool.or_eq_true, Bool.and_eq_true, beq_iff_eq] at digits
      rcases digits with digit | ⟨rfl, -⟩
      · exact isDigit_ascii digit
      · decide
    refine ⟨fun isText => ?_, IsUtf8.dropWhile (fun _ => isDigit_ascii) (after ascii)⟩
    rw [integerToken_type made] at isText
    cases isText
  split at lexed
  · rename_i quote
    subst quote
    split at lexed
    · rename_i value behind body
      cases lexed
      obtain ⟨within, others⟩ := @stringBody_utf8 rest value behind body [] (after (by decide))
      exact ⟨fun _ => within, others⟩
    · cases lexed
  split at lexed
  · rename_i type mark
    cases lexed
    fun_cases punctuation c <;> simp_all [punctuation, Token.InUtf8]
    all_goals grind
  · exact comparatorToken_utf8 after lexed

-- What is left of the text is like the text, the tokens are all of this kind and so is the complaint.
theorem tokenizeRounds_gives {P : Bytes → Prop} {T : Token → Prop} {K : ParseException → Prop}
    (skips : ∀ {c rest}, P (c :: rest) → isWhitespace c = true → P rest)
    (lexes : ∀ {start c rest}, P (c :: rest) → Gives (nextToken start c rest) (fun cut => T cut.1 ∧ P cut.2) K)
    (ends : ∀ pos, T ⟨.kEndOfInput, [], 0, pos⟩) {rest : Bytes} (here : P rest) (rounds pos : Nat) :
    Gives (tokenizeRounds rounds pos rest) (fun tokens => ∀ token ∈ tokens, T token) K := by
  induction rounds generalizing pos rest with
  | zero => simpa [tokenizeRounds, Gives] using ends pos
  | succ rounds ih =>
    cases rest with
    | nil => simpa [tokenizeRounds, Gives] using ends pos
    | cons c rest =>
      rw [tokenizeRounds]
      split
      · exact ih (skips here ‹_›) _
      · exact (lexes here).bind fun cut after => (ih after.2 _).bind fun tokens others =>
          List.forall_mem_cons.mpr ⟨after.1, others⟩

theorem tokenize_utf8 {sql : Bytes} (utf8 : IsUtf8 sql) {tokens : List Token} (lexed : tokenize sql = .ok tokens) :
    ∀ token ∈ tokens, token.InUtf8 := by
  have gives : Gives (tokenize sql) (fun tokens => ∀ token ∈ tokens, token.InUtf8) fun _ => True := by
    refine tokenizeRounds_gives (P := IsUtf8) (fun utf8 space => (isUtf8_cons (isWhitespace_ascii space)).mp utf8) ?_
      (fun pos => by simp [Token.InUtf8]) utf8 _ _
    intro start c rest utf8
    cases cut : nextToken start c rest with
    | error e => trivial
    | ok cut => exact nextToken_utf8 utf8 ‹_›
  rw [lexed] at gives
  exact gives

def ParseException.Plain : ParseException → Prop
  | .sqlSyntaxError message _ => PlainText message
  | .invalidArgument | .outOfRange | .undefined => True

theorem plainText_asString {text : Bytes} (ascii : IsAscii text) : PlainText (asString text) := by
  rwa [PlainText, bytesOf_asString]

theorem stoll_plain {number : Bytes} {e : ParseException} (thrown : stoll number = .error e) : e.Plain := by
  rw [stoll] at thrown
  split at thrown
  · cases thrown
    trivial
  split at thrown <;> cases thrown
  trivial

theorem stringBody_suffix {rest value behind : Bytes} (body : stringBody rest = some (value, behind)) :
    behind <:+ rest := by
  fun_induction stringBody rest generalizing value with
  | case1 => cases body
  | case2 rest ih =>
    obtain ⟨⟨inner, left⟩, cut, same⟩ := Option.map_eq_some_iff.mp body
    cases same
    exact (ih cut).trans ((List.suffix_cons _ _).trans (List.suffix_cons _ _))
  | case3 rest =>
    cases body
    exact List.suffix_cons _ _
  | case4 c rest _ _ ih =>
    obtain ⟨⟨inner, left⟩, cut, same⟩ := Option.map_eq_some_iff.mp body
    cases same
    exact (ih cut).trans (List.suffix_cons _ _)

theorem comparatorToken_ascii {start : Nat} {c : UInt8} {rest : Bytes} (first : c < 128) (others : IsAscii rest) :
    Gives (comparatorToken start c rest) (fun cut => True ∧ IsAscii cut.2) ParseException.Plain := by
  fun_cases comparatorToken start c rest
  case case3 =>
    show PlainText _
    decide
  case case8 =>
    have character : IsAscii [c] := by simpa [IsAscii] using first
    simpa [Gives, ParseException.Plain, plainText_asString character] using by decide
  case case2 | case4 | case6 => exact ⟨trivial, (List.forall_mem_cons.mp others).2⟩
  all_goals exact ⟨trivial, others⟩

theorem nextToken_ascii {start : Nat} {c : UInt8} {rest : Bytes} (ascii : IsAscii (c :: rest)) :
    Gives (nextToken start c rest) (fun cut => True ∧ IsAscii cut.2) ParseException.Plain := by
  obtain ⟨first, others⟩ := List.forall_mem_cons.mp ascii
  have suffix : ∀ {behind}, behind <:+ rest → IsAscii behind := fun behind d isThere =>
    others d (behind.subset isThere)
  rw [nextToken]
  split
  · exact ⟨trivial, suffix (List.dropWhile_suffix _)⟩
  split
  · refine Gives.bind (Q := fun _ => True) ?_ fun token _ => ⟨trivial, suffix (List.dropWhile_suffix _)⟩
    have number : IsAscii (c :: rest.takeWhile isDigit) :=
      List.forall_mem_cons.mpr ⟨first, isAscii_takeWhile (fun _ => isDigit_ascii) rest⟩
    rw [integerToken]
    split
    · trivial
    · simpa [Gives, ParseException.Plain, plainText_asString number] using by decide
    · exact stoll_plain ‹_›
  split
  · split
    · exact ⟨trivial, suffix (stringBody_suffix ‹_›)⟩
    · show PlainText _
      decide
  split
  · exact ⟨trivial, others⟩
  · exact comparatorToken_ascii first others

theorem tokenize_ascii {sql : Bytes} (ascii : IsAscii sql) {e : ParseException} (thrown : tokenize sql = .error e) :
    e.Plain := by
  have gives : Gives (tokenize sql) (fun tokens => ∀ token ∈ tokens, True) ParseException.Plain :=
    tokenizeRounds_gives (P := IsAscii) (fun ascii _ => (List.forall_mem_cons.mp ascii).2) nextToken_ascii
      (fun _ => trivial) ascii _ _
  rw [thrown] at gives
  exact gives

def NamesPlain (tokens : List Token) : Prop := ∀ token ∈ tokens, token.type = .kIdentifier → PlainText (asString token.text)

theorem tokenize_namesPlain {sql : Bytes} {tokens : List Token} (lexed : tokenize sql = .ok tokens) : NamesPlain tokens :=
  fun token isToken isName => (isIdentifier_iff.mpr ⟨sql, tokens, lexed, token, isToken, isName, rfl⟩).plain

namespace Parser

abbrev Says {α : Type} (program : ParserM α) (Q : α → Prop) : Prop := Ends NamesPlain program Q ParseException.Plain

theorem plainText_tokenTypeName (type : TokenType) : PlainText (tokenTypeName type) := by cases type <;> decide

theorem peek_wording : Says peek fun token => token.type = .kIdentifier → PlainText (asString token.text) := by
  intro tokens plain
  cases tokens with
  | nil => trivial
  | cons token rest => exact ⟨plain, plain token List.mem_cons_self⟩

theorem check_wording (type : TokenType) : Says (check type) fun _ => True :=
  peek_wording.bind fun _ _ => Ends.pure trivial

theorem advance_wording : Says advance fun token => token.type = .kIdentifier → PlainText (asString token.text) := by
  refine peek_wording.bind fun token plain => ?_
  split
  · exact Ends.pure plain
  · exact (Ends.modify fun tokens plain token isToken => plain token (List.mem_of_mem_tail isToken)).bind fun _ _ =>
      Ends.pure plain

theorem matchToken_wording (type : TokenType) : Says (matchToken type) fun _ => True := by
  refine (check_wording type).bind fun isNext _ => ?_
  split
  · exact advance_wording.bind fun _ _ => Ends.pure trivial
  · exact Ends.pure trivial

theorem unexpected_wording {α : Type} {message behind : String} (plain : PlainText message) (plainBehind : PlainText behind)
    (Q : α → Prop) : Says (unexpected message behind) Q := by
  refine peek_wording.bind fun token _ => Ends.throw ?_
  simp [ParseException.Plain, plain, plainBehind, plainText_tokenTypeName]

theorem expect_wording (type : TokenType) :
    Says (expect type) fun token => token.type = .kIdentifier → PlainText (asString token.text) := by
  refine (check_wording type).bind fun isNext _ => ?_
  split
  · exact advance_wording
  · refine unexpected_wording ?_ (by decide) _
    simpa [plainText_tokenTypeName] using by decide

theorem expectIdentifier_wording : Says expectIdentifier PlainText := by
  intro tokens plain
  cases tokens with
  | nil => trivial
  | cons token rest =>
    by_cases isName : token.type = .kIdentifier
    · have looked : (expect .kIdentifier).exec (token :: rest) = (.ok token, rest) := by
        rw [expect, exec_bind_ok (exec_check _), decide_eq_true isName]
        exact exec_advance (by rw [isName]; decide)
      rw [expectIdentifier, exec_bind_ok looked]
      exact ⟨fun other isToken => plain other (List.mem_cons_of_mem _ isToken), plain token List.mem_cons_self isName⟩
    · rw [expectIdentifier, expect, bind_assoc, exec_bind_ok (exec_check _), decide_eq_false isName]
      have fails :=
        @unexpected_wording Token ("expected " ++ tokenTypeName .kIdentifier ++ ", got ") "" (by decide) (by decide)
        fun token => PlainText (asString token.text)
      exact (fails.bind fun _ plain => Ends.pure plain) _ plain

theorem expectLiteral_wording : Says expectLiteral fun _ => True := by
  refine (check_wording _).bind fun isInteger _ => ?_
  split
  · exact advance_wording.bind fun _ _ => Ends.pure trivial
  refine (check_wording _).bind fun isText _ => ?_
  split
  · exact advance_wording.bind fun _ _ => Ends.pure trivial
  · exact unexpected_wording (by decide) (by decide) _

theorem expectColumnType_wording : Says expectColumnType fun _ => True := by
  refine (matchToken_wording _).bind fun isInteger _ => ?_
  split
  · exact Ends.pure trivial
  refine (matchToken_wording _).bind fun isText _ => ?_
  split
  · exact Ends.pure trivial
  · exact unexpected_wording (by decide) (by decide) _

theorem parseColumnRef_wording : Says parseColumnRef fun _ => True := by
  refine expectIdentifier_wording.bind fun first _ => (matchToken_wording _).bind fun isDot _ => ?_
  split
  · exact expectIdentifier_wording.bind fun _ _ => Ends.pure trivial
  · exact Ends.pure trivial

theorem expectComparator_wording : Says expectComparator fun _ => True := by
  iterate 6
    refine (matchToken_wording _).bind fun isNext _ => ?_
    split
    · exact Ends.pure trivial
  exact unexpected_wording (by decide) (by decide) _

theorem parsePredicate_wording : Says parsePredicate fun _ => True :=
  parseColumnRef_wording.bind fun _ _ => expectComparator_wording.bind fun _ _ => expectLiteral_wording.bind fun _ _ =>
    Ends.pure trivial

theorem iterate_wording {α : Type} {body : α → ParserM α} {Q : α → Prop} (separator : TokenType)
    (each : ∀ a, Q a → Says (body a) Q) {a : α} (holds : Q a) :
    Says (Alphabet.iterate (matchToken separator) body a) Q := by
  have rounds : ∀ rounds a, Q a → Says (Alphabet.iterateRounds (matchToken separator) body rounds a) Q := by
    intro rounds
    induction rounds with
    | zero => exact fun a holds => Ends.pure holds
    | succ rounds ih =>
      intro a holds
      refine (matchToken_wording _).bind fun more _ => ?_
      split
      · exact (each a holds).bind fun b holds => ih b holds
      · exact Ends.pure holds
  exact Ends.get.bind fun left _ => rounds _ _ holds

theorem separated_wording {α : Type} (separator : TokenType) {item : ParserM α} (each : Says item fun _ => True) :
    Says (separated separator item) fun _ => True := by
  have push : ∀ as : List α, Says (item >>= fun a => pure (as ++ [a])) fun _ => True := fun as =>
    each.bind fun _ _ => Ends.pure trivial
  exact (push []).bind fun as _ => iterate_wording separator (fun as _ => push as) trivial

theorem parseOptionalWhereClause_wording : Says parseOptionalWhereClause fun _ => True := by
  refine (check_wording _).bind fun isWhere _ => ?_
  split
  · exact (expect_wording _).bind fun _ _ => separated_wording _ parsePredicate_wording
  · exact Ends.pure trivial

theorem parsePrimaryKey_wording {colName : String} (plain : PlainText colName) {pk : Option String}
    (plainKey : ∀ key ∈ pk, PlainText key) :
    Says (parsePrimaryKey colName pk) fun found => ∀ key ∈ found, PlainText key := by
  refine (matchToken_wording _).bind fun isKey _ => ?_
  split
  · refine (expect_wording _).bind fun _ _ => ?_
    cases pk with
    | none =>
      refine Ends.pure ?_
      rintro _ ⟨⟩
      exact plain
    | some earlier =>
      have isPlain := plainKey earlier rfl
      refine peek_wording.bind fun token _ => Ends.throw ?_
      simpa [ParseException.Plain, isPlain] using by decide
  · exact Ends.pure plainKey

theorem parseColumnDefs_wording : Says parseColumnDefs fun found => ∀ key ∈ found.2, PlainText key := by
  have each : ∀ found : List ColumnDef × Option String, (∀ key ∈ found.2, PlainText key) →
      Says (parseColumnDef found) fun after => ∀ key ∈ after.2, PlainText key := fun found plain =>
    expectIdentifier_wording.bind fun colName named => expectColumnType_wording.bind fun _ _ =>
      (parsePrimaryKey_wording named plain).bind fun _ plain => Ends.pure plain
  exact (each ([], none) (by simp)).bind fun found plain => iterate_wording _ each plain

theorem parseCreate_wording : Says parseCreate fun _ => True := by
  have table : Says parseCreateTable fun _ => True :=
    (expect_wording _).bind fun _ _ => expectIdentifier_wording.bind fun _ _ => (expect_wording _).bind fun _ _ =>
      parseColumnDefs_wording.bind fun _ _ => (expect_wording _).bind fun _ _ => Ends.pure trivial
  have index : Says parseCreateIndex fun _ => True :=
    (expect_wording _).bind fun _ _ => expectIdentifier_wording.bind fun _ _ => (expect_wording _).bind fun _ _ =>
      expectIdentifier_wording.bind fun _ _ => (expect_wording _).bind fun _ _ => expectIdentifier_wording.bind fun _ _ =>
        (expect_wording _).bind fun _ _ => Ends.pure trivial
  refine (check_wording _).bind fun isTable _ => ?_
  split
  · exact table.bind fun _ _ => Ends.pure trivial
  refine (check_wording _).bind fun isIndex _ => ?_
  split
  · exact index.bind fun _ _ => Ends.pure trivial
  · exact unexpected_wording (by decide) (by decide) _

theorem parseInsert_wording : Says parseInsert fun _ => True :=
  (expect_wording _).bind fun _ _ => expectIdentifier_wording.bind fun _ _ => (expect_wording _).bind fun _ _ =>
    (expect_wording _).bind fun _ _ => (separated_wording _ expectLiteral_wording).bind fun _ _ =>
    (expect_wording _).bind fun _ _ =>
      Ends.pure trivial

theorem parseOptionalJoin_wording : Says parseOptionalJoin fun _ => True := by
  have join : Says parseJoinClause fun _ => True :=
    (expect_wording _).bind fun _ _ => expectIdentifier_wording.bind fun _ _ => (expect_wording _).bind fun _ _ =>
      parseColumnRef_wording.bind fun _ _ => (expect_wording _).bind fun _ _ => parseColumnRef_wording.bind fun _ _ =>
        Ends.pure trivial
  refine (check_wording _).bind fun isJoin _ => ?_
  split
  · exact join.bind fun _ _ => Ends.pure trivial
  · exact Ends.pure trivial

theorem parseSelect_wording : Says parseSelect fun _ => True := by
  have list : Says parseSelectList fun _ => True := by
    refine (matchToken_wording _).bind fun isStar _ => ?_
    split
    · exact Ends.pure trivial
    · exact (separated_wording _ parseColumnRef_wording).bind fun _ _ => Ends.pure trivial
  exact list.bind fun _ _ => (expect_wording _).bind fun _ _ => expectIdentifier_wording.bind fun _ _ =>
    parseOptionalJoin_wording.bind fun _ _ => parseOptionalWhereClause_wording.bind fun _ _ => Ends.pure trivial

theorem parseUpdate_wording : Says parseUpdate fun _ => True := by
  have assignment : Says parseAssignment fun _ => True :=
    expectIdentifier_wording.bind fun _ _ => (expect_wording _).bind fun _ _ => expectLiteral_wording.bind fun _ _ =>
      Ends.pure trivial
  exact expectIdentifier_wording.bind fun _ _ => (expect_wording _).bind fun _ _ => (separated_wording _ assignment).bind
    fun _ _ => parseOptionalWhereClause_wording.bind fun _ _ => Ends.pure trivial

theorem parseDelete_wording : Says parseDelete fun _ => True :=
  (expect_wording _).bind fun _ _ => expectIdentifier_wording.bind fun _ _ => parseOptionalWhereClause_wording.bind fun _ _ =>
    Ends.pure trivial

theorem parseOneStatement_wording : Says parseOneStatement fun _ => True := by
  refine (matchToken_wording _).bind fun isCreate _ => ?_
  split
  · exact parseCreate_wording
  refine (matchToken_wording _).bind fun isInsert _ => ?_
  split
  · exact parseInsert_wording.bind fun _ _ => Ends.pure trivial
  refine (matchToken_wording _).bind fun isSelect _ => ?_
  split
  · exact parseSelect_wording.bind fun _ _ => Ends.pure trivial
  refine (matchToken_wording _).bind fun isUpdate _ => ?_
  split
  · exact parseUpdate_wording.bind fun _ _ => Ends.pure trivial
  refine (matchToken_wording _).bind fun isDelete _ => ?_
  split
  · exact parseDelete_wording.bind fun _ _ => Ends.pure trivial
  iterate 3
    refine (matchToken_wording _).bind fun isNext _ => ?_
    split
    · exact Ends.pure trivial
  exact unexpected_wording (by decide) (by decide) _

theorem parseStatementTopLevel_wording : Says parseStatementTopLevel fun _ => True := by
  refine parseOneStatement_wording.bind fun stmt _ => (matchToken_wording _).bind fun _ _ => (check_wording _).bind
    fun isEnd _ => ?_
  split
  · exact Ends.pure trivial
  · exact unexpected_wording (by decide) (by decide) _

end Parser

theorem parse_plain {sql : Bytes} (readable : IsAscii sql ∨ ∃ tokens, tokenize sql = .ok tokens) {e : ParseException}
    (thrown : parse sql = .error e) : e.Plain := by
  rw [parse] at thrown
  cases lexed : tokenize sql with
  | error e' =>
    rw [lexed] at thrown
    cases thrown
    rcases readable with ascii | ⟨tokens, lexes⟩
    · exact tokenize_ascii ascii lexed
    · cases lexed.symm.trans lexes
  | ok tokens =>
    rw [lexed] at thrown
    have ends := Parser.parseStatementTopLevel_wording tokens (tokenize_namesPlain lexed)
    cases ran : Parser.parseStatementTopLevel.exec tokens with
    | mk outcome left =>
      have same : outcome = .error e := (congrArg Prod.fst ran).symm.trans thrown
      rw [ran, same] at ends
      exact ends

def LiteralValue.InUtf8 : LiteralValue → Prop
  | .integer _ => True
  | .text value => IsUtf8 value

def Terminal.InUtf8 : Terminal → Prop
  | .stringLiteral value => IsUtf8 value
  | _ => True

-- The values that a statement can bring into a table.
def Statement.InUtf8 : Statement → Prop
  | .insert stmt => ∀ value ∈ stmt.values, value.InUtf8
  | .update stmt => ∀ assignment ∈ stmt.assignments, assignment.value.InUtf8
  | _ => True

theorem Token.InUtf8.terminal {token : Token} (utf8 : token.InUtf8) : token.terminal.InUtf8 := by
  rcases token with ⟨type, text, intValue, position⟩
  cases type
  case kStringLiteral => exact utf8 rfl
  all_goals trivial

namespace Grammar

theorem literal_utf8 {s : List Terminal} {value : LiteralValue} (isLiteral : Literal s value)
    (utf8 : ∀ terminal ∈ s, terminal.InUtf8) : value.InUtf8 := by
  cases isLiteral with
  | integer value => trivial
  | text value => exact utf8 _ List.mem_cons_self

theorem statement_utf8 {s : List Terminal} {stmt : FlintDB.Statement} (isStmt : Statement s stmt)
    (utf8 : ∀ terminal ∈ s, terminal.InUtf8) : stmt.InUtf8 := by
  cases isStmt with
  | @insert values _ table are =>
    have inside : ∀ terminal ∈ values, terminal.InUtf8 := fun terminal isThere => utf8 terminal (by simp [isThere])
    exact (separated_all are inside fun _ _ => literal_utf8).2
  | @update assignments _ _ _ table are isWhere =>
    have inside : ∀ terminal ∈ assignments, terminal.InUtf8 := fun terminal isThere => utf8 terminal (by simp [isThere])
    refine (separated_all are inside fun s assignment isAssignment utf8 => ?_).2
    cases isAssignment with
    | intro column isValue => exact literal_utf8 isValue fun terminal isThere => utf8 terminal (by simp [isThere])
  | createTable | createIndex | select | delete | begin | commit | rollback => trivial

end Grammar

theorem parse_utf8 {sql : Bytes} (utf8 : IsUtf8 sql) {stmt : Statement} (parsed : parse sql = .ok stmt) : stmt.InUtf8 := by
  obtain ⟨tokens, lexed, sentence, view, derives⟩ := (parse_ok_iff sql stmt).mp parsed
  have terminals : ∀ terminal ∈ tokens.map Token.terminal, terminal.InUtf8 :=
    List.forall_mem_map.mpr fun token isToken => (tokenize_utf8 utf8 lexed token isToken).terminal
  rw [view] at terminals
  have inside := (List.forall_mem_append.mp terminals).1
  rcases derives with isStmt | ⟨front, rfl, isStmt⟩
  · exact Grammar.statement_utf8 isStmt inside
  · exact Grammar.statement_utf8 isStmt (List.forall_mem_append.mp inside).1

end FlintDB
