import FlintDB.Sql.Parser
import FlintDB.Sql.Grammar

set_option autoImplicit false

-- Each function of the parser with the production it reads, and what it looks at behind it.

namespace FlintDB

open Lib

def TokenType.isSymbol : TokenType → Bool
  | .kIdentifier | .kIntegerLiteral | .kStringLiteral => false
  | _ => true

theorem Token.terminal_eq_symbol {token : Token} {type : TokenType} (isSymbol : type.isSymbol = true) :
    token.terminal = .symbol type ↔ token.type = type := by
  rcases token with ⟨held, text, intValue, position⟩
  cases held <;> cases type <;> simp_all [Token.terminal, TokenType.isSymbol]

namespace Parser

open Grammar (Production)

variable {α : Type} {token : Token} {rest : List Token}

theorem exec_advance (inside : token.type ≠ .kEndOfInput) : advance.exec (token :: rest) = (.ok token, rest) := by
  have look : peek.exec (token :: rest) = (.ok token, token :: rest) := rfl
  rw [advance, Fallible.exec_bind_ok look, if_neg inside]
  rfl

theorem exec_check (type : TokenType) :
    (check type).exec (token :: rest) = (.ok (decide (token.type = type)), token :: rest) := rfl

theorem exec_unexpected (message behind : String) :
    (unexpected message behind : ParserM α).exec (token :: rest) =
      (.error (.sqlSyntaxError (message ++ tokenTypeName token.type ++ behind) token.position), token :: rest) := rfl

theorem exec_matchToken_ne {type : TokenType} (other : token.type ≠ type) :
    (matchToken type).exec (token :: rest) = (.ok false, token :: rest) := by
  rw [matchToken, Fallible.exec_bind_ok (exec_check type), decide_eq_false other]
  rfl

theorem exec_matchToken {type : TokenType} (isNext : token.type = type) (inside : type ≠ .kEndOfInput) :
    (matchToken type).exec (token :: rest) = (.ok true, rest) := by
  rw [matchToken, Fallible.exec_bind_ok (exec_check type), decide_eq_true isNext]
  simp only [if_true]
  rw [Fallible.exec_bind_ok (exec_advance (isNext ▸ inside))]
  rfl

theorem takes_matchToken {type : TokenType} (isSymbol : type.isSymbol = true) (inside : type ≠ .kEndOfInput) :
    sqlAlphabet.Takes (matchToken type) (.symbol type) := by
  refine ⟨by simpa [sqlAlphabet] using inside, fun token rest => ⟨fun isNext => ?_, fun other => ?_⟩⟩
  · exact exec_matchToken ((Token.terminal_eq_symbol isSymbol).mp isNext) inside
  · exact exec_matchToken_ne fun isNext => other ((Token.terminal_eq_symbol isSymbol).mpr isNext)

theorem sees_check {type : TokenType} (isSymbol : type.isSymbol = true) :
    sqlAlphabet.Sees (check type) (.symbol type) := by
  intro token rest
  exact ⟨_, exec_check type, by simp [sqlAlphabet, Token.terminal_eq_symbol isSymbol]⟩

theorem parses_unexpected (message behind : String) {F : Terminal → Prop} :
    sqlAlphabet.Parses (unexpected message behind : ParserM α) (fun _ _ => False) F := by
  apply Alphabet.Parses.never
  intro input ends
  obtain ⟨token, rest, rfl⟩ := ends.exists_cons
  exact ⟨_, exec_unexpected message behind, _, _, rfl⟩

theorem parses_expect {type : TokenType} (isSymbol : type.isSymbol = true) (inside : type ≠ .kEndOfInput)
    {next : ParserM α} {L : Production α} {F : Terminal → Prop} (parses : sqlAlphabet.Parses next L F) :
    sqlAlphabet.Parses (expect type >>= fun _ => next)
      (fun sentence a => ∃ behind, sentence = .symbol type :: behind ∧ L behind a) F := by
  refine Alphabet.Parses.of_iff (Alphabet.Parses.of_exec (Alphabet.Parses.take (takes_matchToken isSymbol inside)
    parses (parses_unexpected ("expected " ++ tokenTypeName type ++ ", got ") "") ?_) ?_) ?_
  · rintro _ _ _ ⟨⟩
  · intro token rest
    by_cases isNext : token.type = type
    · rw [Fallible.exec_bind_ok (exec_matchToken isNext inside), expect, bind_assoc,
        Fallible.exec_bind_ok (exec_check type), decide_eq_true isNext]
      simp only [if_true]
      rw [Fallible.exec_bind_ok (exec_advance (isNext ▸ inside))]
    · rw [Fallible.exec_bind_ok (exec_matchToken_ne isNext), expect, bind_assoc,
        Fallible.exec_bind_ok (exec_check type), decide_eq_false isNext]
      rfl
  · intro sentence a
    rw [or_false]

theorem Token.terminal_eq_identifier {token : Token} {name : String} :
    token.terminal = .identifier name ↔ token.type = .kIdentifier ∧ asString token.text = name := by
  rcases token with ⟨type, text, intValue, position⟩
  cases type <;> simp [Token.terminal]

theorem parses_expectIdentifier {F : Terminal → Prop} :
    sqlAlphabet.Parses expectIdentifier (Phrases.one Terminal.identifier) F := by
  apply Alphabet.Parses.one
  · simp [sqlAlphabet]
  · intro token rest name isName
    obtain ⟨isNext, rfl⟩ := Token.terminal_eq_identifier.mp isName
    have looked : (expect .kIdentifier).exec (token :: rest) = (.ok token, rest) := by
      rw [expect, Fallible.exec_bind_ok (exec_check _), decide_eq_true isNext]
      exact exec_advance (by rw [isNext]; decide)
    rw [expectIdentifier, Fallible.exec_bind_ok looked]
    rfl
  · intro token rest noName
    have other : token.type ≠ .kIdentifier := fun isNext =>
      noName _ (Token.terminal_eq_identifier.mpr ⟨isNext, rfl⟩)
    have looked : (expect .kIdentifier).exec (token :: rest) = (.error (.sqlSyntaxError
        ("expected " ++ tokenTypeName .kIdentifier ++ ", got " ++ tokenTypeName token.type ++ "") token.position),
        token :: rest) := by
      rw [expect, Fallible.exec_bind_ok (exec_check _), decide_eq_false other]
      rfl
    exact ⟨_, Fallible.exec_bind_error looked, _, _, rfl⟩

def literalTerminal : LiteralValue → Terminal
  | .integer value => .integerLiteral value
  | .text value => .stringLiteral value

theorem parses_expectLiteral {F : Terminal → Prop} :
    sqlAlphabet.Parses expectLiteral Grammar.Literal F := by
  have reads : sqlAlphabet.Parses expectLiteral (Phrases.one literalTerminal) F := by
    apply Alphabet.Parses.one
    · intro value
      cases value <;> simp [sqlAlphabet, literalTerminal]
    · rintro ⟨type, text, intValue, position⟩ rest value isValue
      cases type <;> cases value <;> cases isValue <;> rfl
    · rintro ⟨type, text, intValue, position⟩ rest noValue
      cases type
      case kIntegerLiteral => exact absurd rfl (noValue (.integer intValue))
      case kStringLiteral => exact absurd rfl (noValue (.text text))
      all_goals exact ⟨_, rfl, _, _, rfl⟩
  refine reads.of_iff fun sentence value => ?_
  constructor
  · rintro rfl
    cases value <;> constructor
  · rintro ⟨⟩ <;> rfl

def columnTypeTerminal : ColumnType → Terminal
  | .kInteger => .symbol .kInteger
  | .kText => .symbol .kText

theorem parses_expectColumnType {F : Terminal → Prop} :
    sqlAlphabet.Parses expectColumnType Grammar.ColumnType F := by
  have reads : sqlAlphabet.Parses expectColumnType (Phrases.one columnTypeTerminal) F := by
    apply Alphabet.Parses.one
    · intro type
      cases type <;> simp [sqlAlphabet, columnTypeTerminal]
    · rintro ⟨type, text, intValue, position⟩ rest value isValue
      cases type <;> cases value <;> cases isValue <;> rfl
    · rintro ⟨type, text, intValue, position⟩ rest noValue
      cases type
      case kInteger => exact absurd rfl (noValue .kInteger)
      case kText => exact absurd rfl (noValue .kText)
      all_goals exact ⟨_, rfl, _, _, rfl⟩
  refine reads.of_iff fun sentence type => ?_
  constructor
  · rintro rfl
    cases type <;> constructor
  · rintro ⟨⟩ <;> rfl

def comparatorTerminal : Comparator → Terminal
  | .kEq => .symbol .kEq
  | .kNeq => .symbol .kNeq
  | .kLt => .symbol .kLt
  | .kLe => .symbol .kLe
  | .kGt => .symbol .kGt
  | .kGe => .symbol .kGe

theorem parses_expectComparator {F : Terminal → Prop} :
    sqlAlphabet.Parses expectComparator Grammar.Comparator F := by
  have reads : sqlAlphabet.Parses expectComparator (Phrases.one comparatorTerminal) F := by
    apply Alphabet.Parses.one
    · intro op
      cases op <;> simp [sqlAlphabet, comparatorTerminal]
    · rintro ⟨type, text, intValue, position⟩ rest value isValue
      cases type <;> cases value <;> cases isValue <;> rfl
    · rintro ⟨type, text, intValue, position⟩ rest noValue
      cases type
      case kEq => exact absurd rfl (noValue .kEq)
      case kNeq => exact absurd rfl (noValue .kNeq)
      case kLt => exact absurd rfl (noValue .kLt)
      case kLe => exact absurd rfl (noValue .kLe)
      case kGt => exact absurd rfl (noValue .kGt)
      case kGe => exact absurd rfl (noValue .kGe)
      all_goals exact ⟨_, rfl, _, _, rfl⟩
  refine reads.of_iff fun sentence op => ?_
  constructor
  · rintro rfl
    cases op <;> constructor
  · rintro ⟨⟩ <;> rfl

theorem parses_parseColumnRef :
    sqlAlphabet.Parses parseColumnRef Grammar.ColumnRef fun t => t ≠ .symbol .kDot := by
  refine Alphabet.Parses.of_iff (Alphabet.Parses.bind parses_expectIdentifier (F := fun _ => True) (fun first =>
    Alphabet.Parses.take (takes_matchToken rfl (by decide)) parses_expectIdentifier.bind_pure
      (Alphabet.Parses.pure (ColumnRef.mk none first)) ?_) ?_) fun sentence ref => ?_
  · rintro _ _ t ⟨rfl, -⟩ noDot
    exact noDot
  · exact fun _ _ _ _ _ _ => trivial
  · constructor
    · rintro ⟨front, back, first, rfl, rfl, ⟨_, rfl, column, rfl, rfl⟩ | ⟨rfl, rfl⟩⟩
      · exact .qualified first column
      · exact .plain first
    · rintro ⟨⟩
      · rename_i column
        exact ⟨[.identifier column], [], column, rfl, rfl, .inr ⟨rfl, rfl⟩⟩
      · rename_i table column
        exact ⟨[.identifier table], [.symbol .kDot, .identifier column], table, rfl, rfl,
          .inl ⟨_, rfl, column, rfl, rfl⟩⟩

theorem parses_parsePredicate {F : Terminal → Prop} :
    sqlAlphabet.Parses parsePredicate Grammar.Predicate F := by
  refine Alphabet.Parses.of_iff (Alphabet.Parses.bind parses_parseColumnRef (fun column =>
    Alphabet.Parses.bind_any parses_expectComparator fun op => parses_expectLiteral.bind_pure) ?_)
    fun sentence predicate => ?_
  · rintro column _ _ t ⟨front, back, op, rfl, isOp, -⟩ _
    cases isOp <;> simp
  · constructor
    · rintro ⟨_, _, column, rfl, isColumn, _, _, op, rfl, isOp, value, isValue, rfl⟩
      exact .intro isColumn isOp isValue
    · rintro ⟨isColumn, isOp, isValue⟩
      exact ⟨_, _, _, rfl, isColumn, _, _, _, rfl, isOp, _, isValue, rfl⟩

theorem parses_separated {type : TokenType} {item : ParserM α} {L : Production α} {F G : Terminal → Prop}
    (isSymbol : type.isSymbol = true) (inside : type ≠ .kEndOfInput) (parses : sqlAlphabet.Parses item L F)
    (again : F (.symbol type)) (stops : ∀ t, G t → F t ∧ t ≠ .symbol type) :
    sqlAlphabet.Parses (separated type item) (Phrases.Separated (.symbol type) L) G :=
  Alphabet.Parses.separated (takes_matchToken isSymbol inside) parses again stops

theorem parses_parseOptionalWhereClause :
    sqlAlphabet.Parses parseOptionalWhereClause Grammar.Where fun t => t ≠ .symbol .kWhere ∧ t ≠ .symbol .kAnd := by
  have clause : sqlAlphabet.Parses parseWhereClause _ fun t => t ≠ .symbol .kWhere ∧ t ≠ .symbol .kAnd :=
    parses_expect rfl (by decide) (parses_separated rfl (by decide) (parses_parsePredicate (F := fun _ => True))
      trivial fun t follows => ⟨trivial, follows.2⟩)
  refine Alphabet.Parses.of_iff (Alphabet.Parses.see (sees_check rfl) clause (Alphabet.Parses.pure []) ?_ ?_)
    fun sentence predicates => ?_
  · rintro _ _ ⟨_, rfl, _⟩
    rfl
  · rintro _ _ t ⟨rfl, -⟩ follows
    exact follows.1
  · constructor
    · rintro (⟨_, rfl, are⟩ | ⟨rfl, rfl⟩)
      · exact .some are
      · exact .none
    · rintro (⟨⟩ | ⟨are⟩)
      · exact .inr ⟨rfl, rfl⟩
      · exact .inl ⟨_, rfl, are⟩

theorem parses_parsePrimaryKey (colName : String) (pk : Option String) :
    sqlAlphabet.Parses (parsePrimaryKey colName pk)
      (fun sentence found => (sentence = [.symbol .kPrimary, .symbol .kKey] ∧ pk = none ∧ found = some colName) ∨
        (sentence = [] ∧ found = pk)) fun t => t ≠ .symbol .kPrimary := by
  refine Alphabet.Parses.of_iff (Alphabet.Parses.take (takes_matchToken rfl (by decide))
    (L := fun sentence found => ∃ behind, sentence = .symbol .kKey :: behind ∧
      behind = [] ∧ pk = none ∧ found = some colName) ?_ (Alphabet.Parses.pure pk) ?_) fun sentence found => ?_
  · apply parses_expect rfl (by decide)
    cases pk with
    | none => exact (Alphabet.Parses.pure (some colName)).of_iff fun sentence found => by simp [Phrases.just]
    | some earlier =>
      refine Alphabet.Parses.of_iff (Alphabet.Parses.never fun input ends => ?_) fun sentence found => by simp
      obtain ⟨token, rest, rfl⟩ := ends.exists_cons
      exact ⟨_, rfl, _, _, rfl⟩
  · rintro _ _ t ⟨rfl, -⟩ follows
    exact follows
  · refine or_congr_left ⟨?_, ?_⟩
    · rintro ⟨_, rfl, _, rfl, rfl, rest⟩
      exact ⟨rfl, rest⟩
    · rintro ⟨rfl, rest⟩
      exact ⟨_, rfl, _, rfl, rfl, rest⟩

def addColumnDef (found : List ColumnDef × Option String) (column : ColumnDef × Bool) :
    Option (List ColumnDef × Option String) :=
  match column.2, found.2 with
  | false, pk => some (found.1 ++ [column.1], pk)
  | true, none => some (found.1 ++ [column.1], some column.1.name)
  | true, some _ => none

theorem parses_parseColumnDef (found : List ColumnDef × Option String) :
    sqlAlphabet.Parses (parseColumnDef found) (Phrases.folded Grammar.ColumnDef addColumnDef found)
      fun t => t ≠ .symbol .kPrimary := by
  refine Alphabet.Parses.of_iff (Alphabet.Parses.bind_any parses_expectIdentifier fun name =>
    Alphabet.Parses.bind_any parses_expectColumnType fun type =>
      (parses_parsePrimaryKey name found.2).bind_pure) fun sentence after => ?_
  obtain ⟨columns, pk⟩ := found
  constructor
  · rintro ⟨_, _, name, rfl, rfl, s, _, type, rfl, isType, _, ⟨rfl, unset, rfl⟩ | ⟨rfl, rfl⟩, rfl⟩
    · obtain rfl : pk = none := unset
      exact ⟨_, .primaryKey name isType, rfl⟩
    · rw [List.append_nil]
      exact ⟨_, .plain name isType, rfl⟩
  · rintro ⟨_, ⟨name, isType⟩ | ⟨name, isType⟩, added⟩
    · cases added
      exact ⟨[.identifier name], _, name, rfl, rfl, _, [], _, by rw [List.append_nil], isType, _,
        .inr ⟨rfl, rfl⟩, rfl⟩
    · cases pk with
      | some earlier => cases added
      | none =>
        cases added
        exact ⟨[.identifier name], _, name, rfl, rfl, _, _, _, rfl, isType, _, .inl ⟨rfl, rfl, rfl⟩, rfl⟩

theorem foldlM_addColumnDef (columns : List ColumnDef) (pk : Option String) (defs : List (ColumnDef × Bool))
    (after : List ColumnDef × Option String) :
    defs.foldlM addColumnDef (columns, pk) = some after ↔
      (pk.toList ++ Grammar.marked defs).length ≤ 1 ∧
        after = (columns ++ defs.map Prod.fst, (pk.toList ++ Grammar.marked defs).head?) := by
  induction defs generalizing columns pk with
  | nil => cases pk <;> simp [Grammar.marked, eq_comm]
  | cons column defs ih =>
    rw [List.foldlM_cons]
    obtain ⟨column, isKey⟩ := column
    cases isKey with
    | false => simp [addColumnDef, ih, Grammar.marked]
    | true =>
      cases pk with
      | none => simp [addColumnDef, ih, Grammar.marked]
      | some earlier => simp [addColumnDef, Grammar.marked]

theorem parses_parseColumnDefs :
    sqlAlphabet.Parses parseColumnDefs (fun sentence found => ∃ defs,
      Phrases.Separated (.symbol .kComma) Grammar.ColumnDef sentence defs ∧ (Grammar.marked defs).length ≤ 1 ∧
        found = (defs.map Prod.fst, (Grammar.marked defs).head?))
      fun t => t ≠ .symbol .kPrimary ∧ t ≠ .symbol .kComma := by
  refine Alphabet.Parses.of_iff (Alphabet.Parses.iterate_folded (takes_matchToken rfl (by decide))
    parses_parseColumnDef (by simp) (fun _ follows => follows) ([], none)) fun sentence found => ?_
  simp [foldlM_addColumnDef]

theorem parses_parseCreateTable {F : Terminal → Prop} :
    sqlAlphabet.Parses parseCreateTable (fun sentence stmt => ∃ table s defs,
      sentence = .symbol .kTable :: .identifier table :: .symbol .kLParen :: (s ++ [.symbol .kRParen]) ∧
      Phrases.Separated (.symbol .kComma) Grammar.ColumnDef s defs ∧ (Grammar.marked defs).length ≤ 1 ∧
        stmt = ⟨table, defs.map Prod.fst, (Grammar.marked defs).head?⟩) F := by
  refine Alphabet.Parses.of_iff (parses_expect rfl (by decide) (Alphabet.Parses.bind_any parses_expectIdentifier
    fun table => parses_expect rfl (by decide) (Alphabet.Parses.bind parses_parseColumnDefs (fun found =>
      parses_expect rfl (by decide) (Alphabet.Parses.pure (CreateTableStatement.mk table found.1 found.2))) ?_)))
    fun sentence stmt => ?_
  · rintro found _ _ t ⟨_, rfl, -⟩ _
    simp
  · constructor
    · rintro ⟨_, rfl, _, _, table, rfl, rfl, _, rfl, s, _, _, rfl, ⟨defs, are, atMostOne, rfl⟩, _, rfl, rfl, rfl⟩
      exact ⟨table, s, defs, rfl, are, atMostOne, rfl⟩
    · rintro ⟨table, s, defs, rfl, are, atMostOne, rfl⟩
      exact ⟨_, rfl, [.identifier table], _, table, rfl, rfl, _, rfl, s, _, _, rfl, ⟨defs, are, atMostOne, rfl⟩,
        _, rfl, rfl, rfl⟩

theorem parses_parseCreateIndex {F : Terminal → Prop} :
    sqlAlphabet.Parses parseCreateIndex (fun sentence stmt => ∃ index table column,
      sentence = [.symbol .kIndex, .identifier index, .symbol .kOn, .identifier table, .symbol .kLParen,
        .identifier column, .symbol .kRParen] ∧ stmt = ⟨index, table, column⟩) F := by
  refine Alphabet.Parses.of_iff (parses_expect rfl (by decide) (Alphabet.Parses.bind_any parses_expectIdentifier
    fun index => parses_expect rfl (by decide) (Alphabet.Parses.bind_any parses_expectIdentifier
    fun table => parses_expect rfl (by decide) (Alphabet.Parses.bind_any parses_expectIdentifier
    fun column => parses_expect rfl (by decide) (Alphabet.Parses.pure (CreateIndexStatement.mk index table column))))))
    fun sentence stmt => ?_
  constructor
  · rintro ⟨_, rfl, _, _, index, rfl, rfl, _, rfl, _, _, table, rfl, rfl, _, rfl, _, _, column, rfl, rfl, _, rfl,
      rfl, rfl⟩
    exact ⟨index, table, column, rfl, rfl⟩
  · rintro ⟨index, table, column, rfl, rfl⟩
    exact ⟨_, rfl, [.identifier index], _, index, rfl, rfl, _, rfl, [.identifier table], _, table, rfl, rfl, _, rfl,
      [.identifier column], _, column, rfl, rfl, _, rfl, rfl, rfl⟩

theorem parses_parseInsert {F : Terminal → Prop} :
    sqlAlphabet.Parses parseInsert (fun sentence stmt => ∃ table s values,
      sentence = .symbol .kInto :: .identifier table :: .symbol .kValues :: .symbol .kLParen ::
        (s ++ [.symbol .kRParen]) ∧
      Phrases.Separated (.symbol .kComma) Grammar.Literal s values ∧ stmt = ⟨table, values⟩) F := by
  refine Alphabet.Parses.of_iff (parses_expect rfl (by decide) (Alphabet.Parses.bind_any parses_expectIdentifier
    fun table => parses_expect rfl (by decide) (parses_expect rfl (by decide) (Alphabet.Parses.bind
      (parses_separated rfl (by decide) (parses_expectLiteral (F := fun _ => True)) trivial
        fun t (follows : t ≠ .symbol .kComma) => ⟨trivial, follows⟩)
      (fun values => parses_expect rfl (by decide) (Alphabet.Parses.pure (InsertStatement.mk table values))) ?_))))
    fun sentence stmt => ?_
  · rintro found _ _ t ⟨_, rfl, -⟩ _
    simp
  · constructor
    · rintro ⟨_, rfl, _, _, table, rfl, rfl, _, rfl, _, rfl, s, _, values, rfl, are, _, rfl, rfl, rfl⟩
      exact ⟨table, s, values, rfl, are, rfl⟩
    · rintro ⟨table, s, values, rfl, are, rfl⟩
      exact ⟨_, rfl, [.identifier table], _, table, rfl, rfl, _, rfl, _, rfl, s, _, values, rfl, are, _, rfl, rfl,
        rfl⟩

theorem parses_parseAssignment {F : Terminal → Prop} :
    sqlAlphabet.Parses parseAssignment Grammar.Assignment F := by
  refine Alphabet.Parses.of_iff (Alphabet.Parses.bind_any parses_expectIdentifier fun column =>
    parses_expect rfl (by decide) parses_expectLiteral.bind_pure) fun sentence assignment => ?_
  constructor
  · rintro ⟨_, _, column, rfl, rfl, _, rfl, value, isValue, rfl⟩
    exact .intro column isValue
  · rintro ⟨column, isValue⟩
    exact ⟨[.identifier column], _, column, rfl, rfl, _, rfl, _, isValue, rfl⟩

theorem parses_parseUpdate :
    sqlAlphabet.Parses parseUpdate (fun sentence stmt => ∃ table s₁ s₂ assignments predicates,
      sentence = .identifier table :: .symbol .kSet :: (s₁ ++ s₂) ∧
      Phrases.Separated (.symbol .kComma) Grammar.Assignment s₁ assignments ∧ Grammar.Where s₂ predicates ∧
        stmt = ⟨table, assignments, predicates⟩)
      fun t => t ≠ .symbol .kComma ∧ t ≠ .symbol .kWhere ∧ t ≠ .symbol .kAnd := by
  refine Alphabet.Parses.of_iff (Alphabet.Parses.bind_any parses_expectIdentifier fun table =>
    parses_expect rfl (by decide) (Alphabet.Parses.bind
      (parses_separated rfl (by decide) (parses_parseAssignment (F := fun _ => True)) trivial
        fun t (follows : t ≠ .symbol .kComma) => ⟨trivial, follows⟩)
      (fun assignments => (parses_parseOptionalWhereClause.of_follow fun t follows => follows.2).bind_pure) ?_))
    fun sentence stmt => ?_
  · rintro assignments _ _ t ⟨predicates, ⟨⟩ | _, -⟩ follows
    · exact follows.1
    · simp
  · constructor
    · rintro ⟨_, _, table, rfl, rfl, _, rfl, s₁, s₂, assignments, rfl, are, predicates, isWhere, rfl⟩
      exact ⟨table, s₁, s₂, assignments, predicates, rfl, are, isWhere, rfl⟩
    · rintro ⟨table, s₁, s₂, assignments, predicates, rfl, are, isWhere, rfl⟩
      exact ⟨[.identifier table], _, table, rfl, rfl, _, rfl, s₁, s₂, assignments, rfl, are, predicates, isWhere,
        rfl⟩

theorem parses_parseDelete :
    sqlAlphabet.Parses parseDelete (fun sentence stmt => ∃ table s predicates,
      sentence = .symbol .kFrom :: .identifier table :: s ∧ Grammar.Where s predicates ∧
        stmt = ⟨table, predicates⟩) fun t => t ≠ .symbol .kWhere ∧ t ≠ .symbol .kAnd := by
  refine Alphabet.Parses.of_iff (parses_expect rfl (by decide) (Alphabet.Parses.bind_any parses_expectIdentifier
    fun table => parses_parseOptionalWhereClause.bind_pure)) fun sentence stmt => ?_
  constructor
  · rintro ⟨_, rfl, _, s, table, rfl, rfl, predicates, isWhere, rfl⟩
    exact ⟨table, s, predicates, rfl, isWhere, rfl⟩
  · rintro ⟨table, s, predicates, rfl, isWhere, rfl⟩
    exact ⟨_, rfl, [.identifier table], s, table, rfl, rfl, predicates, isWhere, rfl⟩

theorem parses_parseOptionalJoin :
    sqlAlphabet.Parses parseOptionalJoin Grammar.Join fun t => t ≠ .symbol .kJoin ∧ t ≠ .symbol .kDot := by
  have clause : sqlAlphabet.Parses parseJoinClause (fun sentence join => ∃ table s₁ s₂ left right,
      sentence = .symbol .kJoin :: .identifier table :: .symbol .kOn :: (s₁ ++ .symbol .kEq :: s₂) ∧
      Grammar.ColumnRef s₁ left ∧ Grammar.ColumnRef s₂ right ∧ join = ⟨table, left, right⟩)
      fun t => t ≠ .symbol .kJoin ∧ t ≠ .symbol .kDot := by
    refine Alphabet.Parses.of_iff (parses_expect rfl (by decide) (Alphabet.Parses.bind_any parses_expectIdentifier
      fun table => parses_expect rfl (by decide) (Alphabet.Parses.bind parses_parseColumnRef (fun left =>
        parses_expect rfl (by decide) (parses_parseColumnRef.of_follow fun t follows => follows.2).bind_pure) ?_)))
      fun sentence join => ?_
    · rintro left _ _ t ⟨_, rfl, -⟩ _
      simp
    · constructor
      · rintro ⟨_, rfl, _, _, table, rfl, rfl, _, rfl, s₁, _, left, rfl, isLeft, s₂, rfl, right, isRight, rfl⟩
        exact ⟨table, s₁, s₂, left, right, rfl, isLeft, isRight, rfl⟩
      · rintro ⟨table, s₁, s₂, left, right, rfl, isLeft, isRight, rfl⟩
        exact ⟨_, rfl, [.identifier table], _, table, rfl, rfl, _, rfl, s₁, _, left, rfl, isLeft, s₂, rfl, right,
          isRight, rfl⟩
  refine Alphabet.Parses.of_iff (Alphabet.Parses.see (sees_check rfl) clause.bind_pure (Alphabet.Parses.pure none)
    ?_ ?_) fun sentence join => ?_
  · rintro _ _ ⟨_, ⟨_, _, _, _, _, rfl, -⟩, -⟩
    rfl
  · rintro _ _ t ⟨rfl, -⟩ follows
    exact follows.1
  · constructor
    · rintro (⟨_, ⟨table, s₁, s₂, left, right, rfl, isLeft, isRight, rfl⟩, rfl⟩ | ⟨rfl, rfl⟩)
      · exact .some table isLeft isRight
      · exact .none
    · rintro (⟨⟩ | ⟨table, isLeft, isRight⟩)
      · exact .inr ⟨rfl, rfl⟩
      · exact .inl ⟨_, ⟨table, _, _, _, _, rfl, isLeft, isRight, rfl⟩, rfl⟩

theorem parses_parseSelectList :
    sqlAlphabet.Parses parseSelectList Grammar.SelectList fun t => t ≠ .symbol .kDot ∧ t ≠ .symbol .kComma := by
  have columns : sqlAlphabet.Parses (separated .kComma parseColumnRef) _
      fun t => t ≠ .symbol .kDot ∧ t ≠ .symbol .kComma :=
    parses_separated rfl (by decide) parses_parseColumnRef (by simp) fun t follows => follows
  refine Alphabet.Parses.of_iff (Alphabet.Parses.take (takes_matchToken rfl (by decide))
    (Alphabet.Parses.pure (true, ([] : List ColumnRef))) columns.bind_pure ?_) fun sentence selected => ?_
  · rintro _ _ t ⟨_, are, -⟩ _
    rcases are with ⟨⟨⟩⟩ | ⟨⟨⟩, _⟩ <;> simp
  · constructor
    · rintro (⟨_, rfl, rfl, rfl⟩ | ⟨columns, are, rfl⟩)
      · exact .star
      · exact .columns are
    · rintro (_ | are)
      · exact .inl ⟨[], rfl, rfl, rfl⟩
      · exact .inr ⟨_, are, rfl⟩

def Closes (t : Terminal) : Prop := t = .symbol .kSemicolon ∨ t = .symbol .kEndOfInput

theorem Closes.ne {t : Terminal} (closes : Closes t) {type : TokenType} (other : type ≠ .kSemicolon)
    (inside : type ≠ .kEndOfInput) : t ≠ .symbol type := by
  rcases closes with rfl | rfl
  · simpa using other.symm
  · simpa using inside.symm

theorem parses_parseSelect :
    sqlAlphabet.Parses parseSelect (fun sentence stmt => ∃ table s₁ s₂ s₃ selected join predicates,
      sentence = s₁ ++ .symbol .kFrom :: .identifier table :: (s₂ ++ s₃) ∧ Grammar.SelectList s₁ selected ∧
      Grammar.Join s₂ join ∧ Grammar.Where s₃ predicates ∧
        stmt = ⟨selected.1, selected.2, table, join, predicates⟩) Closes := by
  have condition : sqlAlphabet.Parses parseOptionalWhereClause Grammar.Where Closes :=
    parses_parseOptionalWhereClause.of_follow fun t closes =>
      ⟨closes.ne (by decide) (by decide), closes.ne (by decide) (by decide)⟩
  refine Alphabet.Parses.of_iff (Alphabet.Parses.bind parses_parseSelectList (fun selected =>
    parses_expect rfl (by decide) (Alphabet.Parses.bind_any parses_expectIdentifier fun table =>
      Alphabet.Parses.bind parses_parseOptionalJoin (fun join => condition.bind_pure) ?_)) ?_) fun sentence stmt => ?_
  · rintro join _ _ t ⟨predicates, ⟨⟩ | _, -⟩ closes
    · exact ⟨closes.ne (by decide) (by decide), closes.ne (by decide) (by decide)⟩
    · simp
  · rintro selected _ _ t ⟨_, rfl, -⟩ _
    simp
  · constructor
    · rintro ⟨s₁, _, selected, rfl, isList, _, rfl, _, _, table, rfl, rfl, s₂, s₃, join, rfl, isJoin, predicates,
        isWhere, rfl⟩
      exact ⟨table, s₁, s₂, s₃, selected, join, predicates, rfl, isList, isJoin, isWhere, rfl⟩
    · rintro ⟨table, s₁, s₂, s₃, selected, join, predicates, rfl, isList, isJoin, isWhere, rfl⟩
      exact ⟨s₁, _, selected, rfl, isList, _, rfl, [.identifier table], _, table, rfl, rfl, s₂, s₃, join, rfl, isJoin,
        predicates, isWhere, rfl⟩

theorem parses_parseCreate {F : Terminal → Prop} :
    sqlAlphabet.Parses parseCreate (fun sentence stmt => Grammar.Statement (.symbol .kCreate :: sentence) stmt) F := by
  refine Alphabet.Parses.of_iff (Alphabet.Parses.see (sees_check rfl) parses_parseCreateTable.bind_pure
    (Alphabet.Parses.see (sees_check rfl) parses_parseCreateIndex.bind_pure (parses_unexpected _ _) ?_ ?_) ?_ ?_)
    fun sentence stmt => ?_
  · rintro _ _ ⟨_, ⟨_, _, _, rfl, -⟩, -⟩
    rfl
  · rintro _ _ _ ⟨⟩
  · rintro _ _ ⟨_, ⟨_, _, _, rfl, -⟩, -⟩
    rfl
  · rintro _ _ _ (⟨_, ⟨_, _, _, rfl, -⟩, -⟩ | impossible) _
    · simp
    · exact impossible.elim
  · constructor
    · rintro (⟨_, ⟨table, s, defs, rfl, are, atMostOne, rfl⟩, rfl⟩ | ⟨_, ⟨index, table, column, rfl, rfl⟩, rfl⟩ |
        impossible)
      · exact .createTable table are atMostOne
      · exact .createIndex index table column
      · exact impossible.elim
    · intro means
      cases means with
      | createTable table are atMostOne => exact .inl ⟨_, ⟨table, _, _, rfl, are, atMostOne, rfl⟩, rfl⟩
      | createIndex index table column => exact .inr (.inl ⟨_, ⟨index, table, column, rfl, rfl⟩, rfl⟩)

theorem parses_branch (type : TokenType) (isSymbol : type.isSymbol = true) (inside : type ≠ .kEndOfInput)
    {yes no : ParserM Statement} {rest : List TokenType}
    (ifYes : sqlAlphabet.Parses yes (fun sentence stmt => Grammar.Statement (.symbol type :: sentence) stmt) Closes)
    (ifNo : sqlAlphabet.Parses no (fun sentence stmt => Grammar.Statement sentence stmt ∧
      ∃ first ∈ rest, sentence.head? = some (.symbol first)) Closes) (apart : type ∉ rest) :
    sqlAlphabet.Parses (matchToken type >>= fun taken => if taken then yes else no)
      (fun sentence stmt => Grammar.Statement sentence stmt ∧
        ∃ first ∈ type :: rest, sentence.head? = some (.symbol first)) Closes := by
  refine Alphabet.Parses.of_iff (Alphabet.Parses.take (takes_matchToken isSymbol inside) ifYes ifNo ?_)
    fun sentence stmt => ?_
  · rintro sentence stmt t ⟨-, first, member, starts⟩ -
    rw [List.headD_eq_head?_getD, starts]
    simp only [Option.getD_some, ne_eq, Terminal.symbol.injEq]
    rintro rfl
    exact apart member
  · constructor
    · rintro (⟨behind, rfl, means⟩ | ⟨means, first, member, starts⟩)
      · exact ⟨means, type, List.mem_cons_self, rfl⟩
      · exact ⟨means, first, List.mem_cons_of_mem _ member, starts⟩
    · rintro ⟨means, first, member, starts⟩
      rcases List.mem_cons.mp member with rfl | later
      · obtain ⟨behind, rfl⟩ := List.head?_eq_some_iff.mp starts
        exact .inl ⟨behind, rfl, means⟩
      · exact .inr ⟨means, first, later, starts⟩

theorem parses_return {type : TokenType} {stmt : Statement}
    (only : ∀ sentence other, Grammar.Statement (.symbol type :: sentence) other ↔ sentence = [] ∧ other = stmt) :
    sqlAlphabet.Parses (pure stmt : ParserM Statement)
      (fun sentence stmt => Grammar.Statement (.symbol type :: sentence) stmt) Closes :=
  (Alphabet.Parses.pure stmt).of_iff fun sentence other => (only sentence other).symm

theorem parses_insert : sqlAlphabet.Parses (parseInsert >>= fun stmt => pure (Statement.insert stmt))
    (fun sentence stmt => Grammar.Statement (.symbol .kInsert :: sentence) stmt) Closes := by
  refine parses_parseInsert.bind_pure.of_iff fun sentence stmt => ⟨?_, fun means => ?_⟩
  · rintro ⟨_, ⟨table, s, values, rfl, are, rfl⟩, rfl⟩
    exact .insert table are
  · cases means with
    | insert table are => exact ⟨_, ⟨table, _, _, rfl, are, rfl⟩, rfl⟩

theorem parses_select : sqlAlphabet.Parses (parseSelect >>= fun stmt => pure (Statement.select stmt))
    (fun sentence stmt => Grammar.Statement (.symbol .kSelect :: sentence) stmt) Closes := by
  refine parses_parseSelect.bind_pure.of_iff fun sentence stmt => ⟨?_, fun means => ?_⟩
  · rintro ⟨_, ⟨table, s₁, s₂, s₃, selected, join, predicates, rfl, isList, isJoin, isWhere, rfl⟩, rfl⟩
    exact .select table isList isJoin isWhere
  · cases means with
    | select table isList isJoin isWhere =>
      exact ⟨_, ⟨table, _, _, _, _, _, _, rfl, isList, isJoin, isWhere, rfl⟩, rfl⟩

theorem parses_update : sqlAlphabet.Parses (parseUpdate >>= fun stmt => pure (Statement.update stmt))
    (fun sentence stmt => Grammar.Statement (.symbol .kUpdate :: sentence) stmt) Closes := by
  have reads := parses_parseUpdate.of_follow fun t (closes : Closes t) =>
    ⟨closes.ne (by decide) (by decide), closes.ne (by decide) (by decide), closes.ne (by decide) (by decide)⟩
  refine reads.bind_pure.of_iff fun sentence stmt => ⟨?_, fun means => ?_⟩
  · rintro ⟨_, ⟨table, s₁, s₂, assignments, predicates, rfl, are, isWhere, rfl⟩, rfl⟩
    exact .update table are isWhere
  · cases means with
    | update table are isWhere => exact ⟨_, ⟨table, _, _, _, _, rfl, are, isWhere, rfl⟩, rfl⟩

theorem parses_delete : sqlAlphabet.Parses (parseDelete >>= fun stmt => pure (Statement.delete stmt))
    (fun sentence stmt => Grammar.Statement (.symbol .kDelete :: sentence) stmt) Closes := by
  have reads := parses_parseDelete.of_follow fun t (closes : Closes t) =>
    ⟨closes.ne (by decide) (by decide), closes.ne (by decide) (by decide)⟩
  refine reads.bind_pure.of_iff fun sentence stmt => ⟨?_, fun means => ?_⟩
  · rintro ⟨_, ⟨table, s, predicates, rfl, isWhere, rfl⟩, rfl⟩
    exact .delete table isWhere
  · cases means with
    | delete table isWhere => exact ⟨_, ⟨table, _, _, rfl, isWhere, rfl⟩, rfl⟩

theorem parses_parseOneStatement : sqlAlphabet.Parses parseOneStatement Grammar.Statement Closes := by
  have otherwise : sqlAlphabet.Parses (unexpected ("expected a statement (CREATE, INSERT, SELECT, UPDATE, DELETE, " ++
      "BEGIN, COMMIT, or ROLLBACK), got ") : ParserM Statement) (fun sentence stmt =>
        Grammar.Statement sentence stmt ∧ ∃ first ∈ ([] : List TokenType), sentence.head? = some (.symbol first))
      Closes :=
    (parses_unexpected _ _).of_iff fun sentence stmt => by simp
  have onRollback := parses_branch .kRollback rfl (by decide) (parses_return fun sentence stmt =>
    ⟨by rintro ⟨⟩; exact ⟨rfl, rfl⟩, by rintro ⟨rfl, rfl⟩; exact .rollback⟩) otherwise (by decide)
  have onCommit := parses_branch .kCommit rfl (by decide) (parses_return fun sentence stmt =>
    ⟨by rintro ⟨⟩; exact ⟨rfl, rfl⟩, by rintro ⟨rfl, rfl⟩; exact .commit⟩) onRollback (by decide)
  have onBegin := parses_branch .kBegin rfl (by decide) (parses_return fun sentence stmt =>
    ⟨by rintro ⟨⟩; exact ⟨rfl, rfl⟩, by rintro ⟨rfl, rfl⟩; exact .begin⟩) onCommit (by decide)
  have onDelete := parses_branch .kDelete rfl (by decide) parses_delete onBegin (by decide)
  have onUpdate := parses_branch .kUpdate rfl (by decide) parses_update onDelete (by decide)
  have onSelect := parses_branch .kSelect rfl (by decide) parses_select onUpdate (by decide)
  have onInsert := parses_branch .kInsert rfl (by decide) parses_insert onSelect (by decide)
  have create := parses_branch .kCreate rfl (by decide) parses_parseCreate onInsert (by decide)
  refine create.of_iff fun sentence stmt => ⟨And.left, fun means => ⟨means, ?_⟩⟩
  cases means <;> simp

-- What is left to do once the statement is read.
def finish (stmt : Statement) : ParserM Statement := do
  let _ ← matchToken .kSemicolon
  if ← check .kEndOfInput then return stmt
  else unexpected "unexpected trailing input after statement (got " ")"

theorem exec_finish_end {stmt : Statement} (isEnd : token.type = .kEndOfInput) :
    (finish stmt).exec (token :: rest) = (.ok stmt, token :: rest) := by
  have noSemicolon : token.type ≠ .kSemicolon := by
    rw [isEnd]
    decide
  rw [finish, Fallible.exec_bind_ok (exec_matchToken_ne noSemicolon), Fallible.exec_bind_ok (exec_check _),
    decide_eq_true isEnd]
  rfl

theorem exec_finish_semicolon {stmt : Statement} {next : Token} (isSemicolon : token.type = .kSemicolon)
    (isEnd : next.type = .kEndOfInput) :
    (finish stmt).exec (token :: next :: rest) = (.ok stmt, next :: rest) := by
  rw [finish, Fallible.exec_bind_ok (exec_matchToken isSemicolon (by decide)), Fallible.exec_bind_ok (exec_check _),
    decide_eq_true isEnd]
  rfl

theorem exec_finish (stmt : Statement) {left : List Token} (ends : sqlAlphabet.Terminated left) :
    (∃ closing, (finish stmt).exec left = (.ok stmt, [closing]) ∧
      (left.map Token.terminal = [.symbol .kEndOfInput] ∨
        left.map Token.terminal = [.symbol .kSemicolon, .symbol .kEndOfInput])) ∨
    ∃ e behind, (finish stmt).exec left = (.error e, behind) ∧ sqlAlphabet.Complains e := by
  obtain ⟨token, rest, rfl⟩ := ends.exists_cons
  by_cases isEnd : token.type = .kEndOfInput
  · have isLast : token.terminal = .symbol .kEndOfInput := Token.terminal_ending.mpr isEnd
    obtain rfl := ends.eq_nil isLast
    exact .inl ⟨token, exec_finish_end isEnd, .inl (by simp [isLast])⟩
  by_cases isSemicolon : token.type = .kSemicolon
  · have isMark : token.terminal = .symbol .kSemicolon := (Token.terminal_eq_symbol rfl).mpr isSemicolon
    have endsThen := ends.tail (mt Token.terminal_ending.mp isEnd)
    obtain ⟨next, rest, rfl⟩ := endsThen.exists_cons
    by_cases isEnd : next.type = .kEndOfInput
    · have isLast : next.terminal = .symbol .kEndOfInput := Token.terminal_ending.mpr isEnd
      obtain rfl := endsThen.eq_nil isLast
      exact .inl ⟨next, exec_finish_semicolon isSemicolon isEnd, .inr (by simp [isMark, isLast])⟩
    · rw [finish, Fallible.exec_bind_ok (exec_matchToken isSemicolon (by decide)),
        Fallible.exec_bind_ok (exec_check _), decide_eq_false isEnd]
      exact .inr ⟨_, _, rfl, _, _, rfl⟩
  · rw [finish, Fallible.exec_bind_ok (exec_matchToken_ne isSemicolon), Fallible.exec_bind_ok (exec_check _),
      decide_eq_false isEnd]
    exact .inr ⟨_, _, rfl, _, _, rfl⟩

theorem parseStatementTopLevel_ok_iff {tokens : List Token} (ends : sqlAlphabet.Terminated tokens)
    (stmt : Statement) : (parseStatementTopLevel.exec tokens).1 = .ok stmt ↔
      ∃ sentence, tokens.map Token.terminal = sentence ++ [.symbol .kEndOfInput] ∧ Grammar.Input sentence stmt := by
  have split : parseStatementTopLevel = parseOneStatement >>= finish := rfl
  rw [split]
  constructor
  · intro done
    rw [Fallible.exec_bind] at done
    split at done
    · rename_i read left parsed
      obtain ⟨endsThen, front, rfl, means⟩ := parses_parseOneStatement.returns _ read left ends parsed
      rcases exec_finish read endsThen with ⟨closing, finished, atEnd | atSemicolon⟩ | ⟨e, _, thrown, -⟩
      · rw [finished] at done
        cases done
        exact ⟨front.map Token.terminal, by rw [List.map_append, atEnd], .inl means⟩
      · rw [finished] at done
        cases done
        exact ⟨front.map Token.terminal ++ [.symbol .kSemicolon], by rw [List.map_append, atSemicolon]; simp,
          .inr ⟨_, rfl, means⟩⟩
      · rw [thrown] at done
        cases done
    · cases done
  · rintro ⟨sentence, view, means | ⟨front, rfl, means⟩⟩
    · obtain ⟨fronts, lasts, rfl, rfl, last⟩ := List.map_eq_append_iff.mp view
      obtain ⟨next, rfl, isLast⟩ := List.map_eq_singleton_iff.mp last
      rw [Fallible.exec_bind_ok (parses_parseOneStatement.complete fronts next [] stmt means (.inr isLast)),
        exec_finish_end (Token.terminal_ending.mp isLast)]
    · obtain ⟨front', lasts, rfl, marked, last⟩ := List.map_eq_append_iff.mp view
      obtain ⟨fronts, marks, rfl, rfl, mark⟩ := List.map_eq_append_iff.mp marked
      obtain ⟨next, rfl, isLast⟩ := List.map_eq_singleton_iff.mp last
      obtain ⟨semicolon, rfl, isMark⟩ := List.map_eq_singleton_iff.mp mark
      rw [List.append_assoc, List.singleton_append,
        Fallible.exec_bind_ok (parses_parseOneStatement.complete fronts semicolon [next] stmt
        means (.inl isMark)), exec_finish_semicolon ((Token.terminal_eq_symbol rfl).mp isMark)
          (Token.terminal_ending.mp isLast)]

theorem parseStatementTopLevel_throws {tokens : List Token} (ends : sqlAlphabet.Terminated tokens) {e : ParseException}
    (thrown : (parseStatementTopLevel.exec tokens).1 = .error e) : sqlAlphabet.Complains e := by
  have split : parseStatementTopLevel = parseOneStatement >>= finish := rfl
  rw [split, Fallible.exec_bind] at thrown
  split at thrown
  · rename_i read left parsed
    obtain ⟨endsThen, -⟩ := parses_parseOneStatement.returns _ read left ends parsed
    rcases exec_finish read endsThen with ⟨closing, finished, -⟩ | ⟨e', _, complaint, isComplaint⟩
    · rw [finished] at thrown
      cases thrown
    · rw [complaint] at thrown
      cases thrown
      exact isComplaint
  · rename_i complaint
    cases thrown
    exact parses_parseOneStatement.throws _ _ _ ends complaint

end Parser

/-- The tokens of a text derive a statement. -/
def Derives (sql : Bytes) (stmt : Statement) : Prop :=
  ∃ tokens, tokenize sql = .ok tokens ∧
    ∃ sentence, tokens.map Token.terminal = sentence ++ [.symbol .kEndOfInput] ∧ Grammar.Input sentence stmt

theorem parse_ok_iff (sql : Bytes) (stmt : Statement) : parse sql = .ok stmt ↔ Derives sql stmt := by
  rw [parse]
  cases lexed : tokenize sql with
  | error e => simp [Derives, lexed, bind, Except.bind]
  | ok tokens =>
    simp only [Derives, lexed, Except.ok.injEq, exists_eq_left', bind, Except.bind]
    exact Parser.parseStatementTopLevel_ok_iff (tokenize_ends lexed) stmt

theorem parse_throws {sql : Bytes} {e : ParseException} (thrown : parse sql = .error e) :
    ∃ message position, e = .sqlSyntaxError message position := by
  rw [parse] at thrown
  cases lexed : tokenize sql with
  | error e' =>
    rw [lexed] at thrown
    cases thrown
    exact tokenize_throws lexed
  | ok tokens =>
    rw [lexed] at thrown
    exact Parser.parseStatementTopLevel_throws (tokenize_ends lexed) thrown

end FlintDB
