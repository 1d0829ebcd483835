import FlintDB.Lib.Decimal
import FlintDB.Sql.Parsing
import FlintDB.Sql.Rendering

set_option autoImplicit false

-- Keywords in upper case, and one blank behind every token.

namespace FlintDB

open Lib

def naturalText (n : Nat) : Bytes := bytesOf n.repr

def integerText (value : Int) : Bytes :=
  if value < 0 then 45 :: naturalText value.natAbs else naturalText value.natAbs

def Terminal.text : Terminal → Bytes
  | symbol type => symbolText type
  | identifier name => bytesOf name
  | integerLiteral value => integerText value.toInt
  | stringLiteral value => 39 :: (doubleQuotes value ++ [39])

def Terminal.Printable : Terminal → Prop
  | symbol type => type.isSymbol = true ∧ type ≠ .kEndOfInput
  | identifier name => IsIdentifier name
  | integerLiteral _ => True
  | stringLiteral _ => True

def sentenceText (sentence : List Terminal) : Bytes := sentence.flatMap fun terminal => terminal.text ++ [32]

def Terminal.Lexed (terminal : Terminal) : Prop :=
  ∀ start rest, ∃ c behind token, terminal.text = c :: behind ∧ isWhitespace c = false ∧
    nextToken start c (behind ++ 32 :: rest) = .ok (token, 32 :: rest) ∧ token.terminal = terminal

theorem lexed_of_lexeme {terminal : Terminal} {l : Lexeme} (text : l.text = terminal.text) (valid : l.Valid)
    (inRange : l.InRange) (stands : ∀ start, (l.token start).terminal = terminal) :
    terminal.Lexed := by
  intro start rest
  obtain ⟨c, behind, begins, noSpace, lexed⟩ := valid.lexes start inRange (stops_cons (c := 32) rest rfl)
  exact ⟨c, behind, _, text.symm.trans begins, noSpace, lexed, stands start⟩

theorem lexed_identifier {name : String} (identifier : IsIdentifier name) : (Terminal.identifier name).Lexed := by
  obtain ⟨same, word, noKeyword⟩ := identifier
  refine lexed_of_lexeme (l := .identifier (bytesOf name)) rfl ⟨word, fun type isKeyword spelled => ?_⟩ trivial
    fun start => ?_
  · rw [findKeyword_of_upper isKeyword spelled] at noKeyword
    cases noKeyword
  · show Terminal.identifier (asString (bytesOf name)) = _
    rw [same]

theorem lexed_keyword {type : TokenType} (isKeyword : type.isKeyword = true)
    (upper : toUpper (symbolText type) = bytesOf (tokenTypeName type))
    (stands : ∀ text start, (Token.mk type text 0 start).terminal = .symbol type) : (Terminal.symbol type).Lexed :=
  lexed_of_lexeme (l := .keyword type (symbolText type)) rfl ⟨isKeyword, upper⟩ trivial fun start => stands _ start

theorem lexed_symbol {type : TokenType} (isSymbol : type.isSymbol = true) (inside : type ≠ .kEndOfInput) :
    (Terminal.symbol type).Lexed := by
  cases type
  case kIdentifier | kIntegerLiteral | kStringLiteral => cases isSymbol
  case kEndOfInput => exact absurd rfl inside
  case kLParen | kRParen | kComma | kDot | kStar | kEq | kNeq | kLt | kLe | kGt | kGe | kSemicolon =>
    exact lexed_of_lexeme (l := .mark _) rfl rfl trivial fun start => rfl
  all_goals exact lexed_keyword rfl (by decide) fun text start => rfl

theorem lexed_stringLiteral (value : Bytes) : (Terminal.stringLiteral value).Lexed :=
  lexed_of_lexeme (l := .stringLiteral value) rfl trivial trivial fun _ => rfl

theorem naturalText_eq (n : Nat) : naturalText n = Decimal.text n := by
  rw [naturalText, bytesOf, Nat.toList_repr]
  rfl

theorem naturalText_digits (n : Nat) : naturalText n ≠ [] ∧ ∀ c ∈ naturalText n, isDigit c = true := by
  rw [naturalText_eq]
  exact ⟨Decimal.text_ne_nil n, Decimal.text_digits n⟩

theorem digitsValue_naturalText (n : Nat) : digitsValue (naturalText n) = n := by
  rw [naturalText_eq]
  exact Decimal.value_text n

theorem integerValue_naturalText (value : Int) :
    Lexeme.integerValue (decide (value < 0)) (naturalText value.natAbs) = value := by
  rw [Lexeme.integerValue, digitsValue_naturalText]
  by_cases negative : value < 0
  · rw [decide_eq_true negative, if_pos rfl]
    omega
  · rw [decide_eq_false negative, if_neg Bool.false_ne_true]
    omega

theorem lexed_integerLiteral (value : Int64) : (Terminal.integerLiteral value).Lexed := by
  have number := integerValue_naturalText value.toInt
  refine lexed_of_lexeme (l := .integerLiteral (decide (value.toInt < 0)) (naturalText value.toInt.natAbs)) ?_
    (naturalText_digits _) ?_ fun start => ?_
  · simp only [Lexeme.text, decide_eq_true_eq]
    rfl
  · rw [Lexeme.InRange, number]
    exact ⟨Int64.le_toInt value, Int64.toInt_lt value⟩
  · show Terminal.integerLiteral (Int64.ofInt (Lexeme.integerValue _ _)) = _
    rw [number, Int64.ofInt_toInt]

theorem Terminal.Printable.lexed {terminal : Terminal} (printable : terminal.Printable) : terminal.Lexed := by
  cases terminal with
  | symbol type => exact lexed_symbol printable.1 printable.2
  | identifier name => exact lexed_identifier printable
  | integerLiteral value => exact lexed_integerLiteral value
  | stringLiteral value => exact lexed_stringLiteral value

theorem tokenizeFrom_sentenceText {sentence : List Terminal} (printable : ∀ terminal ∈ sentence, terminal.Printable)
    (pos : Nat) : ∃ tokens, tokenizeFrom pos (sentenceText sentence) = .ok tokens ∧
      tokens.map Token.terminal = sentence ++ [.symbol .kEndOfInput] := by
  induction sentence generalizing pos with
  | nil => exact ⟨_, rfl, rfl⟩
  | cons terminal sentence ih =>
    rw [List.forall_mem_cons] at printable
    obtain ⟨c, behind, token, text, noSpace, lexed, stands⟩ := printable.1.lexed pos (sentenceText sentence)
    have split : sentenceText (terminal :: sentence) = c :: (behind ++ 32 :: sentenceText sentence) := by
      rw [sentenceText, List.flatMap_cons, text]
      simp [sentenceText]
    rw [split, tokenizeFrom_token pos _ noSpace, lexed]
    simp only [bind, Except.bind]
    rw [tokenizeFrom_space _ _ rfl]
    obtain ⟨tokens, read, view⟩ := ih printable.2 _
    rw [read]
    exact ⟨token :: tokens, rfl, by rw [List.map_cons, stands, view, List.cons_append]⟩

theorem tokenize_sentenceText {sentence : List Terminal} (printable : ∀ terminal ∈ sentence, terminal.Printable) :
    ∃ tokens, tokenize (sentenceText sentence) = .ok tokens ∧
      tokens.map Token.terminal = sentence ++ [.symbol .kEndOfInput] :=
  tokenizeFrom_sentenceText printable 0

def columnRefSentence (ref : ColumnRef) : List Terminal :=
  match ref.tableName with
  | none => [.identifier ref.columnName]
  | some table => [.identifier table, .symbol .kDot, .identifier ref.columnName]

def predicateSentence (predicate : Predicate) : List Terminal :=
  columnRefSentence predicate.column ++ ([Parser.comparatorTerminal predicate.op] ++ [Parser.literalTerminal predicate.value])

def separatedSentence {α : Type} (separator : TokenType) (item : α → List Terminal) : List α → List Terminal
  | [] => []
  | [a] => item a
  | a :: as => item a ++ .symbol separator :: separatedSentence separator item as

def whereSentence : List Predicate → List Terminal
  | [] => []
  | predicates => .symbol .kWhere :: separatedSentence .kAnd predicateSentence predicates

def markPrimaryKey : Option String → List ColumnDef → List (ColumnDef × Bool)
  | _, [] => []
  | none, column :: columns => (column, false) :: markPrimaryKey none columns
  | some key, column :: columns =>
    if column.name = key then (column, true) :: markPrimaryKey none columns
    else (column, false) :: markPrimaryKey (some key) columns

def columnDefSentence (column : ColumnDef × Bool) : List Terminal :=
  .identifier column.1.name :: ([Parser.columnTypeTerminal column.1.type] ++
    if column.2 then [.symbol .kPrimary, .symbol .kKey] else [])

def assignmentSentence (assignment : Assignment) : List Terminal :=
  .identifier assignment.columnName :: .symbol .kEq :: [Parser.literalTerminal assignment.value]

def joinSentence : Option JoinClause → List Terminal
  | none => []
  | some join => .symbol .kJoin :: .identifier join.tableName :: .symbol .kOn ::
      (columnRefSentence join.leftColumn ++ .symbol .kEq :: columnRefSentence join.rightColumn)

def selectListSentence (stmt : SelectStatement) : List Terminal :=
  if stmt.selectStar then [.symbol .kStar] else separatedSentence .kComma columnRefSentence stmt.selectList

def statementSentence : Statement → List Terminal
  | .createTable stmt => .symbol .kCreate :: .symbol .kTable :: .identifier stmt.tableName :: .symbol .kLParen ::
      (separatedSentence .kComma columnDefSentence (markPrimaryKey stmt.primaryKeyColumn stmt.columns) ++
        [.symbol .kRParen])
  | .createIndex stmt => [.symbol .kCreate, .symbol .kIndex, .identifier stmt.indexName, .symbol .kOn,
      .identifier stmt.tableName, .symbol .kLParen, .identifier stmt.columnName, .symbol .kRParen]
  | .insert stmt => .symbol .kInsert :: .symbol .kInto :: .identifier stmt.tableName :: .symbol .kValues ::
      .symbol .kLParen ::
        (separatedSentence .kComma (fun value => [Parser.literalTerminal value]) stmt.values ++ [.symbol .kRParen])
  | .select stmt => .symbol .kSelect :: (selectListSentence stmt ++ .symbol .kFrom :: .identifier stmt.fromTable ::
      (joinSentence stmt.join ++ whereSentence stmt.wherePredicates))
  | .update stmt => .symbol .kUpdate :: .identifier stmt.tableName :: .symbol .kSet ::
      (separatedSentence .kComma assignmentSentence stmt.assignments ++ whereSentence stmt.wherePredicates)
  | .delete stmt => .symbol .kDelete :: .symbol .kFrom :: .identifier stmt.tableName ::
      whereSentence stmt.wherePredicates
  | .begin => [.symbol .kBegin]
  | .commit => [.symbol .kCommit]
  | .rollback => [.symbol .kRollback]

def printStatement (stmt : Statement) : Bytes := sentenceText (statementSentence stmt)

def ColumnRef.WellFormed (ref : ColumnRef) : Prop :=
  (∀ table ∈ ref.tableName, IsIdentifier table) ∧ IsIdentifier ref.columnName

def JoinClause.WellFormed (join : JoinClause) : Prop :=
  IsIdentifier join.tableName ∧ join.leftColumn.WellFormed ∧ join.rightColumn.WellFormed

/-- Names that are identifiers, lists that are not empty where the grammar has no empty ones, and a primary key among
the columns. -/
def Statement.WellFormed : Statement → Prop
  | .createTable stmt => IsIdentifier stmt.tableName ∧ stmt.columns ≠ [] ∧
      (∀ column ∈ stmt.columns, IsIdentifier column.name) ∧
      ∀ key ∈ stmt.primaryKeyColumn, key ∈ stmt.columns.map ColumnDef.name
  | .createIndex stmt => IsIdentifier stmt.indexName ∧ IsIdentifier stmt.tableName ∧ IsIdentifier stmt.columnName
  | .insert stmt => IsIdentifier stmt.tableName ∧ stmt.values ≠ []
  | .select stmt => (if stmt.selectStar then stmt.selectList = [] else stmt.selectList ≠ []) ∧
      (∀ ref ∈ stmt.selectList, ref.WellFormed) ∧ IsIdentifier stmt.fromTable ∧
      (∀ join ∈ stmt.join, join.WellFormed) ∧ ∀ predicate ∈ stmt.wherePredicates, predicate.column.WellFormed
  | .update stmt => IsIdentifier stmt.tableName ∧ stmt.assignments ≠ [] ∧
      (∀ assignment ∈ stmt.assignments, IsIdentifier assignment.columnName) ∧
      ∀ predicate ∈ stmt.wherePredicates, predicate.column.WellFormed
  | .delete stmt => IsIdentifier stmt.tableName ∧ ∀ predicate ∈ stmt.wherePredicates, predicate.column.WellFormed
  | .begin | .commit | .rollback => True

def Spells {α : Type} (L : Grammar.Production α) (sentence : List Terminal) (a : α) : Prop :=
  L sentence a ∧ ∀ terminal ∈ sentence, terminal.Printable

theorem spells_literal (value : LiteralValue) : Spells Grammar.Literal [Parser.literalTerminal value] value := by
  cases value with
  | integer value => exact ⟨.integer value, by simp [Parser.literalTerminal, Terminal.Printable]⟩
  | text value => exact ⟨.text value, by simp [Parser.literalTerminal, Terminal.Printable]⟩

theorem spells_columnType (type : ColumnType) : Spells Grammar.ColumnType [Parser.columnTypeTerminal type] type := by
  cases type <;> refine ⟨by constructor, ?_⟩ <;>
    simp [Parser.columnTypeTerminal, Terminal.Printable, TokenType.isSymbol]

theorem spells_comparator (op : Comparator) : Spells Grammar.Comparator [Parser.comparatorTerminal op] op := by
  cases op <;> refine ⟨by constructor, ?_⟩ <;>
    simp [Parser.comparatorTerminal, Terminal.Printable, TokenType.isSymbol]

theorem spells_columnRef {ref : ColumnRef} (wellFormed : ref.WellFormed) :
    Spells Grammar.ColumnRef (columnRefSentence ref) ref := by
  rcases ref with ⟨_ | table, column⟩
  · exact ⟨.plain column, by simpa [columnRefSentence, Terminal.Printable] using wellFormed.2⟩
  · refine ⟨.qualified table column, ?_⟩
    simpa [columnRefSentence, Terminal.Printable, TokenType.isSymbol] using ⟨wellFormed.1 table rfl, wellFormed.2⟩

theorem spells_predicate {predicate : Predicate} (wellFormed : predicate.column.WellFormed) :
    Spells Grammar.Predicate (predicateSentence predicate) predicate := by
  obtain ⟨isColumn, columnText⟩ := spells_columnRef wellFormed
  obtain ⟨isOp, opText⟩ := spells_comparator predicate.op
  obtain ⟨isValue, valueText⟩ := spells_literal predicate.value
  refine ⟨.intro isColumn isOp isValue, ?_⟩
  rw [predicateSentence, List.forall_mem_append, List.forall_mem_append]
  exact ⟨columnText, opText, valueText⟩

theorem spells_separated {α : Type} {separator : TokenType} {L : Grammar.Production α} {item : α → List Terminal}
    {as : List α} (printable : (Terminal.symbol separator).Printable) (nonempty : as ≠ [])
    (each : ∀ a ∈ as, Spells L (item a) a) :
    Spells (Phrases.Separated (.symbol separator) L) (separatedSentence separator item as) as := by
  fun_induction separatedSentence separator item as with
  | case1 => exact absurd rfl nonempty
  | case2 a =>
    obtain ⟨only, text⟩ := each a List.mem_cons_self
    exact ⟨.last only, text⟩
  | case3 a as more ih =>
    obtain ⟨first, text⟩ := each a List.mem_cons_self
    have nonempty : as ≠ [] := fun empty => more empty
    obtain ⟨others, texts⟩ := ih nonempty fun b member => each b (List.mem_cons_of_mem _ member)
    refine ⟨.cons first others, ?_⟩
    rw [List.forall_mem_append, List.forall_mem_cons]
    exact ⟨text, printable, texts⟩

theorem printable_symbol (type : TokenType) (isSymbol : type.isSymbol = true) (inside : type ≠ .kEndOfInput) :
    (Terminal.symbol type).Printable :=
  ⟨isSymbol, inside⟩

theorem spells_where {predicates : List Predicate}
    (wellFormed : ∀ predicate ∈ predicates, predicate.column.WellFormed) :
    Spells Grammar.Where (whereSentence predicates) predicates := by
  cases predicates with
  | nil => exact ⟨.none, by simp [whereSentence]⟩
  | cons predicate predicates =>
    obtain ⟨are, text⟩ := spells_separated (printable_symbol .kAnd rfl (by decide))
      (List.cons_ne_nil predicate predicates) fun other member => spells_predicate (wellFormed other member)
    exact ⟨.some are, List.forall_mem_cons.mpr ⟨printable_symbol _ rfl (by decide), text⟩⟩

theorem spells_assignment {assignment : Assignment} (isName : IsIdentifier assignment.columnName) :
    Spells Grammar.Assignment (assignmentSentence assignment) assignment := by
  obtain ⟨isValue, text⟩ := spells_literal assignment.value
  refine ⟨.intro assignment.columnName isValue, ?_⟩
  rw [assignmentSentence, List.forall_mem_cons, List.forall_mem_cons]
  exact ⟨isName, printable_symbol _ rfl (by decide), text⟩

theorem spells_columnDef {column : ColumnDef × Bool} (isName : IsIdentifier column.1.name) :
    Spells Grammar.ColumnDef (columnDefSentence column) column := by
  obtain ⟨⟨name, type⟩, isKey⟩ := column
  obtain ⟨isType, text⟩ := spells_columnType type
  cases isKey with
  | false =>
    refine ⟨.plain name isType, ?_⟩
    rw [columnDefSentence, List.forall_mem_cons, List.forall_mem_append]
    exact ⟨isName, text, by simp⟩
  | true =>
    refine ⟨.primaryKey name isType, ?_⟩
    rw [columnDefSentence, List.forall_mem_cons, List.forall_mem_append]
    exact ⟨isName, text, by simp [Terminal.Printable, TokenType.isSymbol]⟩

theorem map_fst_markPrimaryKey (key : Option String) (columns : List ColumnDef) :
    (markPrimaryKey key columns).map Prod.fst = columns := by
  fun_induction markPrimaryKey key columns <;> simp_all

theorem marked_markPrimaryKey {key : Option String} {columns : List ColumnDef}
    (isColumn : ∀ name ∈ key, name ∈ columns.map ColumnDef.name) :
    Grammar.marked (markPrimaryKey key columns) = key.toList := by
  fun_induction markPrimaryKey key columns with
  | case1 key =>
    cases key with
    | none => rfl
    | some key => cases isColumn key rfl
  | case2 column columns ih => exact ih (by simp)
  | case3 column columns ih =>
    have others := ih (by simp)
    simpa [Grammar.marked] using others
  | case4 key column columns other ih =>
    refine ih fun name isKey => ?_
    rcases List.mem_cons.mp (isColumn name isKey) with here | later
    · cases isKey
      exact absurd here.symm other
    · exact later

theorem spells_columnDefs {stmt : CreateTableStatement} (nonempty : stmt.columns ≠ [])
    (names : ∀ column ∈ stmt.columns, IsIdentifier column.name) :
    Spells (Phrases.Separated (.symbol .kComma) Grammar.ColumnDef)
      (separatedSentence .kComma columnDefSentence (markPrimaryKey stmt.primaryKeyColumn stmt.columns))
      (markPrimaryKey stmt.primaryKeyColumn stmt.columns) := by
  apply spells_separated (printable_symbol _ rfl (by decide))
  · intro empty
    have same := map_fst_markPrimaryKey stmt.primaryKeyColumn stmt.columns
    rw [empty] at same
    exact nonempty same.symm
  · intro column member
    apply spells_columnDef
    apply names
    rw [← map_fst_markPrimaryKey stmt.primaryKeyColumn stmt.columns]
    exact List.mem_map_of_mem member

theorem spells_join {join : Option JoinClause} (wellFormed : ∀ clause ∈ join, clause.WellFormed) :
    Spells Grammar.Join (joinSentence join) join := by
  cases join with
  | none => exact ⟨.none, by simp [joinSentence]⟩
  | some join =>
    obtain ⟨isName, left, right⟩ := wellFormed join rfl
    obtain ⟨isLeft, leftText⟩ := spells_columnRef left
    obtain ⟨isRight, rightText⟩ := spells_columnRef right
    refine ⟨.some join.tableName isLeft isRight, ?_⟩
    simp only [joinSentence, List.forall_mem_cons, List.forall_mem_append]
    exact ⟨printable_symbol _ rfl (by decide), isName, printable_symbol _ rfl (by decide), leftText,
      printable_symbol _ rfl (by decide), rightText⟩

theorem spells_selectList {stmt : SelectStatement}
    (shape : if stmt.selectStar then stmt.selectList = [] else stmt.selectList ≠ [])
    (refs : ∀ ref ∈ stmt.selectList, ref.WellFormed) :
    Spells Grammar.SelectList (selectListSentence stmt) (stmt.selectStar, stmt.selectList) := by
  rw [selectListSentence]
  cases star : stmt.selectStar with
  | true =>
    rw [star, if_pos rfl] at shape
    rw [shape]
    exact ⟨.star, by simp [Terminal.Printable, TokenType.isSymbol]⟩
  | false =>
    rw [star] at shape
    obtain ⟨are, text⟩ := spells_separated (printable_symbol .kComma rfl (by decide)) shape
      fun ref member => spells_columnRef (refs ref member)
    exact ⟨.columns are, text⟩

theorem spells_statement {stmt : Statement} (wellFormed : stmt.WellFormed) :
    Spells Grammar.Statement (statementSentence stmt) stmt := by
  have symbols : ∀ type ∈ [TokenType.kCreate, .kTable, .kIndex, .kOn, .kInsert, .kInto, .kValues, .kSelect, .kFrom,
      .kUpdate, .kSet, .kDelete, .kBegin, .kCommit, .kRollback, .kLParen, .kRParen],
      (Terminal.symbol type).Printable := by
    simp [Terminal.Printable, TokenType.isSymbol]
  simp only [List.forall_mem_cons] at symbols
  cases stmt with
  | createTable stmt =>
    obtain ⟨isName, nonempty, names, keys⟩ := wellFormed
    obtain ⟨are, text⟩ := spells_columnDefs nonempty names
    have marks := marked_markPrimaryKey keys
    have derived := Grammar.Statement.createTable stmt.tableName are (by
      rw [marks]
      cases stmt.primaryKeyColumn <;> simp)
    have key : stmt.primaryKeyColumn.toList.head? = stmt.primaryKeyColumn := by
      cases stmt.primaryKeyColumn <;> rfl
    rw [map_fst_markPrimaryKey, marks, key] at derived
    refine ⟨derived, ?_⟩
    simp only [statementSentence, List.forall_mem_cons, List.forall_mem_append]
    simpa [symbols] using ⟨isName, text⟩
  | createIndex stmt =>
    obtain ⟨isIndex, isTable, isColumn⟩ := wellFormed
    refine ⟨.createIndex stmt.indexName stmt.tableName stmt.columnName, ?_⟩
    simpa [statementSentence, symbols] using ⟨isIndex, isTable, isColumn⟩
  | insert stmt =>
    obtain ⟨isName, nonempty⟩ := wellFormed
    obtain ⟨are, text⟩ := spells_separated (printable_symbol .kComma rfl (by decide)) nonempty
      fun value _ => spells_literal value
    refine ⟨.insert stmt.tableName are, ?_⟩
    simp only [statementSentence, List.forall_mem_cons, List.forall_mem_append]
    simpa [symbols] using ⟨isName, text⟩
  | select stmt =>
    obtain ⟨shape, refs, isName, joins, conditions⟩ := wellFormed
    obtain ⟨isList, listText⟩ := spells_selectList shape refs
    obtain ⟨isJoin, joinText⟩ := spells_join joins
    obtain ⟨isWhere, whereText⟩ := spells_where conditions
    refine ⟨.select stmt.fromTable isList isJoin isWhere, ?_⟩
    simp only [statementSentence, List.forall_mem_cons, List.forall_mem_append]
    exact ⟨by simp [symbols], listText, by simp [symbols], isName, joinText, whereText⟩
  | update stmt =>
    obtain ⟨isName, nonempty, names, conditions⟩ := wellFormed
    obtain ⟨are, text⟩ := spells_separated (printable_symbol .kComma rfl (by decide)) nonempty
      fun assignment member => spells_assignment (names assignment member)
    obtain ⟨isWhere, whereText⟩ := spells_where conditions
    refine ⟨.update stmt.tableName are isWhere, ?_⟩
    simp only [statementSentence, List.forall_mem_cons, List.forall_mem_append]
    exact ⟨by simp [symbols], isName, by simp [symbols], text, whereText⟩
  | delete stmt =>
    obtain ⟨isName, conditions⟩ := wellFormed
    obtain ⟨isWhere, whereText⟩ := spells_where conditions
    refine ⟨.delete stmt.tableName isWhere, ?_⟩
    simp only [statementSentence, List.forall_mem_cons]
    exact ⟨by simp [symbols], by simp [symbols], isName, whereText⟩
  | begin => exact ⟨.begin, by simp [statementSentence, symbols]⟩
  | commit => exact ⟨.commit, by simp [statementSentence, symbols]⟩
  | rollback => exact ⟨.rollback, by simp [statementSentence, symbols]⟩

theorem parse_printStatement {stmt : Statement} (wellFormed : stmt.WellFormed) :
    parse (printStatement stmt) = .ok stmt := by
  obtain ⟨derived, printable⟩ := spells_statement wellFormed
  obtain ⟨tokens, lexed, view⟩ := tokenize_sentenceText printable
  exact (parse_ok_iff _ stmt).mpr ⟨tokens, lexed, statementSentence stmt, view, .inl derived⟩

/-- Parse returns the one statement that the tokens of its input derive, if they derive one, and throws SqlSyntaxError
if not; and it reads back what a well-formed statement is printed as. -/
theorem parse_accepts_grammar (sql : Bytes) :
    ((∃ stmt, parse sql = .ok stmt) ∨ ∃ message position, parse sql = .error (.sqlSyntaxError message position)) ∧
    parse sql ≠ .error .undefined ∧
    (∀ stmt, parse sql = .ok stmt ↔ Derives sql stmt) ∧
    (∀ first second, Derives sql first → Derives sql second → first = second) ∧
    ∀ stmt : Statement, stmt.WellFormed → parse (printStatement stmt) = .ok stmt := by
  refine ⟨?_, ?_, parse_ok_iff sql, ?_, fun stmt => parse_printStatement⟩
  · cases outcome : parse sql with
    | ok stmt => exact .inl ⟨stmt, rfl⟩
    | error e =>
      obtain ⟨message, position, rfl⟩ := parse_throws outcome
      exact .inr ⟨message, position, rfl⟩
  · intro undefined
    obtain ⟨message, position, same⟩ := parse_throws undefined
    cases same
  · intro first second isFirst isSecond
    have both := ((parse_ok_iff sql first).mpr isFirst).symm.trans ((parse_ok_iff sql second).mpr isSecond)
    exact Except.ok.inj both

theorem parse_accepts_grammar_select :
    parse (printStatement (.select ⟨false, [⟨some "a", "id"⟩, ⟨none, "name"⟩], "a",
        some ⟨"b", ⟨some "a", "id"⟩, ⟨some "b", "id"⟩⟩,
        [⟨⟨none, "name"⟩, .kEq, .text (bytesOf "it's")⟩, ⟨⟨none, "id"⟩, .kGe, .integer (-5)⟩]⟩)) =
      .ok (.select ⟨false, [⟨some "a", "id"⟩, ⟨none, "name"⟩], "a",
        some ⟨"b", ⟨some "a", "id"⟩, ⟨some "b", "id"⟩⟩,
        [⟨⟨none, "name"⟩, .kEq, .text (bytesOf "it's")⟩, ⟨⟨none, "id"⟩, .kGe, .integer (-5)⟩]⟩) := by
  have identifiers : IsIdentifier "a" ∧ IsIdentifier "b" ∧ IsIdentifier "id" ∧ IsIdentifier "name" := by decide
  refine (parse_accepts_grammar []).2.2.2.2 _ ?_
  simp [Statement.WellFormed, ColumnRef.WellFormed, JoinClause.WellFormed, identifiers]

end FlintDB
