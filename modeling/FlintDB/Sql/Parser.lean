import FlintDB.Sql.Ast
import FlintDB.Sql.Lexer

set_option autoImplicit false

-- The state of the Parser object is the tokens from pos_ on. Reading tokens_[pos_] behind the last one is not
-- defined.

namespace FlintDB

open Lib

abbrev ParserM := Fallible (List Token) ParseException

namespace Parser

def peek : ParserM Token := do
  match ← get with
  | [] => throw .undefined
  | token :: _ => return token

def check (type : TokenType) : ParserM Bool := do
  let token ← peek
  return token.type = type

def advance : ParserM Token := do
  let token ← peek
  if token.type = .kEndOfInput then return token
  else
    modify List.tail
    return token

def matchToken (type : TokenType) : ParserM Bool := do
  if ← check type then
    let _ ← advance
    return true
  else return false

-- A SqlSyntaxError that ends with the name of the next token, and some text behind it.
def unexpected {α : Type} (message : String) (behind : String := "") : ParserM α := do
  let token ← peek
  throw (.sqlSyntaxError (message ++ tokenTypeName token.type ++ behind) token.position)

def expect (type : TokenType) : ParserM Token := do
  if ← check type then advance
  else unexpected ("expected " ++ tokenTypeName type ++ ", got ")

def expectIdentifier : ParserM String := do
  let token ← expect .kIdentifier
  return asString token.text

def expectLiteral : ParserM LiteralValue := do
  if ← check .kIntegerLiteral then
    let token ← advance
    return .integer token.intValue
  else if ← check .kStringLiteral then
    let token ← advance
    return .text token.text
  else unexpected "expected a literal value, got "

def expectColumnType : ParserM ColumnType := do
  if ← matchToken .kInteger then return .kInteger
  else if ← matchToken .kText then return .kText
  else unexpected "expected INTEGER or TEXT, got "

def parseColumnRef : ParserM ColumnRef := do
  let first ← expectIdentifier
  if ← matchToken .kDot then
    let column ← expectIdentifier
    return ⟨some first, column⟩
  else return ⟨none, first⟩

def expectComparator : ParserM Comparator := do
  if ← matchToken .kEq then return .kEq
  else if ← matchToken .kNeq then return .kNeq
  else if ← matchToken .kLt then return .kLt
  else if ← matchToken .kLe then return .kLe
  else if ← matchToken .kGt then return .kGt
  else if ← matchToken .kGe then return .kGe
  else unexpected "expected a comparator (=, !=, <, <=, >, >=), got "

def parsePredicate : ParserM Predicate := do
  let column ← parseColumnRef
  let op ← expectComparator
  let value ← expectLiteral
  return ⟨column, op, value⟩

def separated {α : Type} (separator : TokenType) (item : ParserM α) : ParserM (List α) :=
  Alphabet.separated (matchToken separator) item

def parseWhereClause : ParserM (List Predicate) := do
  let _ ← expect .kWhere
  separated .kAnd parsePredicate

def parseOptionalWhereClause : ParserM (List Predicate) := do
  if ← check .kWhere then parseWhereClause
  else return []

def parsePrimaryKey (colName : String) (pk : Option String) : ParserM (Option String) := do
  if ← matchToken .kPrimary then
    let _ ← expect .kKey
    match pk with
    | some earlier =>
      let token ← peek
      throw (.sqlSyntaxError ("a table may have at most one PRIMARY KEY (already set on '" ++ earlier ++ "')")
        token.position)
    | none => return some colName
  else return pk

-- One round of ParseCreateTable's loop, with the columns and the primary key found so far.
def parseColumnDef (found : List ColumnDef × Option String) : ParserM (List ColumnDef × Option String) := do
  let colName ← expectIdentifier
  let colType ← expectColumnType
  let pk ← parsePrimaryKey colName found.2
  return (found.1 ++ [⟨colName, colType⟩], pk)

-- The loop goes on where it can match a comma and breaks where it cannot.
def parseColumnDefs : ParserM (List ColumnDef × Option String) := do
  let found ← parseColumnDef ([], none)
  Alphabet.iterate (matchToken .kComma) parseColumnDef found

def parseCreateTable : ParserM CreateTableStatement := do
  let _ ← expect .kTable
  let tableName ← expectIdentifier
  let _ ← expect .kLParen
  let found ← parseColumnDefs
  let _ ← expect .kRParen
  return ⟨tableName, found.1, found.2⟩

def parseCreateIndex : ParserM CreateIndexStatement := do
  let _ ← expect .kIndex
  let indexName ← expectIdentifier
  let _ ← expect .kOn
  let tableName ← expectIdentifier
  let _ ← expect .kLParen
  let columnName ← expectIdentifier
  let _ ← expect .kRParen
  return ⟨indexName, tableName, columnName⟩

def parseInsert : ParserM InsertStatement := do
  let _ ← expect .kInto
  let tableName ← expectIdentifier
  let _ ← expect .kValues
  let _ ← expect .kLParen
  let values ← separated .kComma expectLiteral
  let _ ← expect .kRParen
  return ⟨tableName, values⟩

def parseJoinClause : ParserM JoinClause := do
  let _ ← expect .kJoin
  let tableName ← expectIdentifier
  let _ ← expect .kOn
  let leftColumn ← parseColumnRef
  let _ ← expect .kEq
  let rightColumn ← parseColumnRef
  return ⟨tableName, leftColumn, rightColumn⟩

def parseOptionalJoin : ParserM (Option JoinClause) := do
  if ← check .kJoin then
    let join ← parseJoinClause
    return some join
  else return none

-- select_star and select_list.
def parseSelectList : ParserM (Bool × List ColumnRef) := do
  if ← matchToken .kStar then return (true, [])
  else
    let columns ← separated .kComma parseColumnRef
    return (false, columns)

def parseSelect : ParserM SelectStatement := do
  let selected ← parseSelectList
  let _ ← expect .kFrom
  let fromTable ← expectIdentifier
  let join ← parseOptionalJoin
  let wherePredicates ← parseOptionalWhereClause
  return ⟨selected.1, selected.2, fromTable, join, wherePredicates⟩

def parseAssignment : ParserM Assignment := do
  let columnName ← expectIdentifier
  let _ ← expect .kEq
  let value ← expectLiteral
  return ⟨columnName, value⟩

def parseUpdate : ParserM UpdateStatement := do
  let tableName ← expectIdentifier
  let _ ← expect .kSet
  let assignments ← separated .kComma parseAssignment
  let wherePredicates ← parseOptionalWhereClause
  return ⟨tableName, assignments, wherePredicates⟩

def parseDelete : ParserM DeleteStatement := do
  let _ ← expect .kFrom
  let tableName ← expectIdentifier
  let wherePredicates ← parseOptionalWhereClause
  return ⟨tableName, wherePredicates⟩

def parseCreate : ParserM Statement := do
  if ← check .kTable then
    let stmt ← parseCreateTable
    return .createTable stmt
  else if ← check .kIndex then
    let stmt ← parseCreateIndex
    return .createIndex stmt
  else unexpected "expected TABLE or INDEX after CREATE, got "

def parseOneStatement : ParserM Statement := do
  if ← matchToken .kCreate then parseCreate
  else if ← matchToken .kInsert then
    let stmt ← parseInsert
    return .insert stmt
  else if ← matchToken .kSelect then
    let stmt ← parseSelect
    return .select stmt
  else if ← matchToken .kUpdate then
    let stmt ← parseUpdate
    return .update stmt
  else if ← matchToken .kDelete then
    let stmt ← parseDelete
    return .delete stmt
  else if ← matchToken .kBegin then return .begin
  else if ← matchToken .kCommit then return .commit
  else if ← matchToken .kRollback then return .rollback
  else unexpected ("expected a statement (CREATE, INSERT, SELECT, UPDATE, DELETE, " ++
    "BEGIN, COMMIT, or ROLLBACK), got ")

def parseStatementTopLevel : ParserM Statement := do
  let stmt ← parseOneStatement
  let _ ← matchToken .kSemicolon
  if ← check .kEndOfInput then return stmt
  else unexpected "unexpected trailing input after statement (got " ")"

end Parser

def parse (sql : Bytes) : Except ParseException Statement := do
  let tokens ← tokenize sql
  (Parser.parseStatementTopLevel.exec tokens).1

end FlintDB
