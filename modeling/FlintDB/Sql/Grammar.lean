import FlintDB.Sql.Ast
import FlintDB.Sql.Lexer

set_option autoImplicit false

-- The productions of docs/SPEC.md section 1.2, each with the AST of what it derives, and the three transaction
-- statements of section 1.3.

namespace FlintDB

open Lib

namespace Grammar

abbrev Production (α : Type) := Phrases Terminal α

inductive Literal : Production LiteralValue
  | integer (value : Int64) : Literal [.integerLiteral value] (.integer value)
  | text (value : Bytes) : Literal [.stringLiteral value] (.text value)

inductive ColumnType : Production FlintDB.ColumnType
  | integer : ColumnType [.symbol .kInteger] .kInteger
  | text : ColumnType [.symbol .kText] .kText

inductive Comparator : Production FlintDB.Comparator
  | eq : Comparator [.symbol .kEq] .kEq
  | neq : Comparator [.symbol .kNeq] .kNeq
  | lt : Comparator [.symbol .kLt] .kLt
  | le : Comparator [.symbol .kLe] .kLe
  | gt : Comparator [.symbol .kGt] .kGt
  | ge : Comparator [.symbol .kGe] .kGe

inductive ColumnRef : Production FlintDB.ColumnRef
  | plain (column : String) : ColumnRef [.identifier column] ⟨none, column⟩
  | qualified (table column : String) :
      ColumnRef [.identifier table, .symbol .kDot, .identifier column] ⟨some table, column⟩

inductive Predicate : Production FlintDB.Predicate
  | intro {s₁ s₂ s₃ : List Terminal} {column : FlintDB.ColumnRef} {op : FlintDB.Comparator} {value : LiteralValue}
      (isColumn : ColumnRef s₁ column) (isOp : Comparator s₂ op) (isValue : Literal s₃ value) :
      Predicate (s₁ ++ (s₂ ++ s₃)) ⟨column, op, value⟩

-- where_clause, or nothing.
inductive Where : Production (List FlintDB.Predicate)
  | none : Where [] []
  | some {s : List Terminal} {predicates : List FlintDB.Predicate}
      (are : Phrases.Separated (.symbol .kAnd) Predicate s predicates) : Where (.symbol .kWhere :: s) predicates

/-- A column, and whether it is marked as the primary key. -/
inductive ColumnDef : Production (FlintDB.ColumnDef × Bool)
  | plain {s : List Terminal} {type : FlintDB.ColumnType} (name : String) (isType : ColumnType s type) :
      ColumnDef (.identifier name :: s) (⟨name, type⟩, false)
  | primaryKey {s : List Terminal} {type : FlintDB.ColumnType} (name : String) (isType : ColumnType s type) :
      ColumnDef (.identifier name :: (s ++ [.symbol .kPrimary, .symbol .kKey])) (⟨name, type⟩, true)

-- The columns that are marked.
def marked (defs : List (FlintDB.ColumnDef × Bool)) : List String :=
  (defs.filter Prod.snd).map fun marked => marked.1.name

inductive Assignment : Production FlintDB.Assignment
  | intro {s : List Terminal} {value : LiteralValue} (column : String) (isValue : Literal s value) :
      Assignment (.identifier column :: .symbol .kEq :: s) ⟨column, value⟩

-- join_clause, or nothing.
inductive Join : Production (Option JoinClause)
  | none : Join [] none
  | some {s₁ s₂ : List Terminal} {left right : FlintDB.ColumnRef} (table : String) (isLeft : ColumnRef s₁ left)
      (isRight : ColumnRef s₂ right) :
      Join (.symbol .kJoin :: .identifier table :: .symbol .kOn :: (s₁ ++ .symbol .kEq :: s₂))
        (some ⟨table, left, right⟩)

-- select_list: whether it is a star, and the columns if it is not.
inductive SelectList : Production (Bool × List FlintDB.ColumnRef)
  | star : SelectList [.symbol .kStar] (true, [])
  | columns {s : List Terminal} {columns : List FlintDB.ColumnRef}
      (are : Phrases.Separated (.symbol .kComma) ColumnRef s columns) : SelectList s (false, columns)

inductive Statement : Production FlintDB.Statement
  | createTable {s : List Terminal} {defs : List (FlintDB.ColumnDef × Bool)} (table : String)
      (are : Phrases.Separated (.symbol .kComma) ColumnDef s defs) (onePrimaryKey : (marked defs).length ≤ 1) :
      Statement (.symbol .kCreate :: .symbol .kTable :: .identifier table :: .symbol .kLParen ::
          (s ++ [.symbol .kRParen]))
        (.createTable ⟨table, defs.map Prod.fst, (marked defs).head?⟩)
  | createIndex (index table column : String) :
      Statement [.symbol .kCreate, .symbol .kIndex, .identifier index, .symbol .kOn, .identifier table,
          .symbol .kLParen, .identifier column, .symbol .kRParen]
        (.createIndex ⟨index, table, column⟩)
  | insert {s : List Terminal} {values : List LiteralValue} (table : String)
      (are : Phrases.Separated (.symbol .kComma) Literal s values) :
      Statement (.symbol .kInsert :: .symbol .kInto :: .identifier table :: .symbol .kValues :: .symbol .kLParen ::
          (s ++ [.symbol .kRParen]))
        (.insert ⟨table, values⟩)
  | select {s₁ s₂ s₃ : List Terminal} {selected : Bool × List FlintDB.ColumnRef} {join : Option JoinClause}
      {predicates : List FlintDB.Predicate} (table : String) (isList : SelectList s₁ selected)
      (isJoin : Join s₂ join) (isWhere : Where s₃ predicates) :
      Statement (.symbol .kSelect :: (s₁ ++ .symbol .kFrom :: .identifier table :: (s₂ ++ s₃)))
        (.select ⟨selected.1, selected.2, table, join, predicates⟩)
  | update {s₁ s₂ : List Terminal} {assignments : List FlintDB.Assignment} {predicates : List FlintDB.Predicate}
      (table : String) (are : Phrases.Separated (.symbol .kComma) Assignment s₁ assignments)
      (isWhere : Where s₂ predicates) :
      Statement (.symbol .kUpdate :: .identifier table :: .symbol .kSet :: (s₁ ++ s₂))
        (.update ⟨table, assignments, predicates⟩)
  | delete {s : List Terminal} {predicates : List FlintDB.Predicate} (table : String)
      (isWhere : Where s predicates) :
      Statement (.symbol .kDelete :: .symbol .kFrom :: .identifier table :: s) (.delete ⟨table, predicates⟩)
  | begin : Statement [.symbol .kBegin] .begin
  | commit : Statement [.symbol .kCommit] .commit
  | rollback : Statement [.symbol .kRollback] .rollback

-- A statement, with or without a semicolon behind it.
def Input : Production FlintDB.Statement :=
  fun sentence stmt => Statement sentence stmt ∨ ∃ s, sentence = s ++ [.symbol .kSemicolon] ∧ Statement s stmt

end Grammar

end FlintDB
