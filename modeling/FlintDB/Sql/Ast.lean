import FlintDB.Catalog.Catalog

set_option autoImplicit false

namespace FlintDB

open Lib

inductive LiteralValue
  | integer (value : Int64)
  | text (value : Bytes)
  deriving DecidableEq

namespace LiteralValue

/-- The type a literal's kind stands for. -/
def type : LiteralValue → ColumnType
  | integer _ => .kInteger
  | text _ => .kText

-- The field the kind does not select keeps its default value.
def intValue : LiteralValue → Int64
  | integer value => value
  | text _ => 0

def stringValue : LiteralValue → Bytes
  | integer _ => []
  | text value => value

@[simp] theorem intValue_integer (value : Int64) : (integer value).intValue = value := rfl

@[simp] theorem stringValue_text (value : Bytes) : (text value).stringValue = value := rfl

/-- The key an index holds an INTEGER under. -/
def key (literal : LiteralValue) : Int := literal.intValue.toInt

theorem eq_integer {literal : LiteralValue} (isInteger : literal.type = .kInteger) :
    literal = integer literal.intValue := by
  cases literal with
  | integer _ => rfl
  | text _ => cases isInteger

theorem key_inj {first second : LiteralValue} (firstInteger : first.type = .kInteger)
    (secondInteger : second.type = .kInteger) : first.key = second.key ↔ first = second := by
  rw [eq_integer firstInteger, eq_integer secondInteger]
  simp [key, Int64.toInt_inj]

end LiteralValue

structure ColumnRef where
  tableName : Option String := none
  columnName : String
  deriving DecidableEq

inductive Comparator
  | kEq
  | kNeq
  | kLt
  | kLe
  | kGt
  | kGe
  deriving DecidableEq

structure Predicate where
  column : ColumnRef
  op : Comparator
  value : LiteralValue
  deriving DecidableEq

structure Assignment where
  columnName : String
  value : LiteralValue

structure JoinClause where
  tableName : String
  leftColumn : ColumnRef
  rightColumn : ColumnRef

structure CreateTableStatement where
  tableName : String
  columns : List ColumnDef
  primaryKeyColumn : Option String := none

structure CreateIndexStatement where
  indexName : String
  tableName : String
  columnName : String

structure InsertStatement where
  tableName : String
  values : List LiteralValue

structure SelectStatement where
  selectStar : Bool := false
  selectList : List ColumnRef := []
  fromTable : String
  join : Option JoinClause := none
  wherePredicates : List Predicate := []

structure UpdateStatement where
  tableName : String
  assignments : List Assignment
  wherePredicates : List Predicate := []

structure DeleteStatement where
  tableName : String
  wherePredicates : List Predicate := []

inductive Statement
  | createTable (stmt : CreateTableStatement)
  | createIndex (stmt : CreateIndexStatement)
  | insert (stmt : InsertStatement)
  | select (stmt : SelectStatement)
  | update (stmt : UpdateStatement)
  | delete (stmt : DeleteStatement)
  | begin
  | commit
  | rollback

end FlintDB
