import Mathlib.Data.List.Induction
import FlintDB.Catalog.Catalog
import FlintDB.Lib.TextReader
import FlintDB.Sql.Lexer

set_option autoImplicit false

-- Load takes what it reads as it is, so what it reads has none of the promises a catalog makes. An object id is 32
-- bits there and here.

namespace FlintDB

open Lib TextReader

structure TableContent where
  name : String
  columns : List ColumnDef
  primaryKeyColumn : Option String
  heapObjectId : UInt32
  deriving DecidableEq

structure IndexContent where
  name : String
  tableName : String
  columnName : String
  objectId : UInt32
  isPrimaryKey : Bool
  deriving DecidableEq

-- The members of a Catalog object.
structure CatalogContent where
  tables : List TableContent := []
  indexes : List IndexContent := []
  nextObjectId : UInt32 := 0
  deriving DecidableEq

def TableInfo.content (table : TableInfo) : TableContent :=
  ⟨table.name, table.columns, table.primaryKeyColumn, UInt32.ofNat table.heapObjectId⟩

def IndexInfo.content (index : IndexInfo) : IndexContent :=
  ⟨index.name, index.tableName, index.columnName, UInt32.ofNat index.objectId, index.isPrimaryKey⟩

def Catalog.content (catalog : Catalog) : CatalogContent :=
  ⟨catalog.tables.map TableInfo.content, catalog.indexes.map IndexInfo.content, UInt32.ofNat catalog.nextObjectId⟩

namespace CatalogContent

def indexesOnTable (content : CatalogContent) (tableName : String) : List IndexContent :=
  content.indexes.filter fun index => index.tableName = tableName

/-- What two catalogs tell alike: all of their tables, and the indexes of each of them. -/
structure Same (first second : CatalogContent) : Prop where
  tables : first.tables = second.tables
  indexes : ∀ tableName, first.indexesOnTable tableName = second.indexesOnTable tableName
  nextObjectId : first.nextObjectId = second.nextObjectId

def indexLine (index : IndexContent) : List String :=
  ["INDEX", index.name, index.columnName, index.objectId.toNat.repr, if index.isPrimaryKey then "PK" else "SEC"]

def columnLine (column : ColumnDef) : List String :=
  ["COLUMN", column.name, columnTypeToString column.type]

def tableLines (content : CatalogContent) (table : TableContent) : List (List String) :=
  [["TABLE", table.name], ["HEAP_OBJECT_ID", table.heapObjectId.toNat.repr],
    ["NUM_COLUMNS", table.columns.length.repr]] ++
  table.columns.map columnLine ++
  [["PRIMARY_KEY", table.primaryKeyColumn.getD "NONE"],
    ["NUM_INDEXES", (content.indexesOnTable table.name).length.repr]] ++
  (content.indexesOnTable table.name).map indexLine

def lines (content : CatalogContent) : List (List String) :=
  [["FLINTDB_CATALOG", "1"], ["NEXT_OBJECT_ID", content.nextObjectId.toNat.repr],
    ["NUM_TABLES", content.tables.length.repr]] ++
  content.tables.flatMap content.tableLines

def persist (content : CatalogContent) : List Char := linesText content.lines

end CatalogContent

abbrev LoadM := Fallible (List Char) Exception

def columnTypeFromString (s : String) : Except Exception ColumnType :=
  if s = "INTEGER" then .ok .kInteger
  else if s = "TEXT" then .ok .kText
  else .error (.invalidArgument ("ColumnTypeFromString: unrecognized column type '" ++ s ++ "'"))

def orThrow {α : Type} (message : String) : Option α → Except Exception α
  | some a => .ok a
  | none => .error (.runtimeError message)

def expectTag (expected : String) : LoadM Unit := do
  let tag ← extractWord
  if tag = some expected then return ()
  else throw (.runtimeError ("Catalog: malformed metadata file (expected '" ++ expected ++ "', got '" ++
    tag.getD "" ++ "')"))

-- An ObjectId: a number that does not fit fails the extraction.
def extractObjectId : LoadM (Option UInt32) := do
  let number ← extractNumber
  return number.bind fun n => if n < 2 ^ 32 then some (UInt32.ofNat n) else none

def readField {α : Type} (extract : LoadM (Option α)) (tag : String) : LoadM α := do
  expectTag tag
  let value ← extract
  orThrow ("Catalog: malformed metadata file (bad value after '" ++ tag ++ "')") value

def loadColumn : LoadM ColumnDef := do
  expectTag "COLUMN"
  let name ← extractWord
  let name ← orThrow "Catalog: malformed metadata file (bad COLUMN line)" name
  let type ← extractWord
  let type ← orThrow "Catalog: malformed metadata file (bad COLUMN line)" type
  let type ← columnTypeFromString type
  return ⟨name, type⟩

def badIndexLine : String := "Catalog: malformed metadata file (bad INDEX line)"

def loadIndex (tableName : String) : LoadM IndexContent := do
  expectTag "INDEX"
  let name ← extractWord
  let name ← orThrow badIndexLine name
  let columnName ← extractWord
  let columnName ← orThrow badIndexLine columnName
  let objectId ← extractObjectId
  let objectId ← orThrow badIndexLine objectId
  let kind ← extractWord
  let kind ← orThrow badIndexLine kind
  if kind = "PK" ∨ kind = "SEC" then return ⟨name, tableName, columnName, objectId, kind = "PK"⟩
  else throw (.runtimeError ("Catalog: malformed metadata file (bad index kind '" ++ kind ++ "')"))

-- A vector has fewer than 2^64 elements, so that a count of them is any number here.
def loadTable : LoadM (TableContent × List IndexContent) := do
  expectTag "TABLE"
  let name ← extractWord
  let name ← orThrow "Catalog: malformed metadata file (missing table name)" name
  let heapObjectId ← readField extractObjectId "HEAP_OBJECT_ID"
  let numColumns ← readField extractNumber "NUM_COLUMNS"
  let columns ← times numColumns loadColumn
  expectTag "PRIMARY_KEY"
  let pk ← extractWord
  let pk ← orThrow "Catalog: malformed metadata file (missing PRIMARY_KEY value)" pk
  let numIndexes ← readField extractNumber "NUM_INDEXES"
  let indexes ← times numIndexes (loadIndex name)
  return (⟨name, columns, if pk = "NONE" then none else some pk, heapObjectId⟩, indexes)

def metadataFilePath (dirPath : String) : String := dirPath ++ "/catalog.meta"

def expectVersion (dirPath : String) : LoadM Unit := do
  let version ← extractNumber
  if version = some 1 then return ()
  else throw (.runtimeError ("Catalog: unsupported or missing catalog format version in " ++
    metadataFilePath dirPath))

def load (dirPath : String) : LoadM CatalogContent := do
  expectTag "FLINTDB_CATALOG"
  expectVersion dirPath
  let nextObjectId ← readField extractObjectId "NEXT_OBJECT_ID"
  let numTables ← readField extractNumber "NUM_TABLES"
  let tables ← times numTables loadTable
  return ⟨tables.map Prod.fst, tables.flatMap Prod.snd, nextObjectId⟩

theorem reads_expectTag (tag : String) : Reads (expectTag tag) [tag] () := by
  refine Reads.bind (reads_extractWord tag) (?_ : Reads _ [] ())
  rw [if_pos rfl]
  exact Reads.pure ()

theorem Reads.orThrow {α : Type} (message : String) (a : α) :
    Reads (liftM (FlintDB.orThrow message (some a)) : LoadM α) [] a :=
  fun _ input spells => ⟨input, rfl, spells⟩

theorem reads_extractObjectId (id : UInt32) : Reads extractObjectId [id.toNat.repr] (some id) := by
  have fits : (some id.toNat).bind (fun n => if n < 2 ^ 32 then some (UInt32.ofNat n) else none) = some id := by
    simp [id.toNat_lt]
  have read : Reads extractObjectId [id.toNat.repr] _ := Reads.bind (reads_extractNumber id.toNat) (Reads.pure _)
  rwa [fits] at read

theorem reads_readField {α : Type} {extract : LoadM (Option α)} {value : String} {a : α}
    (reads : Reads extract [value] (some a)) (tag : String) : Reads (readField extract tag) [tag, value] a :=
  Reads.bind (reads_expectTag tag) (Reads.bind reads (Reads.orThrow _ a))

theorem columnTypeFromString_toString (type : ColumnType) :
    columnTypeFromString (columnTypeToString type) = .ok type := by
  cases type <;> rfl

theorem reads_loadColumn (column : ColumnDef) : Reads loadColumn (CatalogContent.columnLine column) column := by
  have typed : Reads (liftM (columnTypeFromString (columnTypeToString column.type)) : LoadM ColumnType) []
      column.type := by
    rw [columnTypeFromString_toString]
    exact fun _ input spells => ⟨input, rfl, spells⟩
  exact Reads.bind (reads_expectTag "COLUMN") (Reads.bind (reads_extractWord column.name)
    (Reads.bind (Reads.orThrow _ column.name) (Reads.bind (reads_extractWord (columnTypeToString column.type))
      (Reads.bind (Reads.orThrow _ _) (Reads.bind typed (Reads.pure column))))))

theorem reads_loadIndex (index : IndexContent) :
    Reads (loadIndex index.tableName) (CatalogContent.indexLine index) index := by
  refine Reads.bind (reads_expectTag "INDEX") (Reads.bind (reads_extractWord index.name)
    (Reads.bind (Reads.orThrow _ index.name) (Reads.bind (reads_extractWord index.columnName)
      (Reads.bind (Reads.orThrow _ index.columnName) (Reads.bind (reads_extractObjectId index.objectId)
        (Reads.bind (Reads.orThrow _ index.objectId)
          (Reads.bind (reads_extractWord (if index.isPrimaryKey then "PK" else "SEC"))
            (Reads.bind (Reads.orThrow _ _) (?_ : Reads _ [] index)))))))))
  obtain ⟨name, tableName, columnName, objectId, isPrimaryKey⟩ := index
  cases isPrimaryKey <;> exact Reads.pure _

def TableContent.reread (table : TableContent) : TableContent :=
  { table with primaryKeyColumn := table.primaryKeyColumn.filter fun key => key ≠ "NONE" }

theorem TableContent.reread_primaryKey (table : TableContent) :
    (if table.primaryKeyColumn.getD "NONE" = "NONE" then none else some (table.primaryKeyColumn.getD "NONE")) =
      table.reread.primaryKeyColumn := by
  rcases table with ⟨name, columns, _ | key, heapObjectId⟩
  · rfl
  · by_cases none : key = "NONE" <;> simp [TableContent.reread, Option.filter, none]

theorem reads_loadTable (content : CatalogContent) (table : TableContent) :
    Reads loadTable (content.tableLines table).flatten (table.reread, content.indexesOnTable table.name) := by
  have columns : Reads (times table.columns.length loadColumn) (table.columns.flatMap CatalogContent.columnLine)
      (table.columns.map id) := Reads.times fun column _ => reads_loadColumn column
  have indexes : Reads (times (content.indexesOnTable table.name).length (loadIndex table.name))
      ((content.indexesOnTable table.name).flatMap CatalogContent.indexLine)
      ((content.indexesOnTable table.name).map id) := by
    refine Reads.times fun index member => ?_
    have onTable : index.tableName = table.name := by simpa using (List.mem_filter.mp member).2
    rw [← onTable]
    exact reads_loadIndex index
  rw [List.map_id] at columns indexes
  have read : Reads loadTable _ _ := Reads.bind (reads_expectTag "TABLE") (Reads.bind (reads_extractWord table.name)
    (Reads.bind (Reads.orThrow _ table.name)
    (Reads.bind (reads_readField (reads_extractObjectId table.heapObjectId) "HEAP_OBJECT_ID")
    (Reads.bind (reads_readField (reads_extractNumber table.columns.length) "NUM_COLUMNS")
    (Reads.bind columns
    (Reads.bind (reads_expectTag "PRIMARY_KEY")
    (Reads.bind (reads_extractWord (table.primaryKeyColumn.getD "NONE"))
    (Reads.bind (Reads.orThrow _ _)
    (Reads.bind (reads_readField (reads_extractNumber (content.indexesOnTable table.name).length) "NUM_INDEXES")
    (Reads.bind indexes (Reads.pure _)))))))))))
  rw [TableContent.reread_primaryKey] at read
  simpa [CatalogContent.tableLines, List.flatMap, TableContent.reread] using read

def CatalogContent.reread (content : CatalogContent) : CatalogContent where
  tables := content.tables.map TableContent.reread
  indexes := content.tables.flatMap fun table => content.indexesOnTable table.name
  nextObjectId := content.nextObjectId

theorem reads_load (dirPath : String) (content : CatalogContent) :
    Reads (load dirPath) content.lines.flatten content.reread := by
  have version : Reads (expectVersion dirPath) ["1"] () := by
    refine Reads.bind (reads_extractNumber 1) (?_ : Reads _ [] ())
    rw [if_pos rfl]
    exact Reads.pure ()
  have tables : Reads (times content.tables.length loadTable)
      (content.tables.flatMap fun table => (content.tableLines table).flatten)
      (content.tables.map fun table => (table.reread, content.indexesOnTable table.name)) :=
    Reads.times fun table _ => reads_loadTable content table
  have read : Reads (load dirPath) _ _ := Reads.bind (reads_expectTag "FLINTDB_CATALOG") (Reads.bind version
    (Reads.bind (reads_readField (reads_extractObjectId content.nextObjectId) "NEXT_OBJECT_ID")
    (Reads.bind (reads_readField (reads_extractNumber content.tables.length) "NUM_TABLES")
    (Reads.bind tables (Reads.pure _)))))
  simpa [CatalogContent.lines, List.flatMap, CatalogContent.reread, Function.comp_def, List.flatten_flatten] using read

-- A text that stands in the file as one word.
def SingleWord (text : String) : Prop := IsSolid text.toList

instance (text : String) : Decidable (SingleWord text) := inferInstanceAs (Decidable (IsSolid text.toList))

theorem singleWord_repr (n : Nat) : SingleWord n.repr := isSolid_repr n

theorem singleWord_columnTypeToString (type : ColumnType) : SingleWord (columnTypeToString type) := by
  cases type <;> decide

namespace CatalogContent

/-- Everything that Persist writes for a name is one word. -/
structure Named (content : CatalogContent) : Prop where
  tables : ∀ table ∈ content.tables, SingleWord table.name
  columns : ∀ table ∈ content.tables, ∀ column ∈ table.columns, SingleWord column.name
  primaryKeys : ∀ table ∈ content.tables, ∀ key, table.primaryKeyColumn = some key → SingleWord key
  indexes : ∀ index ∈ content.indexes, SingleWord index.name ∧ SingleWord index.columnName

variable {content : CatalogContent}

theorem Named.indexLine (named : content.Named) {index : IndexContent} (isIndex : index ∈ content.indexes) :
    ∀ word ∈ indexLine index, SingleWord word := by
  have kind : SingleWord (if index.isPrimaryKey then "PK" else "SEC") := by
    cases index.isPrimaryKey <;> decide
  have tag : SingleWord "INDEX" := by decide
  simp [CatalogContent.indexLine, tag, kind, named.indexes index isIndex, singleWord_repr]

theorem Named.tableLines (named : content.Named) {table : TableContent} (isTable : table ∈ content.tables) :
    ∀ line ∈ content.tableLines table, ∀ word ∈ line, SingleWord word := by
  have tags : SingleWord "TABLE" ∧ SingleWord "HEAP_OBJECT_ID" ∧ SingleWord "NUM_COLUMNS" ∧ SingleWord "COLUMN" ∧
      SingleWord "PRIMARY_KEY" ∧ SingleWord "NUM_INDEXES" := by decide
  have key : SingleWord (table.primaryKeyColumn.getD "NONE") := by
    cases held : table.primaryKeyColumn with
    | none => decide
    | some column => exact named.primaryKeys table isTable column held
  have columnLines : ∀ column ∈ table.columns, ∀ word ∈ columnLine column, SingleWord word := by
    intro column isColumn
    simp [columnLine, tags, named.columns table isTable column isColumn, singleWord_columnTypeToString]
  have indexLines : ∀ index ∈ content.indexesOnTable table.name, ∀ word ∈ CatalogContent.indexLine index,
      SingleWord word :=
    fun index onTable => named.indexLine (List.mem_filter.mp onTable).1
  simp only [CatalogContent.tableLines, List.forall_mem_append, List.forall_mem_cons, List.forall_mem_map]
  refine ⟨⟨⟨?_, columnLines⟩, ?_⟩, indexLines⟩
  · simp [tags, named.tables table isTable, singleWord_repr]
  · simp [tags, key, singleWord_repr]

theorem Named.lines (named : content.Named) : ∀ line ∈ content.lines, ∀ word ∈ line, SingleWord word := by
  have tags : SingleWord "FLINTDB_CATALOG" ∧ SingleWord "1" ∧ SingleWord "NEXT_OBJECT_ID" ∧
      SingleWord "NUM_TABLES" := by decide
  have tables : ∀ line ∈ content.tables.flatMap content.tableLines, ∀ word ∈ line, SingleWord word := by
    intro line member
    obtain ⟨table, isTable, inTable⟩ := List.mem_flatMap.mp member
    exact named.tableLines isTable line inTable
  simp only [CatalogContent.lines, List.forall_mem_append, List.forall_mem_cons]
  exact ⟨by simp [tags, singleWord_repr], tables⟩

theorem Named.load_persist (named : content.Named) (dirPath : String) :
    ((load dirPath).exec content.persist).1 = .ok content.reread := by
  have spells := spells_linesText named.lines
  rw [← List.append_nil (content.lines.flatten.map String.toList)] at spells
  obtain ⟨rest, read, -⟩ := reads_load dirPath content [] _ spells
  rw [persist, read]

end CatalogContent

structure CatalogDirectory where
  catalog : Catalog := {}
  -- the metadata file, once there is one
  metadata : Option (List Char) := none

def Catalog.persisted (catalog : Catalog) : CatalogDirectory where
  catalog := catalog
  metadata := some catalog.content.persist

inductive CatalogCall
  | createTable (name : String) (columns : List ColumnDef) (primaryKeyColumn : Option String)
  | createIndex (name tableName columnName : String)

namespace CatalogCall

/-- The names a call is given. -/
def names : CatalogCall → List String
  | createTable name columns primaryKeyColumn => name :: columns.map ColumnDef.name ++ primaryKeyColumn.toList
  | createIndex name tableName columnName => [name, tableName, columnName]

def primaryKeyColumn : CatalogCall → Option String
  | createTable _ _ primaryKeyColumn => primaryKeyColumn
  | createIndex _ _ _ => none

/-- A call that returns has persisted what it did. -/
def apply (directory : CatalogDirectory) : CatalogCall → Except Exception CatalogDirectory
  | createTable name columns primaryKeyColumn => do
    let (_, catalog) ← directory.catalog.createTable name columns primaryKeyColumn
    return catalog.persisted
  | createIndex name tableName columnName => do
    let (_, catalog) ← directory.catalog.createIndex name tableName columnName
    return catalog.persisted

end CatalogCall

/-- The constructor of Catalog, over the files of the directory. -/
def CatalogDirectory.reopen (directory : CatalogDirectory) (dirPath : String) : Except Exception CatalogContent :=
  match directory.metadata with
  | none => .ok {}
  | some text => ((load dirPath).exec text).1

/-- The calls all return, one after the other, over a new directory. -/
def CatalogDirectory.run (calls : List CatalogCall) : Except Exception CatalogDirectory :=
  calls.foldlM CatalogCall.apply {}

theorem not_isSpace_of_isIdentCont {c : UInt8} (inside : isIdentCont c = true) :
    isSpace (Char.ofUInt8 c) = false := by
  have low : 48 ≤ c.toNat := by
    simp only [isIdentCont, isUpper, isLower, isDigit, Bool.or_eq_true, Bool.and_eq_true, decide_eq_true_eq,
      beq_iff_eq, UInt8.le_iff_toNat_le, ← UInt8.toNat_inj, UInt8.reduceToNat] at inside
    omega
  have same : (Char.ofUInt8 c).toNat = c.toNat := UInt8.toNat_toUInt32 c
  simp only [isSpace, same, decide_eq_false_iff_not]
  omega

theorem isIdentCont_of_isIdentStart {c : UInt8} (starts : isIdentStart c = true) : isIdentCont c = true := by
  simp only [isIdentStart, isIdentCont, Bool.or_eq_true] at starts ⊢
  tauto

theorem IsIdentifier.singleWord {name : String} (identifier : IsIdentifier name) : SingleWord name := by
  obtain ⟨same, word, -⟩ := identifier
  rw [← same, SingleWord, asString, String.toList_ofList]
  cases bytes : bytesOf name with
  | nil => simp [bytes, isWord] at word
  | cons c rest =>
    rw [bytes] at word
    obtain ⟨starts, continues⟩ := Bool.and_eq_true_iff.mp word
    refine ⟨by simp, ?_⟩
    rw [List.forall_mem_map, List.forall_mem_cons]
    exact ⟨not_isSpace_of_isIdentCont (isIdentCont_of_isIdentStart starts),
      fun other member => not_isSpace_of_isIdentCont (List.all_eq_true.mp continues other member)⟩

theorem SingleWord.append {first second : String} (isFirst : SingleWord first) (isSecond : SingleWord second) :
    SingleWord (first ++ second) := by
  rw [SingleWord, String.toList_append]
  exact ⟨by simp [isFirst.1], List.forall_mem_append.mpr ⟨isFirst.2, isSecond.2⟩⟩

namespace Catalog

variable {catalog : Catalog}

theorem pushTable_named {name : String} {columns : List ColumnDef} {primaryKeyColumn : Option String}
    (named : catalog.content.Named) (names : ∀ word ∈ (CatalogCall.createTable name columns primaryKeyColumn).names,
      IsIdentifier word) (fresh columns_ne columns_nodup) :
    (catalog.pushTable name columns primaryKeyColumn fresh columns_ne columns_nodup).content.Named := by
  simp only [CatalogCall.names, List.cons_append, List.forall_mem_cons, List.forall_mem_append, List.forall_mem_map,
    Option.mem_toList] at names
  obtain ⟨isName, areColumns, isKey⟩ := names
  constructor
  all_goals simp only [content, pushTable, List.map_append, List.forall_mem_append, List.map_cons, List.map_nil,
    List.forall_mem_singleton]
  · exact ⟨named.tables, isName.singleWord⟩
  · exact ⟨named.columns, fun column member => (areColumns column member).singleWord⟩
  · exact ⟨named.primaryKeys, fun key held => (isKey key held).singleWord⟩
  · exact named.indexes

theorem pushIndex_named {name tableName columnName : String} {isPrimaryKey : Bool} (named : catalog.content.Named)
    (isName : SingleWord name) (isColumn : SingleWord columnName) (integer) :
    (catalog.pushIndex name tableName columnName isPrimaryKey integer).content.Named := by
  constructor
  · exact named.tables
  · exact named.columns
  · exact named.primaryKeys
  · simp only [content, pushIndex, List.map_append, List.forall_mem_append, List.map_cons, List.map_nil,
      List.forall_mem_singleton]
    exact ⟨named.indexes, isName, isColumn⟩

end Catalog

structure CatalogDirectory.After (directory : CatalogDirectory) (calls : List CatalogCall) : Prop where
  named : directory.catalog.content.Named
  persisted : directory.metadata = some directory.catalog.content.persist ∨ directory = {}
  keys : ∀ key, (∃ table ∈ directory.catalog.tables, table.primaryKeyColumn = some key) ↔
    ∃ call ∈ calls, call.primaryKeyColumn = some key

theorem CatalogCall.apply_after {directory next : CatalogDirectory} {calls : List CatalogCall} {call : CatalogCall}
    (names : ∀ word ∈ call.names, IsIdentifier word) (after : directory.After calls)
    (applied : call.apply directory = .ok next) : next.After (calls ++ [call]) := by
  cases call with
  | createTable name columns primaryKeyColumn =>
    obtain ⟨⟨heapId, catalog⟩, created, same⟩ := bind_eq_ok.mp applied
    cases same
    obtain ⟨-, fresh, columns_ne, columns_nodup, result⟩ := Catalog.createTable_ok created
    have pushed := Catalog.pushTable_named after.named names fresh columns_ne columns_nodup
    have tables : catalog.tables =
        (directory.catalog.pushTable name columns primaryKeyColumn fresh columns_ne columns_nodup).tables := by
      obtain ⟨-, rfl⟩ | ⟨key, integer, -, rfl⟩ := result <;> rfl
    refine ⟨?_, .inl rfl, fun key => ?_⟩
    · obtain ⟨rfl, rfl⟩ | ⟨key, integer, rfl, rfl⟩ := result
      · exact pushed
      · have isName := (names name (by simp [CatalogCall.names])).singleWord
        have isKey := (names key (by simp [CatalogCall.names])).singleWord
        have dot : SingleWord "." := by decide
        have mark : SingleWord "#pk" := by decide
        exact Catalog.pushIndex_named pushed (((isName.append dot).append isKey).append mark) isKey integer
    · show (∃ table ∈ catalog.tables, _) ↔ _
      simp only [tables, Catalog.pushTable, List.mem_append, List.mem_singleton, or_and_right, exists_or,
        exists_eq_left, after.keys key, CatalogCall.primaryKeyColumn]
  | createIndex name tableName columnName =>
    obtain ⟨⟨objectId, catalog⟩, created, same⟩ := bind_eq_ok.mp applied
    cases same
    obtain ⟨-, -, table, column, integer, -, -, rfl⟩ := Catalog.createIndex_ok created
    have isName := (names name (by simp [CatalogCall.names])).singleWord
    have isColumn := (names columnName (by simp [CatalogCall.names])).singleWord
    refine ⟨Catalog.pushIndex_named after.named isName isColumn integer, .inl rfl, fun key => ?_⟩
    show (∃ table ∈ directory.catalog.tables, _) ↔ _
    simp [after.keys key, or_and_right, exists_or, CatalogCall.primaryKeyColumn]

theorem CatalogDirectory.run_after {calls : List CatalogCall} {directory : CatalogDirectory}
    (names : ∀ call ∈ calls, ∀ word ∈ call.names, IsIdentifier word) (ran : run calls = .ok directory) :
    directory.After calls := by
  induction calls using List.reverseRecOn generalizing directory with
  | nil =>
    cases ran
    constructor
    · constructor <;> simp [Catalog.content]
    · exact .inr rfl
    · simp
  | append_singleton calls call ih =>
    rw [run, List.foldlM_append] at ran
    obtain ⟨before, ranBefore, applied⟩ := bind_eq_ok.mp ran
    rw [List.forall_mem_append, List.forall_mem_singleton] at names
    have applied : call.apply before = .ok directory := by simpa using applied
    exact CatalogCall.apply_after names.2 (ih names.1 ranBefore) applied

theorem flatMap_pick {α : Type} {names : List String} (distinct : names.Nodup) (name : String) (items : List α)
    (listed : items ≠ [] → name ∈ names) : (names.flatMap fun other => if other = name then items else []) = items := by
  induction names with
  | nil =>
    by_contra nonempty
    exact absurd (listed fun empty => nonempty (by simp [empty])) (by simp)
  | cons first names ih =>
    obtain ⟨fresh, distinct⟩ := List.nodup_cons.mp distinct
    rw [List.flatMap_cons]
    split
    · rename_i same
      have none : (names.flatMap fun other => if other = name then items else []) = [] := by
        rw [List.flatMap_eq_nil_iff]
        intro other member
        rw [if_neg]
        rintro rfl
        exact fresh (same ▸ member)
      rw [none, List.append_nil]
    · rename_i different
      rw [List.nil_append]
      exact ih distinct fun nonempty => (List.mem_cons.mp (listed nonempty)).resolve_left fun same => different same.symm

theorem CatalogContent.filter_indexesOnTable (content : CatalogContent) (name tableName : String) :
    (content.indexesOnTable name).filter (fun index => index.tableName = tableName) =
      if name = tableName then content.indexesOnTable tableName else [] := by
  rw [CatalogContent.indexesOnTable, List.filter_filter]
  split
  · rename_i same
    subst same
    simp [CatalogContent.indexesOnTable]
  · rename_i different
    rw [List.filter_eq_nil_iff]
    intro index _
    simp only [Bool.and_eq_true, decide_eq_true_eq, not_and]
    exact fun onTable other => different (other.symm.trans onTable)

theorem Catalog.reread_indexesOnTable (catalog : Catalog) (tableName : String) :
    catalog.content.reread.indexesOnTable tableName = catalog.content.indexesOnTable tableName := by
  have grouped : catalog.content.reread.indexesOnTable tableName =
      (catalog.tables.map TableInfo.name).flatMap fun name =>
        if name = tableName then catalog.content.indexesOnTable tableName else [] := by
    rw [CatalogContent.indexesOnTable, CatalogContent.reread, List.filter_flatMap, Catalog.content, List.flatMap_map,
      List.flatMap_map]
    congr 1
    funext table
    exact CatalogContent.filter_indexesOnTable _ table.name tableName
  rw [grouped]
  refine flatMap_pick catalog.names_nodup tableName _ fun nonempty => ?_
  obtain ⟨index, member⟩ := List.exists_mem_of_ne_nil _ nonempty
  obtain ⟨inCatalog, onTable⟩ := List.mem_filter.mp member
  obtain ⟨info, isIndex, rfl⟩ := List.mem_map.mp inCatalog
  obtain ⟨table, isTable, sameName, -⟩ := catalog.indexes_integer info isIndex
  have onTable : info.content.tableName = tableName := by simpa using onTable
  exact List.mem_map.mpr ⟨table, isTable, sameName.trans onTable⟩

theorem TableContent.reread_eq {table : TableContent} :
    table.reread = table ↔ table.primaryKeyColumn ≠ some "NONE" := by
  rcases table with ⟨name, columns, _ | key, heapObjectId⟩
  · simp [TableContent.reread]
  · by_cases none : key = "NONE" <;> simp [TableContent.reread, Option.filter, none]

theorem Catalog.reread_same (catalog : Catalog) :
    catalog.content.reread.Same catalog.content ↔
      ∀ table ∈ catalog.tables, table.primaryKeyColumn ≠ some "NONE" := by
  have tables : catalog.content.reread.tables = catalog.content.tables ↔
      ∀ table ∈ catalog.tables, table.primaryKeyColumn ≠ some "NONE" := by
    show (catalog.tables.map TableInfo.content).map TableContent.reread = catalog.tables.map TableInfo.content ↔ _
    rw [List.map_map, List.map_inj_left]
    exact forall₂_congr fun table _ => TableContent.reread_eq
  rw [← tables]
  exact ⟨CatalogContent.Same.tables, fun same => ⟨same, catalog.reread_indexesOnTable, rfl⟩⟩

theorem CatalogDirectory.reopen_same_iff {calls : List CatalogCall} {directory : CatalogDirectory} (dirPath : String)
    (names : ∀ call ∈ calls, ∀ word ∈ call.names, IsIdentifier word) (ran : run calls = .ok directory) :
    (∃ content, directory.reopen dirPath = .ok content ∧ content.Same directory.catalog.content) ↔
      ∀ table ∈ directory.catalog.tables, table.primaryKeyColumn ≠ some "NONE" := by
  have after := run_after names ran
  have reopened : directory.reopen dirPath = .ok directory.catalog.content.reread := by
    rcases after.persisted with written | rfl
    · rw [reopen, written]
      exact after.named.load_persist dirPath
    · rfl
  simp only [reopened, Except.ok.injEq, exists_eq_left', directory.catalog.reread_same]

/-- After any calls that all returned, the directory opens again, and what it tells is what the catalog was, unless one
of the calls had a PRIMARY KEY column with the name that stands for none. -/
theorem CatalogDirectory.load_undoes_persist (calls : List CatalogCall) (directory : CatalogDirectory)
    (dirPath : String) (names : ∀ call ∈ calls, ∀ word ∈ call.names, IsIdentifier word)
    (ran : run calls = .ok directory) :
    (∃ content, directory.reopen dirPath = .ok content ∧ content.Same directory.catalog.content) ↔
      ∀ call ∈ calls, call.primaryKeyColumn ≠ some "NONE" := by
  rw [reopen_same_iff dirPath names ran]
  simpa [not_exists] using not_congr ((run_after names ran).keys "NONE")

theorem CatalogDirectory.load_undoes_persist_indexed :
    ∃ directory, run [.createTable "t" [⟨"id", .kInteger⟩, ⟨"body", .kText⟩] (some "id"),
        .createTable "u" [⟨"none", .kInteger⟩] none, .createIndex "i" "u" "none",
        .createIndex "j" "t" "id"] = .ok directory ∧
      ∃ content, directory.reopen "db" = .ok content ∧ content.Same directory.catalog.content := by
  refine ⟨_, rfl, ?_⟩
  exact (load_undoes_persist [.createTable "t" [⟨"id", .kInteger⟩, ⟨"body", .kText⟩] (some "id"),
    .createTable "u" [⟨"none", .kInteger⟩] none, .createIndex "i" "u" "none", .createIndex "j" "t" "id"]
    _ "db" (by decide) rfl).mpr (by decide)

theorem CatalogDirectory.reopen_loses_primary_key :
    (∀ word ∈ (CatalogCall.createTable "t" [⟨"NONE", .kInteger⟩] (some "NONE")).names, IsIdentifier word) ∧
    ∃ directory, run [.createTable "t" [⟨"NONE", .kInteger⟩] (some "NONE")] = .ok directory ∧
      ¬ ∃ content, directory.reopen "db" = .ok content ∧ content.Same directory.catalog.content := by
  have names : ∀ word ∈ (CatalogCall.createTable "t" [⟨"NONE", .kInteger⟩] (some "NONE")).names,
      IsIdentifier word := by decide
  refine ⟨names, _, rfl, ?_⟩
  rw [reopen_same_iff "db" (List.forall_mem_singleton.mpr names) rfl]
  decide

end FlintDB
