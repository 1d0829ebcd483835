import FlintDB.Sql.DdlEffects
import FlintDB.Sql.Lexer

set_option autoImplicit false

-- Every index has a name of its own, and a table has the index of a primary key if and only if it has the key.

namespace FlintDB

open Lib

theorem not_mem_word {word : Bytes} (isWord : isWord word = true) {c : UInt8} (apart : c = 46 ∨ c = 35) : c ∉ word := by
  have starts : isIdentStart c = false := by rcases apart with rfl | rfl <;> decide
  have continues : isIdentCont c = false := by rcases apart with rfl | rfl <;> decide
  intro isLetter
  cases word with
  | nil => cases isLetter
  | cons first rest =>
    rw [FlintDB.isWord, Bool.and_eq_true, List.all_eq_true] at isWord
    rcases List.mem_cons.mp isLetter with rfl | later
    · cases starts.symm.trans isWord.1
    · cases continues.symm.trans (isWord.2 c later)

def keyIndexName (tableName key : String) : String := tableName ++ "." ++ key ++ "#pk"

theorem bytesOf_keyIndexName (tableName key : String) :
    bytesOf (keyIndexName tableName key) = bytesOf tableName ++ 46 :: (bytesOf key ++ [35, 112, 107]) := by
  simp [keyIndexName, bytesOf]
  decide

theorem keyIndexName_not_identifier (tableName key : String) : ¬ IsIdentifier (keyIndexName tableName key) := by
  rintro ⟨-, word, -⟩
  refine not_mem_word word (.inl rfl) ?_
  simp [bytesOf_keyIndexName]

theorem keyIndexName_table {tableName tableName' key key' : String} (isName : IsIdentifier tableName)
    (isName' : IsIdentifier tableName') (same : keyIndexName tableName key = keyIndexName tableName' key') :
    tableName = tableName' := by
  have noDot : ∀ {name}, IsIdentifier name → ∀ c ∈ bytesOf name, decide (c ≠ 46) = true := fun isName c isLetter =>
    decide_eq_true fun dot => not_mem_word isName.2.1 (.inl dot) isLetter
  have front : ∀ {name} (key : String), IsIdentifier name →
      (bytesOf (keyIndexName name key)).takeWhile (fun c => decide (c ≠ 46)) = bytesOf name := by
    intro name key isName
    rw [bytesOf_keyIndexName, List.takeWhile_append_of_pos (noDot isName)]
    simp
  have bytes : bytesOf tableName = bytesOf tableName' := by rw [← front key isName, same, front key' isName']
  rw [← isName.1, bytes, isName'.1]

namespace Catalog

/-- A catalog that CREATE TABLE and CREATE INDEX have made, under names that the parser lets through. -/
inductive Built : Catalog → Prop
  | empty : Built {}
  | createTable {catalog after : Catalog} {name : String} {columns : List ColumnDef} {primaryKeyColumn : Option String}
      {heapId : Nat} (built : Built catalog) (isName : IsIdentifier name)
      (created : catalog.createTable name columns primaryKeyColumn = .ok (heapId, after)) : Built after
  | createIndex {catalog after : Catalog} {name tableName columnName : String} {objectId : Nat} (built : Built catalog)
      (isName : IsIdentifier name) (created : catalog.createIndex name tableName columnName = .ok (objectId, after)) :
      Built after

structure Keyed (catalog : Catalog) : Prop where
  distinct : catalog.IndexNamesDistinct
  tables : ∀ table ∈ catalog.tables, IsIdentifier table.name
  indexes : ∀ index ∈ catalog.indexes, IsIdentifier index.name ∨
    ∃ table ∈ catalog.tables, ∃ key, index.name = keyIndexName table.name key
  keyed : ∀ table ∈ catalog.tables,
    (catalog.primaryKeyIndex table.name).map IndexInfo.columnName = table.primaryKeyColumn

variable {catalog : Catalog}

theorem primaryKeyIndex_fresh {name : String} (fresh : name ∉ catalog.tables.map TableInfo.name) :
    catalog.primaryKeyIndex name = none := by
  refine List.find?_eq_none.mpr fun index isIndex isKey => fresh ?_
  rw [Bool.and_eq_true, decide_eq_true_eq] at isKey
  exact isKey.1 ▸ tableName_mem isIndex

theorem primaryKeyIndex_pushIndex {name tableName columnName other : String} {isPrimaryKey : Bool}
    (integer : IndexInfo.OverInteger
      { name, tableName, columnName, objectId := catalog.nextObjectId, isPrimaryKey } catalog.tables)
    (elsewhere : tableName = other → isPrimaryKey = false) :
    (catalog.pushIndex name tableName columnName isPrimaryKey integer).primaryKeyIndex other =
      catalog.primaryKeyIndex other := by
  have unrelated : (decide (tableName = other) && isPrimaryKey) = false := by
    by_cases same : tableName = other
    · simp [elsewhere same]
    · simp [same]
  simp [primaryKeyIndex, pushIndex, List.find?_append, unrelated]

namespace Keyed

theorem keyIndexName_fresh (keyed : catalog.Keyed) {name : String} (isName : IsIdentifier name)
    (fresh : name ∉ catalog.tables.map TableInfo.name) (key : String) :
    keyIndexName name key ∉ catalog.indexes.map IndexInfo.name := by
  intro taken
  obtain ⟨index, isIndex, same⟩ := List.mem_map.mp taken
  rcases keyed.indexes index isIndex with identifier | ⟨table, isTable, key', named⟩
  · exact keyIndexName_not_identifier name key (same ▸ identifier)
  · have sameTable := keyIndexName_table isName (keyed.tables table isTable) (same.symm.trans named)
    exact fresh (sameTable ▸ List.mem_map_of_mem isTable)

theorem createTable (keyed : catalog.Keyed) {name : String} (isName : IsIdentifier name) {columns : List ColumnDef}
    {primaryKeyColumn : Option String} {heapId : Nat} {after : Catalog}
    (created : catalog.createTable name columns primaryKeyColumn = .ok (heapId, after)) : after.Keyed := by
  obtain ⟨-, fresh, columns_ne, columns_nodup, pushed⟩ := createTable_ok created
  have tables : ∀ table ∈ (catalog.pushTable name columns primaryKeyColumn fresh columns_ne columns_nodup).tables,
      IsIdentifier table.name := by
    intro table isTable
    rcases List.mem_append.mp isTable with older | newest
    · exact keyed.tables table older
    · rw [List.mem_singleton.mp newest]
      exact isName
  have indexes : ∀ index ∈ catalog.indexes, IsIdentifier index.name ∨
      ∃ table ∈ (catalog.pushTable name columns primaryKeyColumn fresh columns_ne columns_nodup).tables, ∃ key,
        index.name = keyIndexName table.name key := by
    intro index isIndex
    rcases keyed.indexes index isIndex with identifier | ⟨table, isTable, named⟩
    · exact .inl identifier
    · exact .inr ⟨table, List.mem_append_left _ isTable, named⟩
  rcases pushed with ⟨rfl, rfl⟩ | ⟨key, integer, rfl, rfl⟩
  · refine ⟨keyed.distinct, tables, indexes, fun table isTable => ?_⟩
    rcases List.mem_append.mp isTable with older | newest
    · exact keyed.keyed table older
    · rw [List.mem_singleton.mp newest]
      show (catalog.primaryKeyIndex name).map _ = none
      rw [primaryKeyIndex_fresh fresh, Option.map_none]
  · refine ⟨?_, tables, fun index isIndex => ?_, fun table isTable => ?_⟩
    · show ((catalog.indexes ++ [_]).map IndexInfo.name).Nodup
      rw [List.map_append, List.map_singleton, List.nodup_append]
      refine ⟨keyed.distinct, List.nodup_singleton _, fun old isOld new isNew same => ?_⟩
      have sameName : old = keyIndexName name key := same.trans (List.mem_singleton.mp isNew)
      exact keyed.keyIndexName_fresh isName fresh key (sameName ▸ isOld)
    · rcases List.mem_append.mp isIndex with older | newest
      · exact indexes index older
      · rw [List.mem_singleton.mp newest]
        exact .inr ⟨_, List.mem_append_right _ (List.mem_singleton_self _), key, rfl⟩
    · rcases List.mem_append.mp isTable with older | newest
      · have other : name ≠ table.name := fun same => fresh (same ▸ List.mem_map_of_mem older)
        rw [primaryKeyIndex_pushIndex integer fun same => absurd same other]
        exact keyed.keyed table older
      · rw [List.mem_singleton.mp newest]
        have elsewhere : ∀ index ∈ catalog.indexes, index.tableName ≠ name := fun index isIndex same =>
          fresh (same ▸ tableName_mem isIndex)
        have isKey := Database.primaryKeyIndex_pushed
          (catalog.pushTable name columns (some key) fresh columns_ne columns_nodup) elsewhere integer
        rw [isKey, Option.map_some]

theorem createIndex (keyed : catalog.Keyed) {name tableName columnName : String} (isName : IsIdentifier name)
    {objectId : Nat} {after : Catalog}
    (created : catalog.createIndex name tableName columnName = .ok (objectId, after)) : after.Keyed := by
  obtain ⟨-, fresh, table, column, integer, -, -, rfl⟩ := createIndex_ok created
  refine ⟨?_, keyed.tables, fun index isIndex => ?_, fun table isTable => ?_⟩
  · show ((catalog.indexes ++ [_]).map IndexInfo.name).Nodup
    rw [List.map_append, List.map_singleton, List.nodup_append]
    refine ⟨keyed.distinct, List.nodup_singleton _, fun old isOld new isNew same => ?_⟩
    obtain ⟨index, isIndex, rfl⟩ := List.mem_map.mp isOld
    have unnamed := List.find?_eq_none.mp fresh index isIndex
    rw [List.mem_singleton.mp isNew] at same
    exact unnamed (decide_eq_true same)
  · rcases List.mem_append.mp isIndex with older | newest
    · exact keyed.indexes index older
    · rw [List.mem_singleton.mp newest]
      exact .inl isName
  · rw [primaryKeyIndex_pushIndex integer fun _ => rfl]
    exact keyed.keyed table isTable

end Keyed

theorem Built.keyed (built : catalog.Built) : catalog.Keyed := by
  induction built with
  | empty =>
    refine ⟨List.nodup_nil, fun table isTable => ?_, fun index isIndex => ?_, fun table isTable => ?_⟩
    · cases isTable
    · cases isIndex
    · cases isTable
  | createTable _ isName created keyed => exact keyed.createTable isName created
  | createIndex _ isName created keyed => exact keyed.createIndex isName created

end Catalog

end FlintDB
