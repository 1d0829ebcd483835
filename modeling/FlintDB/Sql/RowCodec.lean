import FlintDB.Lib.Peek
import FlintDB.Sql.SqlSemantics

set_option autoImplicit false

namespace FlintDB

open Lib

def appendInt64 (value : Int64) : Bytes := leEncode 8 value.toUInt64.toNat

-- The length is cast to a uint32_t.
def appendText (value : Bytes) : Bytes := leEncode 4 value.length ++ value

def encodeValue (column : ColumnDef) (value : LiteralValue) : Bytes :=
  match column.type with
  | .kInteger => appendInt64 value.intValue
  | .kText => appendText value.stringValue

/-- EncodeRow. A value list shorter than the columns is read past its end there; no caller passes one. -/
def encodeRow : List ColumnDef → List LiteralValue → Bytes
  | column :: columns, value :: values => encodeValue column value ++ encodeRow columns values
  | _, _ => []

def decodeValue (column : ColumnDef) (rowBytes : Bytes) : Except Exception (LiteralValue × Bytes) :=
  match column.type with
  | .kInteger =>
    if rowBytes.length < 8 then
      .error (.runtimeError "DecodeRow: row_bytes too short for an INTEGER column")
    else .ok (.integer (UInt64.ofNat (leDecode (rowBytes.take 8))).toInt64, rowBytes.drop 8)
  | .kText =>
    if rowBytes.length < 4 then
      .error (.runtimeError "DecodeRow: row_bytes too short for a TEXT column's length prefix")
    else
      let len := leDecode (rowBytes.take 4)
      let rest := rowBytes.drop 4
      if rest.length < len then
        .error (.runtimeError "DecodeRow: row_bytes too short for a TEXT column's declared length")
      else .ok (.text (rest.take len), rest.drop len)

def decodeRow : List ColumnDef → Bytes → Except Exception (List LiteralValue)
  | [], _ => .ok []
  | column :: columns, rowBytes => do
    let (value, rest) ← decodeValue column rowBytes
    return value :: (← decodeRow columns rest)

theorem decodeValue_encodeValue {column : ColumnDef} {value : LiteralValue} (typed : column.type = value.type)
    (short : value.stringValue.length < 2 ^ 32) (rest : Bytes) :
    decodeValue column (encodeValue column value ++ rest) = .ok (value, rest) := by
  cases value with
  | integer v =>
    have typed : column.type = .kInteger := typed
    have word := UInt64.toNat_lt v.toUInt64
    simp only [decodeValue, encodeValue, typed, appendInt64, LiteralValue.intValue_integer]
    rw [if_neg (by simp), List.take_left' (leEncode_length 8 _), List.drop_left' (leEncode_length 8 _),
      leDecode_leEncode_of_lt (by simpa using word)]
    simp
  | text v =>
    have typed : column.type = .kText := typed
    have short : v.length < 256 ^ 4 := short
    simp only [decodeValue, encodeValue, typed, appendText, LiteralValue.stringValue_text, List.append_assoc]
    rw [if_neg (by simp), List.take_left' (leEncode_length 4 _), List.drop_left' (leEncode_length 4 _),
      leDecode_leEncode_of_lt short]
    simp

theorem length_stringValue_le (column : ColumnDef) (value : LiteralValue) :
    column.type = value.type → value.stringValue.length ≤ (encodeValue column value).length := by
  intro typed
  cases value with
  | integer v => exact Nat.zero_le _
  | text v =>
    have typed : column.type = .kText := typed
    simp [encodeValue, typed, appendText]

theorem decodeRow_encodeRow {columns : List ColumnDef} {values : List LiteralValue} (row : RowOf columns values)
    (short : ∀ value ∈ values, value.stringValue.length < 2 ^ 32) (rest : Bytes) :
    decodeRow columns (encodeRow columns values ++ rest) = .ok values := by
  induction row with
  | nil => rfl
  | @cons column value columns values typed _ ih =>
    rw [encodeRow, decodeRow, List.append_assoc, decodeValue_encodeValue typed (short value List.mem_cons_self)]
    simp only [bind, Except.bind]
    rw [ih fun other member => short other (List.mem_cons_of_mem _ member)]
    rfl

theorem length_stringValue_le_encodeRow {columns : List ColumnDef} {values : List LiteralValue}
    (row : RowOf columns values) :
    ∀ value ∈ values, value.stringValue.length ≤ (encodeRow columns values).length := by
  induction row with
  | nil => simp
  | @cons column value columns values typed _ ih =>
    intro other member
    rw [encodeRow, List.length_append]
    rcases List.mem_cons.mp member with rfl | later
    · exact Nat.le_add_right_of_le (length_stringValue_le column other typed)
    · exact Nat.le_add_left_of_le (ih other later)

theorem decodeRow_of_short {columns : List ColumnDef} {values : List LiteralValue} (row : RowOf columns values)
    (short : (encodeRow columns values).length < 2 ^ 32) :
    decodeRow columns (encodeRow columns values) = .ok values := by
  have decoded := decodeRow_encodeRow row
    (fun value member => Nat.lt_of_le_of_lt (length_stringValue_le_encodeRow row value member) short) []
  rwa [List.append_nil] at decoded

-- The loop with its offset, and the ranges of `row_bytes` it reads. A string is shorter than 2 ^ 63 bytes and an
-- offset at most its length, so none of the sums wraps around.

def readInt64 (rowBytes : Bytes) (offset : Nat) : Peek Exception Int64 :=
  if offset + 8 > rowBytes.length then
    .throw (.runtimeError "DecodeRow: row_bytes too short for an INTEGER column")
  else .read offset 8 (UInt64.ofNat (leDecode ((rowBytes.drop offset).take 8))).toInt64

def readUint32 (rowBytes : Bytes) (offset : Nat) : Peek Exception Nat :=
  if offset + 4 > rowBytes.length then
    .throw (.runtimeError "DecodeRow: row_bytes too short for a TEXT column's length prefix")
  else .read offset 4 (leDecode ((rowBytes.drop offset).take 4))

def readText (rowBytes : Bytes) (offset len : Nat) : Peek Exception Bytes :=
  if offset + len > rowBytes.length then
    .throw (.runtimeError "DecodeRow: row_bytes too short for a TEXT column's declared length")
  else .read offset len ((rowBytes.drop offset).take len)

-- The value of one column, and the offset behind it.
def decodeColumn (rowBytes : Bytes) (column : ColumnDef) (offset : Nat) : Peek Exception (LiteralValue × Nat) :=
  match column.type with
  | .kInteger => do
    let value ← readInt64 rowBytes offset
    return (.integer value, offset + 8)
  | .kText => do
    let len ← readUint32 rowBytes offset
    let value ← readText rowBytes (offset + 4) len
    return (.text value, offset + 4 + len)

def decodeColumns (rowBytes : Bytes) : List ColumnDef → Nat → Peek Exception (List LiteralValue)
  | [], _ => pure []
  | column :: columns, offset => do
    let (value, next) ← decodeColumn rowBytes column offset
    let values ← decodeColumns rowBytes columns next
    return value :: values

structure Decoded (rowBytes : Bytes) (column : ColumnDef) (offset : Nat) (value : LiteralValue) (next : Nat) : Prop where
  typed : column.type = value.type
  inside : next ≤ rowBytes.length
  bytes : rowBytes.drop offset = encodeValue column value ++ rowBytes.drop next

section Reads

variable {rowBytes : Bytes} {offset : Nat}

theorem drop_split (start count : Nat) :
    rowBytes.drop start = (rowBytes.drop start).take count ++ rowBytes.drop (start + count) := by
  rw [← List.drop_drop, List.take_append_drop]

theorem taken_length {start count : Nat} (fits : start + count ≤ rowBytes.length) :
    ((rowBytes.drop start).take count).length = count := by
  rw [List.length_take, List.length_drop]
  omega

theorem decoded_integer {column : ColumnDef} (integral : column.type = .kInteger)
    (fits : offset + 8 ≤ rowBytes.length) :
    Decoded rowBytes column offset (.integer (UInt64.ofNat (leDecode ((rowBytes.drop offset).take 8))).toInt64)
      (offset + 8) := by
  refine ⟨integral, fits, ?_⟩
  have again := leEncode_leDecode ((rowBytes.drop offset).take 8)
  have small := leDecode_lt ((rowBytes.drop offset).take 8)
  rw [taken_length fits] at again small
  have word : (UInt64.ofNat (leDecode ((rowBytes.drop offset).take 8))).toInt64.toUInt64.toNat =
      leDecode ((rowBytes.drop offset).take 8) := by
    rw [UInt64.toUInt64_toInt64, UInt64.toNat_ofNat']
    exact Nat.mod_eq_of_lt small
  simp only [encodeValue, integral, appendInt64, LiteralValue.intValue_integer]
  rw [word, again]
  exact drop_split offset 8

theorem decoded_text {column : ColumnDef} (textual : column.type = .kText) (prefixFits : offset + 4 ≤ rowBytes.length)
    (fits : offset + 4 + leDecode ((rowBytes.drop offset).take 4) ≤ rowBytes.length) :
    Decoded rowBytes column offset
      (.text ((rowBytes.drop (offset + 4)).take (leDecode ((rowBytes.drop offset).take 4))))
      (offset + 4 + leDecode ((rowBytes.drop offset).take 4)) := by
  refine ⟨textual, fits, ?_⟩
  have again := leEncode_leDecode ((rowBytes.drop offset).take 4)
  rw [taken_length prefixFits] at again
  simp only [encodeValue, textual, appendText, LiteralValue.stringValue_text]
  rw [taken_length fits, again, List.append_assoc, ← drop_split (offset + 4)]
  exact drop_split offset 4

theorem decodeColumn_spec (rowBytes : Bytes) (column : ColumnDef) (offset : Nat) :
    (decodeColumn rowBytes column offset).Within rowBytes.length ∧
      ((∃ message, (decodeColumn rowBytes column offset).result = .error (.runtimeError message) ∧
          decodeValue column (rowBytes.drop offset) = .error (.runtimeError message)) ∨
        ∃ value next, (decodeColumn rowBytes column offset).result = .ok (value, next) ∧
          decodeValue column (rowBytes.drop offset) = .ok (value, rowBytes.drop next) ∧
          Decoded rowBytes column offset value next) := by
  have rest : ∀ start, (rowBytes.drop start).length = rowBytes.length - start := fun start => List.length_drop
  cases typed : column.type with
  | kInteger =>
    simp only [decodeColumn, decodeValue, typed, readInt64, rest, Peek.bind_eq]
    by_cases short : offset + 8 > rowBytes.length
    · rw [if_pos short, if_pos (by omega)]
      exact ⟨Peek.within_of_silent rfl _, .inl ⟨_, rfl, rfl⟩⟩
    · rw [if_neg short, if_neg (by omega), List.drop_drop]
      exact ⟨Peek.within_bind.mpr ⟨Peek.within_read (by omega), fun _ _ => Peek.within_pure _ _⟩,
        .inr ⟨_, _, rfl, rfl, decoded_integer typed (by omega)⟩⟩
  | kText =>
    simp only [decodeColumn, decodeValue, typed, readUint32, readText, rest, Peek.bind_eq]
    by_cases short : offset + 4 > rowBytes.length
    · rw [if_pos short, if_pos (by omega)]
      exact ⟨Peek.within_of_silent rfl _, .inl ⟨_, rfl, rfl⟩⟩
    · rw [if_neg short, if_neg (by omega), List.drop_drop, rest]
      by_cases cut : offset + 4 + leDecode ((rowBytes.drop offset).take 4) > rowBytes.length
      · rw [if_pos (by omega)]
        refine ⟨Peek.within_bind.mpr ⟨Peek.within_read (by omega), fun len isLen => ?_⟩, .inl ⟨_, ?_, rfl⟩⟩
        · cases isLen
          rw [if_pos cut]
          exact Peek.within_of_silent rfl _
        · simp only [Peek.bind, Peek.read, if_pos cut, Peek.throw]
      · rw [if_neg (by omega), List.drop_drop]
        refine ⟨Peek.within_bind.mpr ⟨Peek.within_read (by omega), fun len isLen => ?_⟩,
          .inr ⟨_, _, ?_, rfl, decoded_text typed (by omega) (by omega)⟩⟩
        · cases isLen
          rw [if_neg cut]
          exact Peek.within_bind.mpr ⟨Peek.within_read (by omega), fun _ _ => Peek.within_pure _ _⟩
        · simp only [Peek.bind, Peek.read, if_neg cut]
          rfl

theorem decodeColumns_spec (rowBytes : Bytes) (columns : List ColumnDef) (offset : Nat) :
    (decodeColumns rowBytes columns offset).Within rowBytes.length ∧
      (decodeColumns rowBytes columns offset).result = decodeRow columns (rowBytes.drop offset) ∧
      ((∃ message, (decodeColumns rowBytes columns offset).result = .error (.runtimeError message)) ∨
        ∃ values, (decodeColumns rowBytes columns offset).result = .ok values ∧ RowOf columns values ∧
          encodeRow columns values <+: rowBytes.drop offset) := by
  induction columns generalizing offset with
  | nil => exact ⟨Peek.within_of_silent rfl _, rfl, .inr ⟨[], rfl, .nil, List.nil_prefix⟩⟩
  | cons column columns ih =>
    obtain ⟨inside, ⟨message, result, value⟩ | ⟨value, next, result, decoded, here⟩⟩ :=
      decodeColumn_spec rowBytes column offset
    · simp only [decodeColumns, decodeRow, Peek.bind_eq, Peek.within_bind, Peek.result_bind, result, value]
      exact ⟨⟨inside, fun _ impossible => by cases impossible⟩, rfl, .inl ⟨message, rfl⟩⟩
    · obtain ⟨insideRest, sameRest, ends⟩ := ih next
      have ended : (decodeColumns rowBytes (column :: columns) offset).result =
          (decodeColumns rowBytes columns next).result.map (value :: ·) := by
        simp only [decodeColumns, Peek.bind_eq, Peek.result_bind, result, Except.bind]
        cases (decodeColumns rowBytes columns next).result <;> rfl
      rw [ended]
      refine ⟨?_, ?_, ?_⟩
      · simp only [decodeColumns, Peek.bind_eq, Peek.within_bind, result]
        refine ⟨inside, fun _ isValue => ?_⟩
        cases isValue
        exact ⟨insideRest, fun _ _ => Peek.within_pure _ _⟩
      · rw [sameRest, decodeRow, decoded]
        simp only [bind, Except.bind]
        cases decodeRow columns (rowBytes.drop next) <;> rfl
      · rcases ends with ⟨message, refused⟩ | ⟨values, returned, row, front⟩
        · exact .inl ⟨message, by rw [refused]; rfl⟩
        · refine .inr ⟨value :: values, by rw [returned]; rfl, .cons here.typed row, ?_⟩
          rw [here.bytes, encodeRow]
          exact (List.prefix_append_right_inj _).mpr front

end Reads

theorem encodeRow_injective {columns : List ColumnDef} {values values' : List LiteralValue}
    (row : RowOf columns values) (row' : RowOf columns values')
    (short : ∀ value ∈ values, value.stringValue.length < 2 ^ 32)
    (short' : ∀ value ∈ values', value.stringValue.length < 2 ^ 32)
    (same : encodeRow columns values = encodeRow columns values') : values = values' := by
  have decoded := decodeRow_encodeRow row short []
  rw [same, decodeRow_encodeRow row' short' []] at decoded
  exact (Except.ok.inj decoded).symm

/-- Encoded rows decode to their values and differ when these do; other bytes are refused, or begin with the encoding of
what is returned for them, and no byte outside of them is read. -/
theorem rowCodec_round_trip (columns : List ColumnDef) :
    (∀ values, RowOf columns values → (∀ value ∈ values, value.stringValue.length < 2 ^ 32) →
      (decodeColumns (encodeRow columns values) columns 0).result = .ok values ∧
        ∀ values', RowOf columns values' → (∀ value ∈ values', value.stringValue.length < 2 ^ 32) →
          encodeRow columns values = encodeRow columns values' → values = values') ∧
      ∀ rowBytes, (decodeColumns rowBytes columns 0).Within rowBytes.length ∧
        ((∃ message, (decodeColumns rowBytes columns 0).result = .error (.runtimeError message)) ∨
          ∃ values, (decodeColumns rowBytes columns 0).result = .ok values ∧ RowOf columns values ∧
            encodeRow columns values <+: rowBytes) := by
  refine ⟨fun values row short => ⟨?_, fun values' row' short' => encodeRow_injective row row' short short'⟩,
    fun rowBytes => ?_⟩
  · rw [(decodeColumns_spec _ columns 0).2.1, List.drop_zero]
    have decoded := decodeRow_encodeRow row short []
    rwa [List.append_nil] at decoded
  · obtain ⟨inside, -, ends⟩ := decodeColumns_spec rowBytes columns 0
    rw [List.drop_zero] at ends
    exact ⟨inside, ends⟩

theorem rowCodec_round_trip_pair :
    let columns : List ColumnDef := [⟨"a", .kInteger⟩, ⟨"b", .kText⟩]
    (decodeColumns (encodeRow columns [.integer (-2), .text [65, 255]]) columns 0).result =
        .ok [.integer (-2), .text [65, 255]] ∧
      encodeRow columns [.integer (-2), .text [65, 255]] ≠ encodeRow columns [.integer (-2), .text [65]] ∧
      (decodeColumns [1, 0, 0, 0, 0, 0, 0, 0, 9] columns 0).Within 9 := by
  intro columns
  have row : RowOf columns [.integer (-2), .text [65, 255]] := .cons rfl (.cons rfl .nil)
  have other : RowOf columns [.integer (-2), .text [65]] := .cons rfl (.cons rfl .nil)
  obtain ⟨encoded, decoded⟩ := rowCodec_round_trip columns
  obtain ⟨returned, injective⟩ := encoded _ row (by decide)
  refine ⟨returned, fun same => ?_, (decoded [1, 0, 0, 0, 0, 0, 0, 0, 9]).1⟩
  exact absurd (injective _ other (by decide) same) (by decide)

end FlintDB
