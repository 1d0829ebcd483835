import Mathlib.Algebra.BigOperators.Group.List.Basic
import Mathlib.Data.List.TakeWhile
import FlintDB.Lib.Json
import FlintDB.Sql.Utf8Relations
import FlintDB.Tools.FlintdbCli

set_option autoImplicit false

-- Each text that goes in is answered by one line of JSON, and what the lines say is what relations answer.

namespace FlintDB

open Lib

namespace FlintdbCli

def literalJson : LiteralValue → Json
  | .integer value => .number value.toInt
  | .text value => .string value

def rowJson (row : List LiteralValue) : Json := .array (row.map literalJson)

def successJson (result : ExecuteResult) : Json :=
  .object [(bytesOf "ok", .bool true),
    (bytesOf "columns", .array (result.columnNames.map fun name => .string (bytesOf name))),
    (bytesOf "rows", .array (result.rows.map rowJson)), (bytesOf "rows_affected", .number result.rowsAffected)]

def failureJson (errorType message : Bytes) : Json :=
  .object [(bytesOf "ok", .bool false), (bytesOf "error_type", .string errorType),
    (bytesOf "error_message", .string message)]

theorem escapes_jsonEscape (c : UInt8) : Json.Escapes c (jsonEscape c) := by
  intro rest
  fun_cases jsonEscape c with
  | case1 | case2 | case3 | case4 | case5 | case6 | case7 =>
    rename_i here
    rw [here]
    rfl
  | case8 =>
    rename_i control
    have codes : ∀ n < 32, Json.ofHex 48 48 (hexDigitText (n / 16)) (hexDigitText (n % 16)) = some (UInt8.ofNat n) := by
      decide
    have code := codes c.toNat (UInt8.lt_iff_toNat_lt.mp control)
    rw [UInt8.ofNat_toNat] at code
    have start : bytesOf "\\u00" = [92, 117, 48, 48] := by decide
    simp [start, Json.character, code]
  | case9 =>
    rename_i quote backslash _ _ _ _ _ control
    simp [Json.character, quote, backslash, control]

theorem spellsString_jsonEscape (text : Bytes) : Json.SpellsString (text.flatMap jsonEscape) text :=
  Json.spellsString_flatMap escapes_jsonEscape text

theorem spells_jsonEncodeString (text : Bytes) : Json.Spells (jsonEncodeString text) (.string text) :=
  (spellsString_jsonEscape text).spells

theorem spells_jsonEncodeLiteral (value : LiteralValue) : Json.Spells (jsonEncodeLiteral value) (literalJson value) := by
  cases value with
  | text value => exact spells_jsonEncodeString value
  | integer value =>
    rw [jsonEncodeLiteral, literalJson, integerText, naturalText_eq]
    split
    · rename_i negative
      have spells := Json.spells_negative value.toInt.natAbs
      rwa [Int.ofNat_natAbs_of_nonpos (Int.le_of_lt negative), Int.neg_neg] at spells
    · rename_i positive
      have spells := Json.spells_natural value.toInt.natAbs
      rwa [Int.natAbs_of_nonneg (Int.not_lt.mp positive)] at spells

theorem commaSeparated_eq {α : Type} (encode : α → Bytes) (items : List α) :
    commaSeparated encode items = Json.separated (items.map encode) := by
  let entryText (entry : α × Nat) : Bytes := (if 0 < entry.2 then [44] else []) ++ encode entry.1
  have behind : ∀ (items : List α) (k : Nat), (items.zipIdx (k + 1)).flatMap entryText =
      (items.map encode).flatMap fun text => 44 :: text := by
    intro items
    induction items with
    | nil => exact fun _ => rfl
    | cons item items ih =>
      intro k
      rw [List.zipIdx_cons, List.flatMap_cons, ih, List.map_cons, List.flatMap_cons]
      rfl
  show items.zipIdx.flatMap entryText = _
  cases items with
  | nil => rfl
  | cons item items =>
    rw [List.zipIdx_cons, List.flatMap_cons, behind, List.map_cons, Json.separated_cons]
    rfl

theorem spells_items {α : Type} {encode : α → Bytes} {value : α → Json}
    (spells : ∀ item, Json.Spells (encode item) (value item)) (items : List α) :
    Json.Spells (91 :: (commaSeparated encode items ++ [93])) (.array (items.map value)) := by
  rw [commaSeparated_eq]
  refine Json.spells_array ?_
  rw [List.forall₂_map_left_iff, List.forall₂_map_right_iff]
  exact List.forall₂_same.mpr fun item _ => spells item

theorem spells_encodeRow (row : List LiteralValue) : Json.Spells (encodeRow row) (rowJson row) :=
  spells_items spells_jsonEncodeLiteral row

theorem spellsMember_of_name {name : String} (plain : (bytesOf name).flatMap jsonEscape = bytesOf name) {text : Bytes}
    {value : Json} (spells : Json.Spells text value) :
    Json.SpellsMember (34 :: (bytesOf name ++ 34 :: 58 :: text)) (bytesOf name, value) := by
  have key := spellsString_jsonEscape (bytesOf name)
  rw [plain] at key
  exact ⟨bytesOf name, text, rfl, key, spells⟩

theorem spells_encodeSuccess (result : ExecuteResult) : Json.Spells (encodeSuccess result) (successJson result) := by
  have ok := spellsMember_of_name (by decide : (bytesOf "ok").flatMap jsonEscape = bytesOf "ok") Json.spells_true
  have columns := spellsMember_of_name (by decide : (bytesOf "columns").flatMap jsonEscape = bytesOf "columns")
    (spells_items (fun name => spells_jsonEncodeString (bytesOf name)) result.columnNames)
  have rows := spellsMember_of_name (by decide : (bytesOf "rows").flatMap jsonEscape = bytesOf "rows")
    (spells_items spells_encodeRow result.rows)
  have affected := spellsMember_of_name
    (by decide : (bytesOf "rows_affected").flatMap jsonEscape = bytesOf "rows_affected")
    (Json.spells_natural result.rowsAffected)
  have spells := Json.spells_object (.cons ok (.cons columns (.cons rows (.cons affected .nil)))) (List.cons_ne_nil _ _)
  have first : bytesOf "\x7b\"ok\":true,\"columns\":[" = 123 :: 34 :: (bytesOf "ok" ++ 34 :: 58 :: 116 :: 114 :: 117 ::
      101 :: 44 :: 34 :: (bytesOf "columns" ++ [34, 58, 91])) := by decide
  have second : bytesOf "],\"rows\":[" = 93 :: 44 :: 34 :: (bytesOf "rows" ++ [34, 58, 91]) := by decide
  have third : bytesOf "],\"rows_affected\":" = 93 :: 44 :: 34 :: (bytesOf "rows_affected" ++ [34, 58]) := by decide
  have last : bytesOf "\x7d" = [125] := by decide
  rw [encodeSuccess, successJson, naturalText_eq, first, second, third, last]
  simpa only [Json.separated, List.cons_append, List.append_assoc, List.nil_append] using spells

theorem spells_encodeFailure (errorType message : String) :
    Json.Spells (encodeFailure errorType message) (failureJson (bytesOf errorType) (whatText message)) := by
  have ok := spellsMember_of_name (by decide : (bytesOf "ok").flatMap jsonEscape = bytesOf "ok") Json.spells_false
  have type := spellsMember_of_name (by decide : (bytesOf "error_type").flatMap jsonEscape = bytesOf "error_type")
    (spells_jsonEncodeString (bytesOf errorType))
  have what := spellsMember_of_name
    (by decide : (bytesOf "error_message").flatMap jsonEscape = bytesOf "error_message")
    (spells_jsonEncodeString (whatText message))
  have spells := Json.spells_object (.cons ok (.cons type (.cons what .nil))) (List.cons_ne_nil _ _)
  have first : bytesOf "\x7b\"ok\":false,\"error_type\":" = 123 :: 34 :: (bytesOf "ok" ++ 34 :: 58 :: 102 :: 97 :: 108 ::
      115 :: 101 :: 44 :: 34 :: (bytesOf "error_type" ++ [34, 58])) := by decide
  have second : bytesOf ",\"error_message\":" = 44 :: 34 :: (bytesOf "error_message" ++ [34, 58]) := by decide
  have last : bytesOf "\x7d" = [125] := by decide
  rw [encodeFailure, failureJson, first, second, last]
  simpa only [Json.separated, List.cons_append, List.append_assoc, List.nil_append] using spells

/-- No byte of it ends a line. -/
def IsLine (text : Bytes) : Prop := ∀ c ∈ text, c ≠ 10

instance (text : Bytes) : Decidable (IsLine text) :=
  decidable_of_bool (text.all fun c => c != 10) (by simp [IsLine])

theorem IsLine.append {front back : Bytes} (left : IsLine front) (right : IsLine back) : IsLine (front ++ back) :=
  List.forall_mem_append.mpr ⟨left, right⟩

theorem IsLine.cons {c : UInt8} {text : Bytes} (first : c ≠ 10) (others : IsLine text) : IsLine (c :: text) :=
  List.forall_mem_cons.mpr ⟨first, others⟩

theorem isLine_jsonEscape (c : UInt8) : IsLine (jsonEscape c) := by
  fun_cases jsonEscape c with
  | case1 | case2 | case3 | case4 | case5 | case6 | case7 => decide
  | case8 =>
    rename_i control
    have codes : ∀ n < 16, hexDigitText n ≠ 10 := by decide
    have below := UInt8.lt_iff_toNat_lt.mp control
    have high := codes (c.toNat / 16) (by simp at below; omega)
    have low := codes (c.toNat % 16) (Nat.mod_lt _ (by decide))
    exact IsLine.append (by decide) (.cons high (.cons low nofun))
  | case9 => exact .cons ‹¬ c = 10› nofun

theorem isLine_jsonEncodeString (text : Bytes) : IsLine (jsonEncodeString text) := by
  refine .cons (by decide) (.append (fun c isThere => ?_) (by decide))
  obtain ⟨from_, -, escaped⟩ := List.mem_flatMap.mp isThere
  exact isLine_jsonEscape from_ c escaped

theorem isLine_naturalText (n : Nat) : IsLine (naturalText n) := by
  rintro c isThere rfl
  cases (naturalText_digits n).2 10 isThere

theorem isLine_jsonEncodeLiteral (value : LiteralValue) : IsLine (jsonEncodeLiteral value) := by
  cases value with
  | text value => exact isLine_jsonEncodeString value
  | integer value =>
    rw [jsonEncodeLiteral, integerText]
    split
    · exact .cons (by decide) (isLine_naturalText _)
    · exact isLine_naturalText _

theorem isLine_commaSeparated {α : Type} {encode : α → Bytes} (isLine : ∀ item, IsLine (encode item)) (items : List α) :
    IsLine (commaSeparated encode items) := by
  intro c isThere
  obtain ⟨⟨item, i⟩, -, inItem⟩ := List.mem_flatMap.mp isThere
  refine IsLine.append ?_ (isLine item) c inItem
  split
  · decide
  · exact nofun

theorem isLine_encodeRow (row : List LiteralValue) : IsLine (encodeRow row) :=
  .cons (by decide) (.append (isLine_commaSeparated isLine_jsonEncodeLiteral row) (by decide))

theorem isLine_encodeSuccess (result : ExecuteResult) : IsLine (encodeSuccess result) := by
  refine .append (.append (.append (.append (.append (.append ?_ ?_) ?_) ?_) ?_) ?_) ?_
  · decide
  · exact isLine_commaSeparated (fun name => isLine_jsonEncodeString (bytesOf name)) result.columnNames
  · decide
  · exact isLine_commaSeparated isLine_encodeRow result.rows
  · decide
  · exact isLine_naturalText result.rowsAffected
  · decide

theorem isLine_encodeFailure (errorType message : String) : IsLine (encodeFailure errorType message) := by
  refine .append (.append (.append (.append ?_ ?_) ?_) ?_) ?_
  · decide
  · exact isLine_jsonEncodeString _
  · decide
  · exact isLine_jsonEncodeString _
  · decide

theorem isAscii_jsonEscape {c : UInt8} (ascii : c < 128) : IsAscii (jsonEscape c) := by
  fun_cases jsonEscape c with
  | case1 | case2 | case3 | case4 | case5 | case6 | case7 => decide
  | case8 =>
    rename_i control
    have codes : ∀ n < 16, hexDigitText n < 128 := by decide
    have below := UInt8.lt_iff_toNat_lt.mp control
    have high := codes (c.toNat / 16) (by simp at below; omega)
    have low := codes (c.toNat % 16) (Nat.mod_lt _ (by decide))
    have start : IsAscii (bytesOf "\\u00") := by decide
    exact start.append (by simpa [IsAscii] using ⟨high, low⟩)
  | case9 => simpa [IsAscii] using ascii

theorem jsonEscape_beyond {c : UInt8} (beyond : 128 ≤ c) : jsonEscape c = [c] := by
  have other : ∀ d < 128, c ≠ d := by
    rintro d below rfl
    exact absurd beyond (UInt8.not_le.mpr below)
  have noControl : ¬ c < 32 := UInt8.not_lt.mpr (UInt8.le_trans (by decide) beyond)
  simp [jsonEscape, other, noControl]

theorem isUtf8_jsonEncodeString {text : Bytes} (utf8 : IsUtf8 text) : IsUtf8 (jsonEncodeString text) := by
  have inside := utf8.flatMap (fun c => isAscii_jsonEscape) fun c => jsonEscape_beyond
  exact (isUtf8_cons (by decide)).mpr (inside.append (by decide : IsAscii [34]).isUtf8)

theorem isUtf8_jsonEncodeLiteral {value : LiteralValue} (utf8 : value.InUtf8) : IsUtf8 (jsonEncodeLiteral value) := by
  cases value with
  | text value => exact isUtf8_jsonEncodeString utf8
  | integer value =>
    rw [jsonEncodeLiteral, integerText]
    split
    · exact (isUtf8_cons (by decide)).mpr (isAscii_naturalText _).isUtf8
    · exact (isAscii_naturalText _).isUtf8

theorem isUtf8_commaSeparated {α : Type} {encode : α → Bytes} {items : List α}
    (utf8 : ∀ item ∈ items, IsUtf8 (encode item)) : IsUtf8 (commaSeparated encode items) := by
  rw [commaSeparated_eq]
  cases items with
  | nil => exact isUtf8_nil
  | cons item items =>
    obtain ⟨first, others⟩ := List.forall_mem_cons.mp utf8
    rw [List.map_cons, Json.separated_cons]
    refine first.append ?_
    clear utf8 first
    induction items with
    | nil => exact isUtf8_nil
    | cons next items ih =>
      obtain ⟨second, others⟩ := List.forall_mem_cons.mp others
      rw [List.map_cons, List.flatMap_cons]
      exact ((isUtf8_cons (by decide)).mpr second).append (ih others)

theorem isUtf8_encodeRow {row : List LiteralValue} (utf8 : ∀ value ∈ row, value.InUtf8) : IsUtf8 (encodeRow row) :=
  (isUtf8_cons (by decide)).mpr ((isUtf8_commaSeparated fun value isThere =>
    isUtf8_jsonEncodeLiteral (utf8 value isThere)).append (by decide : IsAscii [93]).isUtf8)

theorem isUtf8_encodeSuccess {result : ExecuteResult} (utf8 : result.InUtf8) : IsUtf8 (encodeSuccess result) := by
  refine .append (.append (.append (.append (.append (.append ?_ ?_) ?_) ?_) ?_) ?_) ?_
  · exact (by decide : IsAscii _).isUtf8
  · exact isUtf8_commaSeparated fun name isThere => isUtf8_jsonEncodeString (utf8.columns name isThere).isUtf8
  · exact (by decide : IsAscii _).isUtf8
  · exact isUtf8_commaSeparated fun row isThere => isUtf8_encodeRow (utf8.rows row isThere)
  · exact (by decide : IsAscii _).isUtf8
  · exact (isAscii_naturalText _).isUtf8
  · exact (by decide : IsAscii _).isUtf8

theorem isUtf8_encodeFailure {errorType message : String} (plainType : PlainText errorType) (plain : PlainText message) :
    IsUtf8 (encodeFailure errorType message) := by
  have what : IsAscii (whatText message) := fun c isThere =>
    plain c ((List.takeWhile_sublist _).subset isThere)
  refine .append (.append (.append (.append ?_ ?_) ?_) ?_) ?_
  · exact (by decide : IsAscii _).isUtf8
  · exact isUtf8_jsonEncodeString plainType.isUtf8
  · exact (by decide : IsAscii _).isUtf8
  · exact isUtf8_jsonEncodeString what.isUtf8
  · exact (by decide : IsAscii _).isUtf8

/-- A text and its length, as the client in scripts/differential_test.py writes them. -/
def frame (sqlText : Bytes) : Bytes := naturalText sqlText.length ++ 10 :: sqlText

theorem getline_append {line : Bytes} (isLine : IsLine line) (rest : Bytes) :
    getline (line ++ 10 :: rest) = some (line, rest) := by
  obtain ⟨taken, left⟩ := @takeWhile_run _ (fun c => decide (c ≠ 10)) line (10 :: rest)
    (fun c member => decide_eq_true (isLine c member)) rfl
  cases line with
  | nil => rfl
  | cons c line =>
    rw [List.cons_append] at taken left ⊢
    rw [getline, taken, left, List.drop_one, List.tail_cons]
    exact List.cons_ne_nil _ _

theorem isDigit_not_isSpace {c : UInt8} (digit : isDigit c = true) : isSpace c = false := by
  simp only [isDigit, Bool.and_eq_true, decide_eq_true_eq, UInt8.le_iff_toNat_le] at digit
  simp only [isSpace, Bool.or_eq_false_iff, Bool.and_eq_false_iff, beq_eq_false_iff_ne, decide_eq_false_iff_not,
    UInt8.le_iff_toNat_le, ne_eq, UInt8.ext_iff]
  simp at digit ⊢
  omega

theorem stoull_naturalText {n : Nat} (short : n < 2 ^ 64) : stoull (naturalText n) = some n := by
  obtain ⟨some, digits⟩ := naturalText_digits n
  have number := digitsValue_naturalText n
  have allDigits : (naturalText n).takeWhile isDigit = naturalText n := List.takeWhile_eq_self_iff.mpr digits
  obtain ⟨c, rest, text_eq⟩ := List.exists_cons_of_ne_nil some
  have digit : isDigit c = true := digits c (by simp [text_eq])
  have noMinus : c ≠ 45 := fun minus => nomatch minus ▸ digit
  have noPlus : c ≠ 43 := fun plus => nomatch plus ▸ digit
  have noSpace : (naturalText n).dropWhile isSpace = naturalText n := by
    rw [text_eq, List.dropWhile_cons_of_neg (by simp [isDigit_not_isSpace digit])]
  have first : (naturalText n).head? = Option.some c := by rw [text_eq, List.head?_cons]
  simp [stoull, noSpace, first, noMinus, noPlus, allDigits, some, number]
  exact short

theorem mainRounds_frame {sqlText : Bytes} (short : sqlText.length < 2 ^ 64) (rounds : Nat) (session : SqlSession)
    (rest : Bytes) : mainRounds (rounds + 1) session (frame sqlText ++ rest) =
      match answer session sqlText with
      | (none, after) => { exit := .unanswered, session := after }
      | (some line, after) => (mainRounds rounds after rest).after line := by
  have behind : frame sqlText ++ rest = naturalText sqlText.length ++ 10 :: (sqlText ++ rest) := by
    rw [frame, List.append_assoc, List.cons_append]
  rw [mainRounds, behind, getline_append (isLine_naturalText _)]
  obtain ⟨c, digits, text_eq⟩ := List.exists_cons_of_ne_nil (naturalText_digits sqlText.length).1
  have length := stoull_naturalText short
  rw [text_eq] at length ⊢
  cases answered : answer session sqlText with
  | mk written after =>
    cases written <;>
      simp only [length, List.length_append, Nat.not_lt.mpr (Nat.le_add_right _ _), if_false, List.take_left,
        List.drop_left, answered]

theorem mainRounds_frames {texts lines : List Bytes} {session : SqlSession} {rounds : Nat}
    (short : ∀ sqlText ∈ texts, sqlText.length < 2 ^ 64)
    (answered : Machine.answers answer session texts = lines.map some) (enough : texts.length ≤ rounds) :
    mainRounds rounds session (texts.flatMap frame) =
      { output := lines.flatMap fun line => line ++ [10], exit := .returned 0,
        session := Machine.after answer session texts } := by
  induction texts generalizing lines session rounds with
  | nil =>
    obtain rfl : lines = [] := List.map_eq_nil_iff.mp answered.symm
    cases rounds <;> rfl
  | cons sqlText texts ih =>
    obtain ⟨rounds, rfl⟩ : ∃ fewer, rounds = fewer + 1 := ⟨rounds - 1, by simp at enough; omega⟩
    obtain ⟨line, others, rfl, here, onward⟩ := List.map_eq_cons_iff.mp answered.symm
    rw [List.forall_mem_cons] at short
    have continued := ih short.2 onward.symm (Nat.le_of_succ_le_succ enough)
    rw [List.flatMap_cons, mainRounds_frame short.1]
    rw [show answer session sqlText = (some line, (answer session sqlText).2) from Prod.ext here.symm rfl]
    simp only [continued, Outcome.after, List.flatMap_cons, List.append_assoc, List.singleton_append]
    rfl

inductive Reply
  -- the text is no statement
  | malformed
  -- the statement is not carried out
  | refused
  | result (expected : ExecuteResult)

/-- What relations make of a text. -/
noncomputable def reply (r : Relations) (sqlText : Bytes) : Reply × Relations :=
  match parse sqlText with
  | .error _ => (.malformed, r)
  | .ok stmt => (((r.execute stmt).1.map Reply.result).getD .refused, (r.execute stmt).2)

/-- What a reader of JSON finds in the line. -/
def Tells (line : Bytes) : Reply → Prop
  | .malformed => ∃ message, Json.decode line = some (failureJson (bytesOf "SqlSyntaxError") message)
  | .refused => ∃ errorType message, errorType ≠ bytesOf "SqlSyntaxError" ∧
      Json.decode line = some (failureJson errorType message)
  | .result expected => ∃ result, Json.decode line = some (successJson result) ∧ Answers (.ok result) (some expected)

-- A text in UTF-8. Where the lexer stops at a character, it puts the first byte of it alone into its message.
def Legible (sqlText : Bytes) : Prop := IsUtf8 sqlText ∧ (IsAscii sqlText ∨ ∃ tokens, tokenize sqlText = .ok tokens)

theorem parseFailure_tells {sqlText : Bytes} (legible : Legible sqlText) {e : ParseException}
    (thrown : parse sqlText = .error e) : ∃ line, parseFailure e = some line ∧ IsLine line ∧ Tells line .malformed := by
  have plain := parse_plain legible.2 thrown
  obtain ⟨message, position, rfl⟩ := parse_throws thrown
  have inAscii : PlainText (message ++ " (at position " ++ toString position ++ ")") := by
    simpa [show PlainText message from plain] using by decide
  exact ⟨_, rfl, isLine_encodeFailure _ _, _, (spells_encodeFailure _ _).decode
    (isUtf8_encodeFailure (by decide) inAscii)⟩

theorem executeFailure_tells {e : Exception} (thrown : e.Thrown) (plain : e.Plain) :
    ∃ line, executeFailure e = some line ∧ IsLine line ∧ Tells line .refused := by
  have fails : ∀ errorType message, PlainText errorType → PlainText message →
      bytesOf errorType ≠ bytesOf "SqlSyntaxError" →
      IsLine (encodeFailure errorType message) ∧ Tells (encodeFailure errorType message) .refused :=
    fun errorType message plainType plain other => ⟨isLine_encodeFailure _ _, _, _, other,
      (spells_encodeFailure errorType message).decode (isUtf8_encodeFailure plainType plain)⟩
  cases e with
  | sqlSemanticError what => exact ⟨_, rfl, fails "SqlSemanticError" what (by decide) plain (by decide)⟩
  | invalidArgument what => exact ⟨_, rfl, fails "std::invalid_argument" what (by decide) plain (by decide)⟩
  | logicError what => exact ⟨_, rfl, fails "std::logic_error" what (by decide) plain (by decide)⟩
  | runtimeError what => exact ⟨_, rfl, fails "std::runtime_error" what (by decide) plain (by decide)⟩
  | transactionAborted txnId =>
    exact ⟨_, rfl, fails "std::runtime_error" _ (by decide) (by simpa using by decide +kernel) (by decide)⟩
  | asleep => exact thrown.elim
  | undefined => exact thrown.elim

theorem inUtf8_of_answers {result expected : ExecuteResult} (utf8 : expected.InUtf8)
    (answers : Answers (.ok result) (some expected)) : result.InUtf8 :=
  ⟨fun row isThere => utf8.rows row (answers.1.subset isThere), answers.2.1 ▸ utf8.columns⟩

theorem answer_tells {session : SqlSession} {r : Relations} (tracks : session.Tracks r) (utf8 : r.InUtf8)
    {sqlText : Bytes} (legible : Legible sqlText) (limits : (reply r sqlText).2.WithinLimits) (room : session.db.HasRoom)
    (roomAfter : (answer session sqlText).2.db.HasRoom) :
    (∃ line, (answer session sqlText).1 = some line ∧ IsLine line ∧ Tells line (reply r sqlText).1) ∧
      (answer session sqlText).2.Tracks (reply r sqlText).2 ∧ (reply r sqlText).2.InUtf8 := by
  rw [answer] at roomAfter ⊢
  rw [reply] at limits ⊢
  cases parsed : parse sqlText with
  | error e => exact ⟨parseFailure_tells legible parsed, tracks, utf8⟩
  | ok stmt =>
    simp only [parsed] at limits roomAfter ⊢
    have moved : ((SqlSession.execute stmt).exec session).2.db.HasRoom := by
      split at roomAfter <;> simp_all
    have wellFormed := parse_wellFormed parsed
    obtain ⟨answers, after⟩ := tracks.step wellFormed.named limits room moved
    obtain ⟨utf8After, utf8Answer⟩ := utf8.execute wellFormed (parse_utf8 legible.1 parsed)
    have plain := SqlSession.execute_wording (tracks.catalog_eq ▸ utf8.catalog) wellFormed
    revert answers after utf8After utf8Answer plain
    generalize (SqlSession.execute stmt).exec session = ended
    generalize r.execute stmt = expected
    intro answers after utf8After utf8Answer plain
    match ended, expected with
    | (.ok result, _), (some relation, _) =>
      have inUtf8 := inUtf8_of_answers (utf8Answer relation rfl) answers
      exact ⟨⟨_, rfl, isLine_encodeSuccess result, result,
        (spells_encodeSuccess result).decode (isUtf8_encodeSuccess inUtf8), answers⟩, after, utf8After⟩
    | (.error _, _), (none, _) => exact ⟨executeFailure_tells answers plain, after, utf8After⟩
    | (.ok _, _), (none, _) => exact answers.elim
    | (.error _, _), (some _, _) => exact answers.elim

theorem exists_lines {replies : List Reply} {written : List (Option Bytes)}
    (tells : List.Forall₂ (fun written reply => ∃ line, written = some line ∧ IsLine line ∧ Tells line reply)
      written replies) :
    ∃ lines : List Bytes, written = lines.map some ∧ (∀ line ∈ lines, IsLine line) ∧ List.Forall₂ Tells lines replies := by
  induction tells with
  | nil => exact ⟨[], rfl, nofun, .nil⟩
  | cons first _ ih =>
    obtain ⟨line, rfl, isLine, tells⟩ := first
    obtain ⟨lines, rfl, areLines, tell⟩ := ih
    exact ⟨line :: lines, rfl, List.forall_mem_cons.mpr ⟨isLine, areLines⟩, .cons tells tell⟩

/-- Texts go in behind their lengths; out come as many lines, each of them JSON, and what they say is what relations
answer. -/
theorem driver_answers (texts : List Bytes) (legible : ∀ sqlText ∈ texts, Legible sqlText)
    (short : ∀ sqlText ∈ texts, sqlText.length < 2 ^ 64)
    (limits : ∀ before, before <+: texts → (Machine.after reply .nothing before).WithinLimits)
    (room : ∀ before, before <+: texts → (Machine.after answer {} before).db.WithinIds) :
    ∃ lines, (main {} (texts.flatMap frame)).output = lines.flatMap (fun line => line ++ [10]) ∧
      (main {} (texts.flatMap frame)).exit = .returned 0 ∧ (∀ line ∈ lines, IsLine line) ∧
      List.Forall₂ Tells lines (Machine.answers reply .nothing texts) := by
  obtain ⟨answered, -⟩ := Machine.simulates (fun session r => SqlSession.Tracks session r ∧ r.InUtf8)
    (fun written reply => ∃ line, written = some line ∧ IsLine line ∧ Tells line reply)
    ⟨SqlSession.tracks_nothing, Relations.inUtf8_nothing⟩ fun before sqlText earlier related => by
      have limitsAfter := limits _ earlier
      have roomAfter := room _ earlier
      rw [Machine.after_snoc] at limitsAfter roomAfter
      exact answer_tells related.1 related.2 (legible sqlText (earlier.subset (by simp))) limitsAfter
        (room before ((List.prefix_append _ _).trans earlier)).toHasRoom roomAfter.toHasRoom
  obtain ⟨lines, written, areLines, tell⟩ := exists_lines answered
  have enough : texts.length ≤ (texts.flatMap frame).length := by
    have notEmpty : ∀ length ∈ texts.map (fun text => (frame text).length), 1 ≤ length := by
      simp [frame]
      omega
    rw [List.length_flatMap]
    simpa only [List.length_map] using List.length_le_sum_of_one_le _ notEmpty
  rw [main, mainRounds_frames short written enough]
  exact ⟨lines, rfl, rfl, areLines, tell⟩

theorem driver_answers_again : ∃ sqlText first second third,
    (main {} ([sqlText, sqlText, []].flatMap frame)).output = first ++ 10 :: (second ++ 10 :: (third ++ [10])) ∧
      Tells first (.result {}) ∧ Tells second .refused ∧ Tells third .malformed := by
  let stmt : Statement := .createTable ⟨"t", [⟨"a", .kInteger⟩], none⟩
  have parsed : parse (printStatement stmt) = .ok stmt :=
    parse_printStatement ⟨by decide, List.cons_ne_nil _ _, by decide, nofun⟩
  have ascii : IsAscii (printStatement stmt) := by decide
  obtain ⟨message, position, empty⟩ : ∃ message position, parse [] = .error (.sqlSyntaxError message position) :=
    ⟨_, _, rfl⟩
  have answered : ∀ session, (answer session (printStatement stmt)).2 = (SqlSession.respond session stmt).2 := by
    intro session
    rw [answer, parsed]
    simp only [SqlSession.respond]
    split <;> simp_all
  have silent : ∀ session, (answer session []).2 = session := fun session => by rw [answer, empty]
  have replied : ∀ r, reply r (printStatement stmt) =
      (((r.execute stmt).1.map Reply.result).getD .refused, (r.execute stmt).2) := fun r => by rw [reply, parsed]
  have ignored : ∀ r, reply r [] = (.malformed, r) := fun r => by rw [reply, empty]
  obtain ⟨lines, output, -, -, tell⟩ := driver_answers [printStatement stmt, printStatement stmt, []]
    (by simpa [Legible] using ⟨⟨ascii.isUtf8, .inl ascii⟩, isUtf8_nil, .inl (by simp [IsAscii])⟩)
    (by decide)
    (by
      intro before isPrefix table isTable index onTable
      have isIndex := (Catalog.mem_indexesOnTable.mp onTable).1
      simp only [List.prefix_cons_iff, List.prefix_nil] at isPrefix
      rcases isPrefix with rfl | ⟨_, rfl, rfl | ⟨_, rfl, rfl | ⟨_, rfl, rfl⟩⟩⟩
      · cases isIndex
      all_goals
        simp only [Machine.after, List.foldl_cons, List.foldl_nil, replied, ignored] at isIndex
        cases isIndex)
    (by
      intro before isPrefix
      simp only [List.prefix_cons_iff, List.prefix_nil] at isPrefix
      rcases isPrefix with rfl | ⟨_, rfl, rfl | ⟨_, rfl, rfl | ⟨_, rfl, rfl⟩⟩⟩ <;>
        simp only [Machine.after, List.foldl_cons, List.foldl_nil, answered, silent] <;>
        exact ⟨Database.hasRoom_of_two rfl rfl fun _ => rfl, by decide, by decide⟩)
  simp only [Machine.answers, replied, ignored] at tell
  obtain _ | ⟨first, _ | ⟨second, _ | ⟨third, _ | _⟩⟩⟩ := tell
  exact ⟨printStatement stmt, _, _, _, by simpa using output, first, second, third⟩

end FlintdbCli

end FlintDB
