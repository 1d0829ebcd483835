import FlintDB.Lib.Json
import FlintDB.Sql.Printer
import FlintDB.Sql.Session

set_option autoImplicit false

-- A process that takes SQL on its standard input, each text behind a line with its length, and writes one line of
-- JSON for each on its standard output.

namespace FlintDB

open Lib

namespace FlintdbCli

def hexDigitText (n : Nat) : UInt8 := if n < 10 then UInt8.ofNat (48 + n) else UInt8.ofNat (87 + n)

def jsonEscape (c : UInt8) : Bytes :=
  if c = 34 then bytesOf "\\\""
  else if c = 92 then bytesOf "\\\\"
  else if c = 10 then bytesOf "\\n"
  else if c = 9 then bytesOf "\\t"
  else if c = 13 then bytesOf "\\r"
  else if c = 8 then bytesOf "\\b"
  else if c = 12 then bytesOf "\\f"
  else if c < 32 then bytesOf "\\u00" ++ [hexDigitText (c.toNat / 16), hexDigitText (c.toNat % 16)]
  else [c]

def jsonEncodeString (text : Bytes) : Bytes := 34 :: (text.flatMap jsonEscape ++ [34])

def jsonEncodeLiteral : LiteralValue → Bytes
  | .integer value => integerText value.toInt
  | .text value => jsonEncodeString value

-- A loop that pushes a comma in front of every item but the first.
def commaSeparated {α : Type} (encode : α → Bytes) (items : List α) : Bytes :=
  items.zipIdx.flatMap fun (item, i) => (if 0 < i then [44] else []) ++ encode item

def encodeRow (row : List LiteralValue) : Bytes := 91 :: (commaSeparated jsonEncodeLiteral row ++ [93])

def encodeSuccess (result : ExecuteResult) : Bytes :=
  bytesOf "\x7b\"ok\":true,\"columns\":[" ++ commaSeparated (fun name => jsonEncodeString (bytesOf name)) result.columnNames ++
    bytesOf "],\"rows\":[" ++ commaSeparated encodeRow result.rows ++
    bytesOf "],\"rows_affected\":" ++ naturalText result.rowsAffected ++ bytesOf "\x7d"

-- A message, as a std::string is made of what what() points at.
def whatText (message : String) : Bytes := (bytesOf message).takeWhile fun c => c ≠ 0

def encodeFailure (errorType message : String) : Bytes :=
  bytesOf "\x7b\"ok\":false,\"error_type\":" ++ jsonEncodeString (bytesOf errorType) ++
    bytesOf ",\"error_message\":" ++ jsonEncodeString (whatText message) ++ bytesOf "\x7d"

-- What stoll's exceptions say is libstdc++'s choice. The last case is no exception.
def parseFailure : ParseException → Option Bytes
  | .sqlSyntaxError message position =>
    some (encodeFailure "SqlSyntaxError" (message ++ " (at position " ++ toString position ++ ")"))
  | .invalidArgument => some (encodeFailure "std::invalid_argument" "stoll")
  | .outOfRange => some (encodeFailure "std::out_of_range" "stoll")
  | .undefined => none

-- TransactionAbortedException is a std::runtime_error. The last two cases are no exceptions.
def executeFailure : Exception → Option Bytes
  | .sqlSemanticError what => some (encodeFailure "SqlSemanticError" what)
  | .invalidArgument what => some (encodeFailure "std::invalid_argument" what)
  | .logicError what => some (encodeFailure "std::logic_error" what)
  | .runtimeError what => some (encodeFailure "std::runtime_error" what)
  | .transactionAborted txnId =>
    some (encodeFailure "std::runtime_error" ("transaction " ++ toString txnId ++
      " aborted by the lock manager (wait-die: a younger transaction conflicted with an older one and was chosen as the victim)"))
  | .asleep | .undefined => none

/-- The line for one text, if the statement comes to an end. -/
def answer (session : SqlSession) (sqlText : Bytes) : Option Bytes × SqlSession :=
  match parse sqlText with
  | .error e => (parseFailure e, session)
  | .ok stmt =>
    match (SqlSession.execute stmt).exec session with
    | (.ok result, after) => (some (encodeSuccess result), after)
    | (.error e, after) => (executeFailure e, after)

-- std::getline.
def getline : Bytes → Option (Bytes × Bytes)
  | [] => none
  | input => some (input.takeWhile fun c => c ≠ 10, (input.dropWhile fun c => c ≠ 10).drop 1)

-- std::isspace.
def isSpace (c : UInt8) : Bool := c == 32 || (9 ≤ c && c ≤ 13)

-- std::stoull: what stands behind the digits is not looked at.
def stoull (line : Bytes) : Option Nat :=
  let text := line.dropWhile isSpace
  let negative := text.head? = some 45
  let number := if text.head? = some 45 ∨ text.head? = some 43 then text.tail else text
  let digits := number.takeWhile isDigit
  if digits = [] then none
  else if 2 ^ 64 ≤ digitsValue digits then none
  else if negative then some ((2 ^ 64 - digitsValue digits) % 2 ^ 64) else some (digitsValue digits)

inductive Exit
  | returned (status : Nat)
  -- an exception that leaves main: ReadExactBytes finds fewer bytes than it is to read
  | terminated
  -- the statement has neither returned nor thrown
  | unanswered
  deriving DecidableEq

structure Outcome where
  output : Bytes := []
  exit : Exit
  session : SqlSession

/-- A line in front of what is still to be written. -/
def Outcome.after (line : Bytes) (rest : Outcome) : Outcome := { rest with output := line ++ 10 :: rest.output }

-- `rounds` is enough when it is no less than what is left of the input.
def mainRounds : Nat → SqlSession → Bytes → Outcome
  | 0, session, _ => { exit := .returned 0, session := session }
  | rounds + 1, session, input =>
    match getline input with
    | none => { exit := .returned 0, session := session }
    | some ([], rest) => mainRounds rounds session rest
    | some (lengthLine, rest) =>
      match stoull lengthLine with
      | none => { exit := .returned 2, session := session }
      | some length =>
        if rest.length < length then { exit := .terminated, session := session }
        else
          match answer session (rest.take length) with
          | (none, after) => { exit := .unanswered, session := after }
          | (some line, after) => (mainRounds rounds after (rest.drop length)).after line

def main (session : SqlSession) (input : Bytes) : Outcome := mainRounds input.length session input

end FlintdbCli

end FlintDB
