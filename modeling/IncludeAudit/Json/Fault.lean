import IncludeAudit.Json.Basic
import IncludeAudit.Json.Render
import IncludeAudit.Text.Quoted

/-!
# IncludeAudit.Json.Fault

What can be wrong with a JSON text, or with the value that it holds.

* `Problem`: the cause; `Problem.message` is the one place that words it.
* `Fault`: a problem met while reading, with what remains of the text.
* `Error`: a problem with its position, or without one where the value alone shows it.
-/

namespace IncludeAudit
namespace Json

/-- What stands where something else is expected. -/
inductive Found where
  | null
  | bool (b : Bool)
  | number (n : Number)
  | string (s : String)
  | sequence
  | map

namespace Found

def ofValue : Value → Found
  | .null => null
  | .bool b => bool b
  | .number n => number n
  | .string s => string s
  | .array _ => sequence
  | .object _ => map

def text : Found → String
  | null => "null"
  | bool true => "boolean `true`"
  | bool false => "boolean `false`"
  | number (.float x) => "floating point `" ++ numberLayout.text x ++ "`"
  | number n => "integer `" ++ String.ofList n.chars ++ "`"
  | string s => "string " ++ Text.quoted s
  | sequence => "sequence"
  | map => "map"

end Found

inductive Problem where
  | endInValue
  | endInString
  | endInArray
  | endInObject
  | valueExpected
  | nameExpected
  | colonExpected
  | commaOrBraceExpected
  | commaOrBracketExpected
  | trailingComma
  | trailingCharacters
  | wordExpected
  | badNumber
  | numberTooLarge
  | badEscape
  | halfPair
  | loneSurrogate
  | controlCharacter
  | tooDeep
  | wrongType (found : Found) (expected : String)
  | wrongValue (found : Found) (expected : String)
  | wrongLength (length : Nat) (expected : String)
  | missingField (name : String)
  | duplicateField (name : String)
  | unknownName (name : String) (names : List String)

/-- Whether the text breaks the rules of the format, ends too early, or holds another value. -/
inductive Category where
  | malformed
  | cutOff
  | unfit
deriving DecidableEq, Repr

namespace Problem

def backquoted (s : String) : String := "`" ++ s ++ "`"

/-- Two names are joined by `or`, more are listed. -/
def oneOf : List String → String
  | [] => "there are no variants"
  | [a] => "expected " ++ backquoted a
  | [a, b] => "expected " ++ backquoted a ++ " or " ++ backquoted b
  | names => "expected one of " ++ String.intercalate ", " (names.map backquoted)

def message : Problem → String
  | endInValue => "EOF while parsing a value"
  | endInString => "EOF while parsing a string"
  | endInArray => "EOF while parsing a list"
  | endInObject => "EOF while parsing an object"
  | valueExpected => "expected value"
  | nameExpected => "key must be a string"
  | colonExpected => "expected `:`"
  | commaOrBraceExpected => "expected `,` or `\x7d`"
  | commaOrBracketExpected => "expected `,` or `]`"
  | trailingComma => "trailing comma"
  | trailingCharacters => "trailing characters"
  | wordExpected => "expected ident"
  | badNumber => "invalid number"
  | numberTooLarge => "number out of range"
  | badEscape => "invalid escape"
  | halfPair => "unexpected end of hex escape"
  | loneSurrogate => "lone leading surrogate in hex escape"
  | controlCharacter => "control character (\\u0000-\\u001F) found while parsing a string"
  | tooDeep => "recursion limit exceeded"
  | wrongType found expected => "invalid type: " ++ found.text ++ ", expected " ++ expected
  | wrongValue found expected => "invalid value: " ++ found.text ++ ", expected " ++ expected
  | wrongLength length expected =>
    "invalid length " ++ toString length ++ ", expected " ++ expected
  | missingField name => "missing field " ++ backquoted name
  | duplicateField name => "duplicate field " ++ backquoted name
  | unknownName name names => "unknown variant " ++ backquoted name ++ ", " ++ oneOf names

def category : Problem → Category
  | endInValue | endInString | endInArray | endInObject => .cutOff
  | wrongType .. | wrongValue .. | wrongLength .. | missingField .. | duplicateField ..
  | unknownName .. => .unfit
  | _ => .malformed

end Problem

/-- The text up to the problem is all but `rest`, and `ahead` bytes of `rest`. -/
structure Fault where
  problem : Problem
  rest : List Char
  ahead : Nat := 0

/-- Lines count from one; the column is the number of bytes on the line. -/
structure Position where
  line : Nat
  column : Nat
deriving DecidableEq, Repr

structure Error where
  problem : Problem
  position? : Option Position := none

def utf8 (cs : List Char) : List UInt8 := Text.utf8 (String.ofList cs)

/-- The position right behind these bytes. -/
def Position.after (bytes : List UInt8) : Position :=
  let last := bytes.reverse.takeWhile (· ≠ 10)
  ⟨1 + bytes.count 10, last.length⟩

/-- A position never lies behind the end of the text. -/
def Fault.locate (text : List Char) (f : Fault) : Error :=
  let bytes := utf8 text
  ⟨f.problem, some (Position.after (bytes.take (bytes.length - (utf8 f.rest).length + f.ahead)))⟩

def Position.text (p : Position) : String :=
  "line " ++ toString p.line ++ " column " ++ toString p.column

def Error.message (e : Error) : String :=
  match e.position? with
  | none => e.problem.message
  | some p => e.problem.message ++ " at " ++ p.text

end Json
end IncludeAudit
