namespace Bemjson.Json

inductive Fault where
  | endOfValue
  | endOfList
  | endOfObject
  | endOfString
  | noValue
  | noIdent
  | noColon
  | noCommaOrBracket
  | noCommaOrBrace
  | keyNotString
  | trailingComma
  | trailingCharacters
  | badNumber
  | numberRange
  | badEscape
  | loneSurrogate
  | endOfHex
  | controlCharacter
  | tooDeep
  deriving DecidableEq

def Fault.message : Fault → String
  | endOfValue => "EOF while parsing a value"
  | endOfList => "EOF while parsing a list"
  | endOfObject => "EOF while parsing an object"
  | endOfString => "EOF while parsing a string"
  | noValue => "expected value"
  | noIdent => "expected ident"
  | noColon => "expected `:`"
  | noCommaOrBracket => "expected `,` or `]`"
  | noCommaOrBrace => "expected `,` or `\x7d`"
  | keyNotString => "key must be a string"
  | trailingComma => "trailing comma"
  | trailingCharacters => "trailing characters"
  | badNumber => "invalid number"
  | numberRange => "number out of range"
  | badEscape => "invalid escape"
  | loneSurrogate => "lone leading surrogate in hex escape"
  | endOfHex => "unexpected end of hex escape"
  | controlCharacter => "control character (\\u0000-\\u001F) found while parsing a string"
  | tooDeep => "recursion limit exceeded"

structure Failure where
  fault : Fault
  rest : List Char
  beyond : Nat

structure ReadError where
  fault : Fault
  line : Nat
  column : Nat
  deriving DecidableEq

def ReadError.message (e : ReadError) : String :=
  e.fault.message ++ " at line " ++ Nat.repr e.line ++ " column " ++ Nat.repr e.column

def byteCount (cs : List Char) : Nat := cs.foldl (fun n c => n + c.utf8Size) 0

def place (line column : Nat) : List Char → Nat → Nat × Nat
  | [], _ => (line, column)
  | c :: cs, n =>
    if n < c.utf8Size then (line, column + n)
    else if c = '\n' then place (line + 1) 0 cs (n - c.utf8Size)
    else place line (column + c.utf8Size) cs (n - c.utf8Size)

def Failure.locate (e : Failure) (source : List Char) : ReadError :=
  let (line, column) := place 1 0 source (byteCount source - byteCount e.rest + e.beyond)
  ⟨e.fault, line, column⟩

end Bemjson.Json
