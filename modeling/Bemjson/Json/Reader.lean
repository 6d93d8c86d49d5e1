import Bemjson.Json.Basic
import Bemjson.Json.ReadError

/-! Reading JSON text. The first fault wins, and its place is counted in bytes. -/

namespace Bemjson.Json

abbrev Reading := Except Failure

def fault {α : Type} (f : Fault) (rest : List Char) : Reading (α × List Char) := .error ⟨f, rest, 1⟩

def isBlank (c : Char) : Bool := c = ' ' || c = '\n' || c = '\t' || c = '\r'

def skipBlanks (cs : List Char) : List Char := cs.dropWhile isBlank

def readIdent {α : Type} (value : α) : List Char → List Char → Reading (α × List Char)
  | [], cs => .ok (value, cs)
  | _ :: _, [] => fault .endOfValue []
  | w :: ws, c :: cs => if c = w then readIdent value ws cs else fault .noIdent (c :: cs)

section Numbers

def digit (c : Char) : Nat := c.toNat - '0'.toNat

/-- Goes on with a significand for as long as it fits into 64 bits. -/
def gather (m : Nat) : List Char → Nat × List Char
  | [] => (m, [])
  | c :: cs => if 10 * m + digit c < Nat.pow 2 64 then gather (10 * m + digit c) cs else (m, c :: cs)

def maxExponent : Nat := 2147483647

def readExponentDigits (n : Nat) : List Char → Option Nat × List Char
  | [] => (some n, [])
  | c :: cs =>
    if c.isDigit then
      let m := 10 * n + digit c
      if maxExponent < m then (none, cs) else readExponentDigits m cs
    else (some n, c :: cs)

def signed (negative : Bool) (x : Float) : Float := if negative then -x else x

def tenTo (n : Nat) : Float := Float.ofScientific 1 false n

-- The significand is rounded first and the product once more, so this need not be the value nearest to the decimal.
def scale (x : Float) (e : Int) : Option Float :=
  if e.natAbs ≤ 308 then
    if e < 0 then some (x / tenTo e.natAbs)
    else if (x * tenTo e.natAbs).isInf then none
    else some (x * tenTo e.natAbs)
  else if x == 0.0 then some x
  else if 0 ≤ e then none
  else scale (x / tenTo 308) (e + 308)
termination_by e.natAbs

def readFloat (negative : Bool) (m : Nat) (e : Int) (cs : List Char) : Reading (Number × List Char) :=
  match scale m.toUInt64.toFloat e with
  | some x => .ok (.float (signed negative x), cs)
  | none => .error ⟨.numberRange, cs, 0⟩

def readExponent (negative : Bool) (m : Nat) (e : Int) (cs : List Char) : Reading (Number × List Char) :=
  let (minus, cs) := match cs with
    | '+' :: r => (false, r)
    | '-' :: r => (true, r)
    | _ => (false, cs)
  match cs with
  | [] => fault .endOfValue []
  | c :: _ =>
    if !c.isDigit then fault .badNumber cs
    else match readExponentDigits 0 cs with
      | (some n, r) => readFloat negative m (if minus then e - n else e + n) r
      | (none, r) =>
        if m ≠ 0 ∧ !minus then .error ⟨.numberRange, r, 0⟩
        else .ok (.float (signed negative 0.0), r.dropWhile Char.isDigit)

def readFraction (negative : Bool) (m : Nat) (e : Int) (cs : List Char) : Reading (Number × List Char) :=
  let digits := cs.takeWhile Char.isDigit
  let (m, beyond) := gather m digits
  let e := e - (digits.length - beyond.length : Nat)
  match digits, cs.dropWhile Char.isDigit with
  | [], [] => fault .endOfValue []
  | [], r => fault .badNumber r
  | _, 'e' :: r | _, 'E' :: r => readExponent negative m e r
  | _, r => readFloat negative m e r

def readWhole (negative : Bool) (m : Nat) (cs : List Char) : Reading (Number × List Char) :=
  if !negative then .ok (.int m, cs)
  else if 0 < m ∧ m ≤ Nat.pow 2 63 then .ok (.int (-m), cs)
  else readFloat true m 0 cs

/-- Digits beyond the significand count before the point, as powers of ten, and not behind it. -/
def readDigits (negative : Bool) (whole cs : List Char) : Reading (Number × List Char) :=
  let (m, beyond) := gather 0 whole
  match cs with
  | '.' :: r => readFraction negative m beyond.length r
  | 'e' :: r | 'E' :: r => readExponent negative m beyond.length r
  | _ => if beyond.isEmpty then readWhole negative m cs else readFloat negative m beyond.length cs

def readNumber (negative : Bool) : List Char → Reading (Number × List Char)
  | [] => fault .endOfValue []
  | c :: cs =>
    if !c.isDigit then fault .badNumber (c :: cs)
    else if c = '0' then
      if (cs.head?.map Char.isDigit).getD false then fault .badNumber cs
      else readDigits negative [c] cs
    else readDigits negative (c :: cs.takeWhile Char.isDigit) (cs.dropWhile Char.isDigit)

end Numbers

section Strings

def hexValue (c : Char) : Option Nat :=
  if '0' ≤ c ∧ c ≤ '9' then some (c.toNat - '0'.toNat)
  else if 'a' ≤ c ∧ c ≤ 'f' then some (c.toNat - 'a'.toNat + 10)
  else if 'A' ≤ c ∧ c ≤ 'F' then some (c.toNat - 'A'.toNat + 10)
  else none

def hexNumber (cs : List Char) : Option Nat :=
  cs.foldl (fun n c => n.bind fun n => (hexValue c).map (16 * n + ·)) (some 0)

/-- The four hexadecimal digits of an escape; four bytes are taken before any is looked at. -/
def readHex (cs : List Char) : Reading (Nat × List Char) :=
  if byteCount (cs.take 4) < 4 then .error ⟨.endOfString, [], 0⟩
  else match hexNumber (cs.take 4) with
    | some n => .ok (n, cs.drop 4)
    | none => .error ⟨.badEscape, cs, 4⟩

def isLeading (n : Nat) : Bool := 0xD800 ≤ n && n < 0xDC00

def isTrailing (n : Nat) : Bool := 0xDC00 ≤ n && n < 0xE000

def expectInString (c : Char) : List Char → Reading (List Char)
  | [] => .error ⟨.endOfString, [], 0⟩
  | d :: cs => if d = c then .ok cs else .error ⟨.endOfHex, d :: cs, 1⟩

def readUnicode (cs : List Char) : Reading (Char × List Char) := do
  let (n, cs) ← readHex cs
  if isTrailing n then .error ⟨.loneSurrogate, cs, 0⟩
  else if isLeading n then
    let cs ← expectInString '\\' cs
    let cs ← expectInString 'u' cs
    let (k, cs) ← readHex cs
    if isTrailing k then .ok (Char.ofNat ((n - 0xD800) * 0x400 + (k - 0xDC00) + 0x10000), cs)
    else .error ⟨.loneSurrogate, cs, 0⟩
  else .ok (Char.ofNat n, cs)

def readEscape : List Char → Reading (Char × List Char)
  | [] => .error ⟨.endOfString, [], 0⟩
  | c :: cs =>
    if c = '"' ∨ c = '\\' ∨ c = '/' then .ok (c, cs)
    else if c = 'b' then .ok (Char.ofNat 8, cs)
    else if c = 'f' then .ok (Char.ofNat 12, cs)
    else if c = 'n' then .ok ('\n', cs)
    else if c = 'r' then .ok ('\r', cs)
    else if c = 't' then .ok ('\t', cs)
    else if c = 'u' then readUnicode cs
    else fault .badEscape (c :: cs)

def readChars (done : List Char) : Nat → List Char → Reading (String × List Char)
  | 0, _ | _, [] => fault .endOfString []
  | steps + 1, c :: cs =>
    if c = '"' then .ok (String.ofList done.reverse, cs)
    else if c = '\\' then do
      let (c, cs) ← readEscape cs
      readChars (c :: done) steps cs
    else if c.toNat < 32 then fault .controlCharacter (c :: cs)
    else readChars (c :: done) steps cs

def readString (cs : List Char) : Reading (String × List Char) := readChars [] (cs.length + 1) cs

end Strings

section Values

variable (value : List Char → Reading (Json × List Char))

def readItems (done : List Json) : Nat → List Char → Reading (List Json × List Char)
  | 0, _ => fault .endOfList []
  | steps + 1, cs =>
    match skipBlanks cs with
    | [] => fault .endOfList []
    | ']' :: r => .ok (done.reverse, r)
    | ',' :: r =>
      match skipBlanks r with
      | [] => fault .endOfValue []
      | ']' :: s => fault .trailingComma (']' :: s)
      | s => do
        let (v, s) ← value s
        readItems (v :: done) steps s
    | r => fault .noCommaOrBracket r

def readArray (cs : List Char) : Reading (List Json × List Char) :=
  match skipBlanks cs with
  | [] => fault .endOfList []
  | ']' :: r => .ok ([], r)
  | r => do
    let (v, s) ← value r
    readItems value [v] (s.length + 1) s

def readField (cs : List Char) : Reading ((String × Json) × List Char) := do
  let (key, cs) ← readString cs
  match skipBlanks cs with
  | [] => fault .endOfObject []
  | ':' :: r => do
    let (v, r) ← value r
    .ok ((key, v), r)
  | r => fault .noColon r

def readFields (done : Assoc Json) : Nat → List Char → Reading (Assoc Json × List Char)
  | 0, _ => fault .endOfObject []
  | steps + 1, cs =>
    match skipBlanks cs with
    | [] => fault .endOfObject []
    | '}' :: r => .ok (done, r)
    | ',' :: r =>
      match skipBlanks r with
      | [] => fault .endOfValue []
      | '"' :: s => do
        let ((k, v), s) ← readField value s
        readFields (done.insert k v) steps s
      | '}' :: s => fault .trailingComma ('}' :: s)
      | s => fault .keyNotString s
    | r => fault .noCommaOrBrace r

def readObject (cs : List Char) : Reading (Assoc Json × List Char) :=
  match skipBlanks cs with
  | [] => fault .endOfObject []
  | '}' :: r => .ok ([], r)
  | '"' :: r => do
    let (p, s) ← readField value r
    readFields value [p] (s.length + 1) s
  | r => fault .keyNotString r

end Values

def readValue : Nat → List Char → Reading (Json × List Char)
  | depth, cs =>
    match skipBlanks cs with
    | [] => fault .endOfValue []
    | c :: r =>
      if c = 'n' then readIdent .null ['u', 'l', 'l'] r
      else if c = 't' then readIdent (.bool true) ['r', 'u', 'e'] r
      else if c = 'f' then readIdent (.bool false) ['a', 'l', 's', 'e'] r
      else if c = '-' then (readNumber true r).map fun (n, s) => (.number n, s)
      else if c.isDigit then (readNumber false (c :: r)).map fun (n, s) => (.number n, s)
      else if c = '"' then (readString r).map fun (t, s) => (.string t, s)
      else if c = '[' then
        match depth with
        | 0 => fault .tooDeep (c :: r)
        | d + 1 => (readArray (readValue d) r).map fun (vs, s) => (.array vs, s)
      else if c = '{' then
        match depth with
        | 0 => fault .tooDeep (c :: r)
        | d + 1 => (readObject (readValue d) r).map fun (fs, s) => (.object fs, s)
      else fault .noValue (c :: r)

def readAll (depth : Nat) (cs : List Char) : Except Failure Json := do
  let (v, rest) ← readValue depth cs
  match skipBlanks rest with
  | [] => .ok v
  | r => .error ⟨.trailingCharacters, r, 1⟩

def maxDepth : Nat := 127

def readWithin (depth : Nat) (source : String) : Except ReadError Json :=
  (readAll depth source.toList).mapError fun e => e.locate source.toList

def read (source : String) : Except ReadError Json := readWithin maxDepth source

end Bemjson.Json
