import Bemjson.Json.Reader
import Bemjson.Text.Ranges

/-! Reading the arguments of a command line, from left to right; the first fault wins. -/

namespace Bemjson.CommandLine

/-- The text that was read, or the reason why it could not be. -/
abbrev Source := Except String String

instance : Coe String Source := ⟨.ok⟩

structure Sources where
  stdin : Source
  file : String → Source
  terminal : Bool := false

inductive UsageError where
  | secondInput
  | noValue (option : String)
  | badOptions (e : Json.ReadError)
  | optionsNoObject
  | unknownOption (arg : String)
  | unreadable (path reason : String)
  | unreadableStdin (reason : String)
  | noInput

inductive Stop where
  | help
  | version
  | usage (e : UsageError)

structure Request where
  input : Option String := none
  options : Option Json := none
  noEscape : Bool := false
  detectLoops : Bool := false
  verbose : Bool := false
  color : Bool := false

namespace Request

def setInput (r : Request) (text : String) : Except Stop Request :=
  if r.input.isSome then .error (.usage .secondInput) else .ok { r with input := some text }

def setOptions (r : Request) (text : String) : Except Stop Request :=
  match Json.read text with
  | .error e => .error (.usage (.badOptions e))
  | .ok (.object fields) => .ok { r with options := some (.object fields) }
  | .ok _ => .error (.usage .optionsNoObject)

def setFrom (r : Request) (source : Source) (unreadable : String → UsageError) : Except Stop Request :=
  match source with
  | .ok text => r.setInput text
  | .error reason => .error (.usage (unreadable reason))

def dropMarker (marker : List Char) : Nat → List Char → List Char
  | 0, cs => cs
  | times + 1, cs =>
    if marker.isPrefixOf cs then dropMarker marker times (cs.drop marker.length) else cs

def valueAfter? (marker arg : String) : Option String :=
  if marker.toList.isPrefixOf arg.toList then
    some (String.ofList (dropMarker marker.toList arg.toList.length arg.toList))
  else none

def readOther (r : Request) (sources : Sources) (arg : String) : Except Stop Request :=
  match valueAfter? "--options=" arg, valueAfter? "--input=" arg with
  | some text, _ => r.setOptions text
  | none, some text => r.setInput text
  | none, none =>
    if arg.toList.head? = some '-' then .error (.usage (.unknownOption arg))
    else r.setFrom (sources.file arg) (.unreadable arg)

def read (sources : Sources) (r : Request) : List String → Except Stop Request
  | [] => .ok r
  | "-h" :: _ | "--help" :: _ => .error .help
  | "-V" :: _ | "--version" :: _ => .error .version
  | "--color" :: args => read sources { r with color := true } args
  | "--no-color" :: args => read sources { r with color := false } args
  | "--no-escape" :: args => read sources { r with noEscape := true } args
  | "--detect-loops" :: args => read sources { r with detectLoops := true } args
  | "-v" :: args | "--verbose" :: args => read sources { r with verbose := true } args
  | ["--options"] => .error (.usage (.noValue "--options"))
  | "--options" :: text :: args => (r.setOptions text).bind fun r => read sources r args
  | ["--input"] | ["-i"] => .error (.usage (.noValue "--input"))
  | "--input" :: text :: args | "-i" :: text :: args => (r.setInput text).bind fun r => read sources r args
  | "-" :: args => (r.setFrom sources.stdin .unreadableStdin).bind fun r => read sources r args
  | arg :: args => (r.readOther sources arg).bind fun r => read sources r args

def text (r : Request) (sources : Sources) : Except Stop String :=
  match r.input with
  | some text => .ok text
  | none => sources.stdin.mapError fun reason => .usage (.unreadableStdin reason)

def readInput (sources : Sources) (args : List String) : Except Stop (Request × String) := do
  let r ← read sources { color := sources.terminal } args
  let input ← r.text sources
  if (trimBlanks input).isEmpty then .error (.usage .noInput) else .ok (r, input)

end Request

end Bemjson.CommandLine
