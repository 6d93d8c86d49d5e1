import Bemjson.Json.Printer
import Bemjson.Options.Basic
import Bemjson.Text.Ranges

/-! Changing options by a JSON object. The first thing wrong in it refuses the whole. -/

namespace Bemjson

inductive OptionKey where
  | jsAttrName
  | callWrapped
  | scheme
  | initClass
  | initOnElems
  | escapeText
  | noBaseMods
  | elemDelim
  | modDelim
  | selfClosing
  | detectLoops
  | ruleOrder
  deriving DecidableEq

namespace OptionKey

def all : List OptionKey :=
  [jsAttrName, callWrapped, scheme, initClass, initOnElems, escapeText, noBaseMods, elemDelim, modDelim,
    selfClosing, detectLoops, ruleOrder]

def name : OptionKey → String
  | jsAttrName => "behaviorAttrName"
  | callWrapped => "behaviorAttrIsCallWrapped"
  | scheme => "jsAttrScheme"
  | initClass => "initClassName"
  | initOnElems => "attachInitClassOnElements"
  | escapeText => "escapeText"
  | noBaseMods => "noBasePrefixForModifierClasses"
  | elemDelim => "elemDelimiter"
  | modDelim => "modDelimiter"
  | selfClosing => "shortTags"
  | detectLoops => "enableCycleDetection"
  | ruleOrder => "ruleOrder"

def alias? : OptionKey → Option String
  | jsAttrName => some "jsAttrName"
  | initClass => some "jsCls"
  | initOnElems => some "jsElem"
  | escapeText => some "escapeContent"
  | noBaseMods => some "clsNobaseMods"
  | elemDelim => some "delimElem"
  | modDelim => some "delimMod"
  | _ => none

def ofName? (s : String) : Option OptionKey := all.find? fun k => k.name == s || k.alias? == some s

end OptionKey

inductive Wanted where
  | boolean
  | string
  | sequence
  | unit
  | stringOrMap
  | patch
  deriving DecidableEq

def Wanted.text : Wanted → String
  | boolean => "a boolean"
  | string => "a string"
  | sequence => "a sequence"
  | unit => "unit"
  | stringOrMap => "string or map"
  | patch => "struct OptionsPatch"

inductive PatchError where
  | duplicate (key : OptionKey)
  | wrongType (got : Json) (wanted : Wanted)
  | unknownVariant (got : String) (known : List String)
  | notOneKey
  | notClass

def Json.describe : Json → String
  | null => "null"
  | bool b => "boolean `" ++ (if b then "true" else "false") ++ "`"
  | number (.int z) => "integer `" ++ toString z ++ "`"
  | number (.float x) => "floating point `" ++ Layout.json.write x ++ "`"
  | string s => "string " ++ quoted s
  | array _ => "sequence"
  | object _ => "map"

namespace PatchError

def cause : PatchError → String
  | duplicate key => "duplicate field `" ++ key.name ++ "`"
  | wrongType got wanted => "invalid type: " ++ got.describe ++ ", expected " ++ wanted.text
  | unknownVariant got known =>
    "unknown variant `" ++ got ++ "`, expected " ++ " or ".intercalate (known.map fun s => "`" ++ s ++ "`")
  | notOneKey => "invalid value: map, expected map with a single key"
  | notClass => "data did not match any variant of untagged enum NameOrFlag"

def message (e : PatchError) : String := "invalid options: " ++ e.cause

end PatchError

namespace Json

def expectBool : Json → Except PatchError Bool
  | bool b => .ok b
  | v => .error (.wrongType v .boolean)

def expectString : Json → Except PatchError String
  | string s => .ok s
  | v => .error (.wrongType v .string)

def expectStrings : Json → Except PatchError (List String)
  | array items => items.mapM expectString
  | v => .error (.wrongType v .sequence)

def expectClass : Json → Except PatchError String
  | string s => .ok s
  | bool _ => .ok ""
  | _ => .error .notClass

def expectName {α : Type} (known : List (String × α)) (s : String) : Except PatchError α :=
  match Assoc.get? known s with
  | some a => .ok a
  | none => .error (.unknownVariant s (Assoc.keys known))

def expectVariant {α : Type} (known : List (String × α)) : Json → Except PatchError α
  | string s => expectName known s
  | object [(s, v)] => do
    let a ← expectName known s
    match v with
    | null => .ok a
    | v => .error (.wrongType v .unit)
  | object _ => .error .notOneKey
  | v => .error (.wrongType v .stringOrMap)

end Json

structure Patch where
  jsAttrName : Option String := none
  callWrapped : Option Bool := none
  scheme : Option Bool := none
  initClass : Option String := none
  initOnElems : Option Bool := none
  escapeText : Option Bool := none
  noBaseMods : Option Bool := none
  elemDelim : Option String := none
  modDelim : Option String := none
  selfClosing : Option (List String) := none
  detectLoops : Option Bool := none
  ruleOrder : Option RuleOrder := none
  extra : Assoc Json := []

namespace Patch

def setOption (p : Patch) (value : Json) : OptionKey → Except PatchError Patch
  | .jsAttrName => value.expectString.map fun s => { p with jsAttrName := some s }
  | .callWrapped => value.expectBool.map fun b => { p with callWrapped := some b }
  | .scheme => (value.expectVariant [("js", true), ("json", false)]).map fun b => { p with scheme := some b }
  | .initClass => value.expectClass.map fun s => { p with initClass := some s }
  | .initOnElems => value.expectBool.map fun b => { p with initOnElems := some b }
  | .escapeText => value.expectBool.map fun b => { p with escapeText := some b }
  | .noBaseMods => value.expectBool.map fun b => { p with noBaseMods := some b }
  | .elemDelim => value.expectString.map fun s => { p with elemDelim := some s }
  | .modDelim => value.expectString.map fun s => { p with modDelim := some s }
  | .selfClosing => value.expectStrings.map fun tags => { p with selfClosing := some tags }
  | .detectLoops => value.expectBool.map fun b => { p with detectLoops := some b }
  | .ruleOrder =>
    (value.expectVariant [("registration", RuleOrder.registration), ("latestFirst", .latestFirst)]).map fun o =>
      { p with ruleOrder := some o }

def readFields (p : Patch) (seen : List OptionKey) : List (String × Json) → Except PatchError Patch
  | [] => .ok p
  | (name, value) :: fields =>
    match OptionKey.ofName? name with
    | none => readFields { p with extra := Assoc.insert p.extra name value } seen fields
    | some key =>
      if seen.contains key then .error (.duplicate key)
      else match value with
        | .null => readFields p (key :: seen) fields
        | value => (p.setOption value key).bind fun p => readFields p (key :: seen) fields

def read : Json → Except PatchError Patch
  | .object fields => readFields {} [] fields
  | v => .error (.wrongType v .patch)

def apply (p : Patch) (o : Options) : Options where
  jsAttrName := p.jsAttrName.getD o.jsAttrName
  callWrapped := p.scheme.getD (p.callWrapped.getD o.callWrapped)
  initClass := p.initClass.getD o.initClass
  initOnElems := p.initOnElems.getD o.initOnElems
  escapeText := p.escapeText.getD o.escapeText
  noBaseMods := p.noBaseMods.getD o.noBaseMods
  elemDelim := p.elemDelim.getD o.elemDelim
  modDelim := p.modDelim.getD o.modDelim
  selfClosing := (p.selfClosing.getD []).foldl (fun tags tag => if tags.contains tag then tags else tags ++ [tag])
    o.selfClosing
  detectLoops := p.detectLoops.getD o.detectLoops
  ruleOrder := p.ruleOrder.getD o.ruleOrder
  extra := Assoc.merge true o.extra p.extra

end Patch

def Options.patch (o : Options) (v : Json) : Except PatchError Options := (Patch.read v).map fun p => p.apply o

end Bemjson
