import Bemjson.Json.Printer
import Bemjson.Node.Basic

/-! The fields of an entity by the keys that JSON has for them, and trees from and to JSON. -/

namespace Bemjson

inductive Key where
  | tag
  | block
  | elem
  | mods
  | elemMods
  | mix
  | attrs
  | content
  | html
  | js
  | jsAttr
  | cls
  | bem
  | param (name : String)
  deriving DecidableEq

namespace Key

def name : Key → String
  | tag => "tag"
  | block => "block"
  | elem => "elem"
  | mods => "mods"
  | elemMods => "elemMods"
  | mix => "mix"
  | attrs => "attrs"
  | content => "content"
  | html => "html"
  | js => "js"
  | jsAttr => "jsAttr"
  | cls => "cls"
  | bem => "bem"
  | param s => s

def known : List Key := [tag, block, elem, mods, elemMods, mix, attrs, content, html, js, jsAttr, cls, bem]

def ofName (s : String) : Key := (known.find? fun k => k.name == s).getD (param s)

end Key

namespace Json

def toFieldText : Json → Option String
  | string s => some s
  | number n => some n.toJsonText
  | bool true => some "true"
  | _ => none

def toName (v : Json) : Option String := v.toFieldText.filter fun s => !s.isEmpty

def toTag (v : Json) : String := if v.isTruthy then v.toFieldText.getD "" else ""

def present : Json → Option Json
  | null => none
  | v => some v

end Json

namespace Entity

def write (e : Entity) (key : Key) (value : Json) (node : Node) : Entity :=
  match key with
  | .tag => { e with tag := some value.toTag }
  | .block => { e with block := value.toName }
  | .elem => { e with elem := value.toName }
  | .mods => { e with mods := value.fields? }
  | .elemMods => { e with elemMods := value.fields? }
  | .mix => { e with mix := some node.mixes }
  | .attrs => { e with attrs := value.fields? }
  | .content => { e with content := some node }
  | .html => { e with html := value.toFieldText }
  | .js => { e with js := value.present }
  | .jsAttr => { e with jsAttr := value.toFieldText }
  | .cls => { e with cls := value.toFieldText }
  | .bem => { e with bem := value.bool? }
  | .param name => { e with params := e.params.insert name value }

theorem fired_write (e : Entity) (key : Key) (value : Json) (node : Node) : (e.write key value node).fired = e.fired := by
  cases key <;> rfl

theorem stopped_write (e : Entity) (key : Key) (value : Json) (node : Node) :
    (e.write key value node).stopped = e.stopped := by
  cases key <;> rfl

end Entity

mutual

def Node.ofJson : Json → Node
  | .null => .null
  | .bool b => .bool b
  | .number n => .number n
  | .string s => .text s
  | .array items => .list (Node.ofItems items)
  | .object fields => .entity (Entity.ofFields {} fields)

def Node.ofItems : List Json → List Node
  | [] => []
  | v :: vs => Node.ofJson v :: Node.ofItems vs

def Entity.ofFields (e : Entity) : List (String × Json) → Entity
  | [] => e
  | (k, v) :: fields => Entity.ofFields (e.write (.ofName k) v (Node.ofJson v)) fields

end

mutual

def Node.toJson : Node → Json
  | .null => .null
  | .bool b => .bool b
  | .number n => .number n
  | .text s => .string s
  | .list items => .array (Node.toItems items)
  | .entity e => .object e.toFields

def Node.toItems : List Node → List Json
  | [] => []
  | n :: ns => n.toJson :: Node.toItems ns

def Entity.toFields : Entity → List (String × Json)
  | { tag, block, elem, mods, elemMods, mix, attrs, content, html, js, jsAttr, cls, bem, params, .. } =>
    let row (key : Key) (value : Option Json) : List (String × Json) :=
      (value.map fun v => (key.name, v)).toList
    row .tag (tag.map .string) ++ row .block (block.map .string) ++ row .elem (elem.map .string) ++
      row .mods (mods.map .object) ++ row .elemMods (elemMods.map .object) ++
      row .mix (match mix with
        | some ms => some (.array (Entity.toObjects ms))
        | none => none) ++
      row .attrs (attrs.map .object) ++
      row .content (match content with
        | some c => some c.toJson
        | none => none) ++
      row .html (html.map .string) ++ row .js js ++ row .jsAttr (jsAttr.map .string) ++
      row .cls (cls.map .string) ++ row .bem (bem.map .bool) ++ params

def Entity.toObjects : List Entity → List Json
  | [] => []
  | e :: es => .object e.toFields :: Entity.toObjects es

end

namespace Entity

def toJson (e : Entity) : Json := .object e.toFields

def ofJson (v : Json) : Entity := ofFields {} (v.fields?.getD [])

def read (e : Entity) : Key → Option Json
  | .tag => e.tag.map .string
  | .block => e.block.map .string
  | .elem => e.elem.map .string
  | .mods => e.mods.map .object
  | .elemMods => e.elemMods.map .object
  | .mix => e.mix.map fun ms => .array (ms.map toJson)
  | .attrs => e.attrs.map .object
  | .content => e.content.map Node.toJson
  | .html => e.html.map .string
  | .js => e.js
  | .jsAttr => e.jsAttr.map .string
  | .cls => e.cls.map .string
  | .bem => e.bem.map .bool
  | .param name => e.params.get? name

def field (e : Entity) (name : String) : Option Json := e.read (.ofName name)

def setField (e : Entity) (name : String) (value : Json) : Entity :=
  e.write (.ofName name) value (Node.ofJson value)

def path (e : Entity) (elemDelim : String) : String :=
  match e.elem with
  | some elem => e.block.getD "" ++ elemDelim ++ elem
  | none => e.block.getD ""

end Entity

end Bemjson
