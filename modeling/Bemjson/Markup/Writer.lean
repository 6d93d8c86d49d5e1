import Bemjson.Markup.Behavior
import Bemjson.Text.Ranges

/-! Markup of a tree. What has no meaningful markup is written as nothing. -/

namespace Bemjson

namespace Options

def writeText (o : Options) (s : String) : String := if o.escapeText then CharRef.escapeText s else s

def writeAttr (name : String) : Json → String
  | .null | .bool false => ""
  | .bool true => " " ++ name
  | v => " " ++ name ++ "=\"" ++ CharRef.escapeAttribute v.toMarkupText ++ "\""

def writeAttrs (attrs : Assoc Json) : String := String.join (attrs.map fun p => writeAttr p.1 p.2)

end Options

namespace Entity

def usesBem (e : Entity) : Bool := e.bem != some false

def extraClasses (e : Entity) : List String :=
  match e.cls.map fun cls => trimBlanks (CharRef.escapeAttribute cls) with
  | some cls => if cls.isEmpty then [] else [cls]
  | none => []

def classes (e : Entity) (o : Options) : List String :=
  (if e.usesBem then e.bemClasses o ++ e.initClasses o else []) ++ e.extraClasses

def classAttr (e : Entity) (o : Options) : String :=
  match e.classes o with
  | [] => ""
  | cs => " class=\"" ++ " ".intercalate cs ++ "\""

def attributes (e : Entity) (o : Options) : String :=
  e.classAttr o ++ Options.writeAttrs (e.attrs.getD []) ++ if e.usesBem then e.behaviorAttr o else ""

def inner (e : Entity) (content : Option String) : String :=
  match e.html with
  | some html => if html.isEmpty then content.getD "" else html
  | none => content.getD ""

def wrap (e : Entity) (o : Options) (content : Option String) : String :=
  match e.tag with
  | some "" => e.inner content
  | tag =>
    let name := tag.getD "div"
    "<" ++ name ++ e.attributes o ++
      if o.selfClosing.contains name then "/>" else ">" ++ e.inner content ++ "</" ++ name ++ ">"

theorem wrap_tag (e : Entity) (o : Options) (content : Option String) (h : e.tag ≠ some "") :
    e.wrap o content = "<" ++ e.tag.getD "div" ++ e.attributes o ++
      if o.selfClosing.contains (e.tag.getD "div") then "/>"
      else ">" ++ e.inner content ++ "</" ++ e.tag.getD "div" ++ ">" := by
  unfold wrap
  split
  · rename_i he
    exact absurd he h
  · rfl

end Entity

mutual

def Node.markupWith (o : Options) (custom : Entity → Option String → Option String) : Node → String
  | .null | .bool false => ""
  | .bool true => o.writeText "true"
  | .number n => o.writeText n.toPlainText
  | .text s => o.writeText s
  | .list items => Node.markupItems o custom items
  | .entity e => e.markupWith o custom

def Node.markupItems (o : Options) (custom : Entity → Option String → Option String) : List Node → String
  | [] => ""
  | n :: ns => n.markupWith o custom ++ Node.markupItems o custom ns

def Entity.markupWith (o : Options) (custom : Entity → Option String → Option String) : Entity → String
  | e@{ content, .. } =>
    let inside := match content with
      | some c => some (c.markupWith o custom)
      | none => none
    (custom e inside).getD (e.wrap o inside)

end

theorem Entity.markupWith_eq (o : Options) (custom : Entity → Option String → Option String) (e : Entity) :
    e.markupWith o custom = (custom e (e.content.map fun c => c.markupWith o custom)).getD
      (e.wrap o (e.content.map fun c => c.markupWith o custom)) := by
  obtain ⟨_, _, _, _, _, _, _, content, _⟩ := e
  cases content <;> rfl

def Node.plainMarkup (o : Options) (n : Node) : String := n.markupWith o fun _ _ => none

def Piece.write (o : Options) (e : Entity) (content : Option String) : Piece → Option String
  | .text s => some s
  | .content => content
  | .modifier name => ((e.mods.getD []).get? name).bind Json.string?
  | .plain => some ((Node.ofJson e.toJson).plainMarkup o)
  | .behaviorName => some o.jsAttrName

def Hook.write (o : Options) (e : Entity) (content : Option String) (hook : Hook) : String :=
  ((hook.mapM (Piece.write o e content)).map String.join).getD ""

def Node.markup (o : Options) (n : Node) : String :=
  n.markupWith o fun e content => e.hook.map (Hook.write o e content)

theorem Node.markup_entity (o : Options) (e : Entity) (h : e.hook = none) :
    (Node.entity e).markup o = e.wrap o (e.content.map fun c => c.markup o) := by
  rw [Node.markup, Node.markupWith, Entity.markupWith_eq, h, Option.map_none, Option.getD_none]
  rfl

end Bemjson
