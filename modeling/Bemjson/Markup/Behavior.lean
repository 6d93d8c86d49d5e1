import Bemjson.Markup.Classes
import Bemjson.Text.CharRef

/-! Behavior: the params of an entity and its mixins, in one attribute, and the class that announces it. -/

namespace Bemjson

def Json.toParams (js : Json) : Json := if js.isTrue then .object [] else js

namespace Entity

def activeJs (e : Entity) : Option Json := e.js.filter Json.isTruthy

end Entity

def Mixin.hasJs (m : Mixin) : Bool := m.entity.activeJs.isSome

def Mixin.addParams (params : Assoc Json) (m : Mixin) : Assoc Json :=
  match m.entity.activeJs with
  | some js => params.insert m.base js.toParams
  | none => params

namespace Entity

def ownParams (e : Entity) (o : Options) : Assoc Json :=
  match e.base? o, e.activeJs with
  | some base, some js => [(base, js.toParams)]
  | _, _ => []

def behaviorParams (e : Entity) (o : Options) : Assoc Json :=
  (e.mixins o).foldl Mixin.addParams (e.ownParams o)

def hasMixinJs (e : Entity) (o : Options) : Bool := (e.mixins o).any Mixin.hasJs

def wantsInit (e : Entity) (o : Options) : Bool :=
  o.initOnElems || e.elem.isNone || (e.mixins o).any fun m => m.hasJs && m.elem.isNone

def initClasses (e : Entity) (o : Options) : List String :=
  if !(e.behaviorParams o).isEmpty && !o.initClass.isEmpty && e.wantsInit o then [o.initClass] else []

def behaviorText (e : Entity) (o : Options) : String :=
  match e.base? o, !e.hasMixinJs o && (e.js.map Json.isTrue).getD false with
  | some base, true => "\x7b\"" ++ base ++ "\":\x7b\x7d\x7d"
  | _, _ => CharRef.escapeBehavior (Json.object (e.behaviorParams o)).compact

def behaviorAttr (e : Entity) (o : Options) : String :=
  if (e.behaviorParams o).isEmpty then ""
  else
    " " ++ e.jsAttr.getD o.jsAttrName ++ "='" ++ (if o.callWrapped then "return " else "") ++ e.behaviorText o ++ "'"

end Entity

end Bemjson
