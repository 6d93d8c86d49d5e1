import Bemjson.Node.Field
import Bemjson.Options.Basic

namespace Bemjson

def Options.base (o : Options) (block : String) : Option String → String
  | some elem => block ++ o.elemDelim ++ elem
  | none => block

namespace Json

def isShown (v : Json) : Bool := v.isTruthy || v.isNumber

end Json

namespace Options

def modClass (o : Options) (base name : String) (value : Json) : String :=
  (if o.noBaseMods then "" else base) ++ o.modDelim ++ name ++
    if value.isTrue then "" else o.modDelim ++ value.toMarkupText

def modClasses (o : Options) (base : String) (mods : Assoc Json) : List String :=
  (mods.filter fun p => p.2.isShown).map fun p => o.modClass base p.1 p.2

end Options

structure Mixin where
  base : String
  elem : Option String
  entity : Entity

namespace Entity

def base? (e : Entity) (o : Options) : Option String := e.block.map fun block => o.base block e.elem

def shownMods (e : Entity) : Assoc Json :=
  match e.elem, e.elemMods with
  | some _, some mods => mods
  | _, _ => e.mods.getD []

/-- The element that an entity counts as when it is mixed into a host: its own; else none if it names a block;
else that of the host. -/
def mixedElem (host mix : Entity) : Option String :=
  match mix.elem, mix.block with
  | some elem, _ => some elem
  | none, some _ => none
  | none, none => host.elem

def mixin? (host : Entity) (o : Options) (mix : Entity) : Option Mixin :=
  if mix.bem = some false then none
  else (mix.block.or host.block).map fun block =>
    { base := o.base block (host.mixedElem mix), elem := host.mixedElem mix, entity := mix }

theorem mixin?_eq_some {host mix : Entity} {o : Options} {m : Mixin} : host.mixin? o mix = some m ↔
    mix.bem ≠ some false ∧ ∃ block, mix.block.or host.block = some block ∧
      { base := o.base block (host.mixedElem mix), elem := host.mixedElem mix, entity := mix } = m := by
  by_cases hbem : mix.bem = some false
  · simp [mixin?, hbem]
  · simp [mixin?, hbem, Option.map_eq_some_iff]

def mixins (host : Entity) (o : Options) : List Mixin :=
  (host.mix.getD []).filterMap (host.mixin? o)

def ownClasses (e : Entity) (o : Options) : List String :=
  match e.base? o with
  | some base => base :: o.modClasses base e.shownMods
  | none => []

end Entity

def Mixin.classes (m : Mixin) (o : Options) (hostBase : Option String) : List String :=
  (if hostBase = some m.base then [] else [m.base]) ++ o.modClasses m.base m.entity.shownMods

def Entity.bemClasses (e : Entity) (o : Options) : List String :=
  e.ownClasses o ++ (e.mixins o).flatMap fun m => m.classes o (e.base? o)

end Bemjson
