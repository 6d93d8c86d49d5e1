import Bemjson.Node.Field

/-! Edits of an entity. One that is not forced keeps what is there; for records this holds key by key. -/

namespace Bemjson

inductive Edit where
  | tag (s : String)
  | cls (s : String)
  | html (s : String)
  | bem (b : Bool)
  | content (n : Node)
  | mix (n : Node)
  | mods (values : Json)
  | mod (name : String) (value : Json)
  | attrs (values : Json)
  | attr (name : String) (value : Json)
  | js (value : Json)
  | param (key : String) (value : Json)

def fill {α : Type} (force : Bool) (old : Option α) (new : α) : Option α :=
  if force || old.isNone then some new else old

namespace Entity

def setOwnMods (e : Entity) (mods : Assoc Json) : Entity :=
  if e.elem.isSome then { e with elemMods := some mods } else { e with mods := some mods }

/-- The params of behavior after a value is written over `old`. Forced, the value itself is taken, and `true`
becomes an empty object; else a value that counts as true makes an object, and its new keys are added. -/
def mergeJs (force : Bool) (old : Option Json) (value : Json) : Option Json :=
  if force then some (if value.isTrue then .object [] else value)
  else if value.isTruthy then
    some (.object (((old.bind Json.fields?).getD []).merge false (value.fields?.getD [])))
  else old

def edit (e : Entity) (force : Bool) : Edit → Entity
  | .tag s => { e with tag := fill force e.tag s }
  | .cls s => { e with cls := fill force e.cls s }
  | .html s => { e with html := fill force e.html s }
  | .bem b => { e with bem := fill force e.bem b }
  | .content n => { e with content := fill force e.content n }
  | .mix n =>
    match force, e.mix with
    | false, some ms => { e with mix := some (ms ++ n.mixes) }
    | _, _ => { e with mix := some n.mixes }
  | .mods values =>
    match values.fields? with
    | some fields => e.setOwnMods ((e.ownMods.getD []).merge force fields)
    | none => e
  | .mod name value => e.setOwnMods ((e.ownMods.getD []).put force name value)
  | .attrs values =>
    match values.fields? with
    | some fields => { e with attrs := some ((e.attrs.getD []).merge force fields) }
    | none => e
  | .attr name value => { e with attrs := some ((e.attrs.getD []).put force name value) }
  | .js value => { e with js := mergeJs force e.js value }
  | .param key value => if force || (e.field key).isNone then e.setField key value else e

theorem fired_setOwnMods (e : Entity) (mods : Assoc Json) : (e.setOwnMods mods).fired = e.fired := by
  unfold setOwnMods
  split <;> rfl

theorem stopped_setOwnMods (e : Entity) (mods : Assoc Json) : (e.setOwnMods mods).stopped = e.stopped := by
  unfold setOwnMods
  split <;> rfl

/-- Edits are about what is written; which rules have been run is not. -/
theorem fired_edit (e : Entity) (force : Bool) (change : Edit) : (e.edit force change).fired = e.fired := by
  cases change with
  | mix n => cases force <;> cases h : e.mix <;> simp [edit, h]
  | mods values => cases h : values.fields? <;> simp [edit, h, fired_setOwnMods]
  | mod name value => exact fired_setOwnMods e _
  | attrs values => cases h : values.fields? <;> simp [edit, h]
  | param key value =>
    simp only [edit]
    split
    · exact fired_write e _ value _
    · rfl
  | _ => rfl

theorem stopped_edit (e : Entity) (force : Bool) (change : Edit) : (e.edit force change).stopped = e.stopped := by
  cases change with
  | mix n => cases force <;> cases h : e.mix <;> simp [edit, h]
  | mods values => cases h : values.fields? <;> simp [edit, h, stopped_setOwnMods]
  | mod name value => exact stopped_setOwnMods e _
  | attrs values => cases h : values.fields? <;> simp [edit, h]
  | param key value =>
    simp only [edit]
    split
    · exact stopped_write e _ value _
    · rfl
  | _ => rfl

end Entity

end Bemjson
