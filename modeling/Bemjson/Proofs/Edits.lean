import Bemjson.Expansion.Trial
import Bemjson.Proofs.Records

namespace Bemjson

section Stays

variable {α : Type} {R : α → α → Prop} {a b c : Option α}

def Stays (R : α → α → Prop) (old new : Option α) : Prop := ∀ x, old = some x → ∃ y, new = some y ∧ R x y

lemma Stays.refl (hR : ∀ x, R x x) (a : Option α) : Stays R a a := fun x h => ⟨x, h, hR x⟩

lemma Stays.trans (hR : ∀ {x y z}, R x y → R y z → R x z) (h : Stays R a b) (h' : Stays R b c) : Stays R a c := by
  intro x hx
  obtain ⟨y, hy, hxy⟩ := h x hx
  obtain ⟨z, hz, hyz⟩ := h' y hy
  exact ⟨z, hz, hR hxy hyz⟩

lemma Stays.of_none (h : a = none) : Stays R a b := fun _ hx => absurd (h.symm.trans hx) nofun

lemma stays_fill (a : Option α) (x : α) : Stays Eq a (fill false a x) := by
  rintro y rfl
  exact ⟨y, rfl, rfl⟩

end Stays

namespace Entity

/-- Nothing that `e` has is lost in `e'`: modifiers, attributes and unknown fields have at most got new keys, which come
after the old ones, and mixins have at most got more of them at their end. -/
structure Keeps (e e' : Entity) : Prop where
  tag : Stays Eq e.tag e'.tag
  block : Stays Eq e.block e'.block
  elem : Stays Eq e.elem e'.elem
  mods : Stays Assoc.Grows e.mods e'.mods
  elemMods : Stays Assoc.Grows e.elemMods e'.elemMods
  mix : Stays (· <+: ·) e.mix e'.mix
  attrs : Stays Assoc.Grows e.attrs e'.attrs
  content : Stays Eq e.content e'.content
  html : Stays Eq e.html e'.html
  js : Stays Eq e.js e'.js
  jsAttr : Stays Eq e.jsAttr e'.jsAttr
  cls : Stays Eq e.cls e'.cls
  bem : Stays Eq e.bem e'.bem
  params : e.params.Grows e'.params
  hook : e'.hook = e.hook
  fired : e'.fired = e.fired
  stopped : e'.stopped = e.stopped

lemma Keeps.refl (e : Entity) : e.Keeps e where
  tag := .refl (fun _ => rfl) _
  block := .refl (fun _ => rfl) _
  elem := .refl (fun _ => rfl) _
  mods := .refl Assoc.Grows.refl _
  elemMods := .refl Assoc.Grows.refl _
  mix := .refl List.prefix_refl _
  attrs := .refl Assoc.Grows.refl _
  content := .refl (fun _ => rfl) _
  html := .refl (fun _ => rfl) _
  js := .refl (fun _ => rfl) _
  jsAttr := .refl (fun _ => rfl) _
  cls := .refl (fun _ => rfl) _
  bem := .refl (fun _ => rfl) _
  params := .refl _
  hook := rfl
  fired := rfl
  stopped := rfl

lemma Keeps.trans {a b c : Entity} (h : a.Keeps b) (h' : b.Keeps c) : a.Keeps c where
  tag := h.tag.trans Eq.trans h'.tag
  block := h.block.trans Eq.trans h'.block
  elem := h.elem.trans Eq.trans h'.elem
  mods := h.mods.trans Assoc.Grows.trans h'.mods
  elemMods := h.elemMods.trans Assoc.Grows.trans h'.elemMods
  mix := h.mix.trans List.IsPrefix.trans h'.mix
  attrs := h.attrs.trans Assoc.Grows.trans h'.attrs
  content := h.content.trans Eq.trans h'.content
  html := h.html.trans Eq.trans h'.html
  js := h.js.trans Eq.trans h'.js
  jsAttr := h.jsAttr.trans Eq.trans h'.jsAttr
  cls := h.cls.trans Eq.trans h'.cls
  bem := h.bem.trans Eq.trans h'.bem
  params := h.params.trans h'.params
  hook := h'.hook.trans h.hook
  fired := h'.fired.trans h.fired
  stopped := h'.stopped.trans h.stopped

variable {e : Entity}

lemma keeps_write {key : Key} (h : e.read key = none) (value : Json) (node : Node) : e.Keeps (e.write key value node) := by
  cases key with
  | tag => exact { Keeps.refl e with tag := .of_none (Option.map_eq_none_iff.mp h) }
  | block => exact { Keeps.refl e with block := .of_none (Option.map_eq_none_iff.mp h) }
  | elem => exact { Keeps.refl e with elem := .of_none (Option.map_eq_none_iff.mp h) }
  | mods => exact { Keeps.refl e with mods := .of_none (Option.map_eq_none_iff.mp h) }
  | elemMods => exact { Keeps.refl e with elemMods := .of_none (Option.map_eq_none_iff.mp h) }
  | mix => exact { Keeps.refl e with mix := .of_none (Option.map_eq_none_iff.mp h) }
  | attrs => exact { Keeps.refl e with attrs := .of_none (Option.map_eq_none_iff.mp h) }
  | content => exact { Keeps.refl e with content := .of_none (Option.map_eq_none_iff.mp h) }
  | html => exact { Keeps.refl e with html := .of_none (Option.map_eq_none_iff.mp h) }
  | js => exact { Keeps.refl e with js := .of_none h }
  | jsAttr => exact { Keeps.refl e with jsAttr := .of_none (Option.map_eq_none_iff.mp h) }
  | cls => exact { Keeps.refl e with cls := .of_none (Option.map_eq_none_iff.mp h) }
  | bem => exact { Keeps.refl e with bem := .of_none (Option.map_eq_none_iff.mp h) }
  | param name => exact { Keeps.refl e with params := Assoc.grows_insert (Assoc.get?_eq_none.mp h) value }

lemma keeps_setOwnMods {mods : Assoc Json} (h : (e.ownMods.getD []).Grows mods) : e.Keeps (e.setOwnMods mods) := by
  have hstays : Stays Assoc.Grows e.ownMods (some mods) := by
    intro x hx
    rw [hx] at h
    exact ⟨mods, rfl, h⟩
  rw [ownMods] at hstays
  rw [setOwnMods]
  split
  · rename_i he
    rw [if_pos he] at hstays
    exact { Keeps.refl e with elemMods := hstays }
  · rename_i he
    rw [if_neg he] at hstays
    exact { Keeps.refl e with mods := hstays }

lemma keeps_edit {change : Edit} (hjs : ∀ value, change ≠ .js value) : e.Keeps (e.edit false change) := by
  cases change with
  | tag s => exact { Keeps.refl e with tag := stays_fill _ _ }
  | cls s => exact { Keeps.refl e with cls := stays_fill _ _ }
  | html s => exact { Keeps.refl e with html := stays_fill _ _ }
  | bem b => exact { Keeps.refl e with bem := stays_fill _ _ }
  | content n => exact { Keeps.refl e with content := stays_fill _ _ }
  | mix n =>
    cases hm : e.mix with
    | none =>
      simp only [edit, hm]
      exact { Keeps.refl e with mix := .of_none hm }
    | some ms =>
      simp only [edit, hm]
      refine { Keeps.refl e with mix := ?_ }
      intro x hx
      obtain rfl := Option.some.inj (hm.symm.trans hx)
      exact ⟨_, rfl, List.prefix_append _ _⟩
  | mods values =>
    cases hv : values.fields? with
    | none =>
      simp only [edit, hv]
      exact .refl e
    | some fields =>
      simp only [edit, hv]
      exact keeps_setOwnMods (Assoc.grows_merge _ _)
  | mod name value => exact keeps_setOwnMods (Assoc.grows_put _ _ _)
  | attrs values =>
    cases hv : values.fields? with
    | none =>
      simp only [edit, hv]
      exact .refl e
    | some fields =>
      simp only [edit, hv]
      refine { Keeps.refl e with attrs := ?_ }
      intro x hx
      rw [hx]
      exact ⟨_, rfl, Assoc.grows_merge _ _⟩
  | attr name value =>
    refine { Keeps.refl e with attrs := ?_ }
    intro x hx
    rw [edit, hx]
    exact ⟨_, rfl, Assoc.grows_put _ _ _⟩
  | js value => exact absurd rfl (hjs value)
  | param key value =>
    cases hf : e.field key with
    | none =>
      simp only [edit, hf]
      exact keeps_write hf _ _
    | some old =>
      simp only [edit, hf]
      exact .refl e

def editAll (e : Entity) (force : Bool) (changes : List Edit) : Entity :=
  changes.foldl (fun e change => e.edit force change) e

lemma keeps_editAll {changes : List Edit} (hjs : ∀ change ∈ changes, ∀ value, change ≠ .js value) (e : Entity) :
    e.Keeps (e.editAll false changes) := by
  induction changes generalizing e with
  | nil => exact .refl e
  | cons change changes ih =>
    have hrest := ih (fun c hc => hjs c (List.mem_cons_of_mem _ hc)) (e.edit false change)
    exact (keeps_edit (hjs change List.mem_cons_self)).trans hrest

def without (e : Entity) : Key → Entity
  | .tag => { e with tag := none }
  | .block => { e with block := none }
  | .elem => { e with elem := none }
  | .mods => { e with mods := none }
  | .elemMods => { e with elemMods := none }
  | .mix => { e with mix := none }
  | .attrs => { e with attrs := none }
  | .content => { e with content := none }
  | .html => { e with html := none }
  | .js => { e with js := none }
  | .jsAttr => { e with jsAttr := none }
  | .cls => { e with cls := none }
  | .bem => { e with bem := none }
  | .param name => { e with params := e.params.filter fun p => p.1 ≠ name }

lemma without_write (e : Entity) (key : Key) (value : Json) (node : Node) :
    (e.write key value node).without key = e.without key := by
  cases key with
  | param name => simp only [write, without, Assoc.filter_insert]
  | _ => rfl

lemma without_setOwnMods (e : Entity) (mods : Assoc Json) :
    (e.setOwnMods mods).without (if e.elem.isSome then .elemMods else .mods) =
      e.without (if e.elem.isSome then .elemMods else .mods) := by
  rw [setOwnMods]
  split <;> rfl

lemma ownMods_setOwnMods (e : Entity) (mods : Assoc Json) : (e.setOwnMods mods).ownMods = some mods := by
  by_cases h : e.elem.isSome <;> simp [setOwnMods, ownMods, h]

end Entity

namespace Edit

def key (e : Entity) : Edit → Key
  | .tag _ => .tag
  | .cls _ => .cls
  | .html _ => .html
  | .bem _ => .bem
  | .content _ => .content
  | .mix _ => .mix
  | .mods _ | .mod _ _ => if e.elem.isSome then .elemMods else .mods
  | .attrs _ | .attr _ _ => .attrs
  | .js _ => .js
  | .param name _ => .ofName name

def settled (value : Json) : Key → Option Json
  | .tag => some (.string value.toTag)
  | .block | .elem => value.toName.map .string
  | .mods | .elemMods | .attrs => value.fields?.map .object
  | .mix => some (.array ((Node.ofJson value).mixes.map Entity.toJson))
  | .content => some (Node.ofJson value).toJson
  | .html | .jsAttr | .cls => value.toFieldText.map .string
  | .js => value.present
  | .bem => value.bool?.map .bool
  | .param _ => some value

/-- Reading the field that a change is about gives what was written. Of equal keys in an object the last one counts. -/
def ReadBack (e : Entity) : Edit → Prop
  | .tag s => e.tag = some s
  | .cls s => e.cls = some s
  | .html s => e.html = some s
  | .bem b => e.bem = some b
  | .content n => e.content = some n
  | .mix n => e.mix = some n.mixes
  | .mods values => ∀ key value, Assoc.get? (values.fields?.getD []).reverse key = some value →
      (e.ownMods.getD []).get? key = some value
  | .mod name value => (e.ownMods.getD []).get? name = some value
  | .attrs values => ∀ key value, Assoc.get? (values.fields?.getD []).reverse key = some value →
      (e.attrs.getD []).get? key = some value
  | .attr name value => (e.attrs.getD []).get? name = some value
  | .js value => e.js = some (if value.isTrue then .object [] else value)
  | .param name value => e.field name = settled value (.ofName name)

/-- What a change is about is not there yet; for an object this is about each of its keys, none of which comes twice. -/
def Lacking (e : Entity) : Edit → Prop
  | .tag _ => e.tag = none
  | .cls _ => e.cls = none
  | .html _ => e.html = none
  | .bem _ => e.bem = none
  | .content _ => e.content = none
  | .mix _ => e.mix = none
  | .mods values => (Assoc.keys (values.fields?.getD [])).Nodup ∧
      ∀ key ∈ Assoc.keys (values.fields?.getD []), (e.ownMods.getD []).get? key = none
  | .mod name _ => (e.ownMods.getD []).get? name = none
  | .attrs values => (Assoc.keys (values.fields?.getD [])).Nodup ∧
      ∀ key ∈ Assoc.keys (values.fields?.getD []), (e.attrs.getD []).get? key = none
  | .attr name _ => (e.attrs.getD []).get? name = none
  | .js _ => e.js = none
  | .param name _ => e.field name = none

end Edit

namespace Entity

lemma without_edit (e : Entity) (force : Bool) (change : Edit) :
    (e.edit force change).without (change.key e) = e.without (change.key e) := by
  cases change with
  | mix n => cases force <;> cases hm : e.mix <;> simp only [edit, hm] <;> rfl
  | mods values =>
    cases hv : values.fields? with
    | none => rw [edit, hv]
    | some fields =>
      simp only [edit, hv]
      exact without_setOwnMods e _
  | mod name value => exact without_setOwnMods e _
  | attrs values =>
    cases hv : values.fields? with
    | none => rw [edit, hv]
    | some fields =>
      simp only [edit, hv]
      rfl
  | param name value =>
    simp only [edit]
    split
    · exact without_write e _ value _
    · rfl
  | _ => rfl

lemma read_write (e : Entity) (key : Key) (value : Json) :
    (e.write key value (.ofJson value)).read key = Edit.settled value key := by
  cases key with
  | param name => simp [write, read, Edit.settled, Assoc.get?_insert]
  | _ => rfl

lemma get?_merge_written {force : Bool} {m fields : Assoc Json} {key : String} {value : Json}
    (h : force = true ∨ fields.keys.Nodup ∧ ∀ key ∈ fields.keys, m.get? key = none)
    (hv : Assoc.get? fields.reverse key = some value) : (m.merge force fields).get? key = some value := by
  cases force with
  | true => rw [Assoc.get?_merge_true, hv, Option.some_or]
  | false =>
    obtain ⟨hkeys, hnew⟩ := h.resolve_left nofun
    rw [Assoc.get?_reverse hkeys] at hv
    have hmem : key ∈ fields.keys := List.mem_map_of_mem ((Assoc.get?_eq_some hkeys).mp hv)
    rw [Assoc.get?_merge_false, hnew key hmem, Option.none_or, hv]

lemma readBack_edit {e : Entity} {force : Bool} {change : Edit}
    (h : force = true ∨ (∀ value, change ≠ .js value) ∧ change.Lacking e) : change.ReadBack (e.edit force change) := by
  have hlacking := h.imp_right And.right
  cases change with
  | mods values =>
    intro key value hv
    cases hf : values.fields? with
    | none => simp [hf, Assoc.get?] at hv
    | some fields =>
      simp only [Edit.Lacking, hf, Option.getD_some] at hlacking hv
      simp only [edit, hf]
      rw [ownMods_setOwnMods, Option.getD_some]
      exact get?_merge_written hlacking hv
  | mod name value =>
    simp only [edit, Edit.ReadBack]
    rw [ownMods_setOwnMods, Option.getD_some, Assoc.get?_put, if_pos ⟨rfl, hlacking⟩]
  | attrs values =>
    intro key value hv
    cases hf : values.fields? with
    | none => simp [hf, Assoc.get?] at hv
    | some fields =>
      simp only [Edit.Lacking, hf, Option.getD_some] at hlacking hv
      simp only [edit, hf, Option.getD_some]
      exact get?_merge_written hlacking hv
  | attr name value =>
    simp only [edit, Edit.ReadBack, Option.getD_some]
    rw [Assoc.get?_put, if_pos ⟨rfl, hlacking⟩]
  | param name value =>
    have hwritten : (force || (e.field name).isNone) = true := by
      rcases hlacking with rfl | hnone
      · rfl
      · rw [show e.field name = none from hnone, Option.isNone_none, Bool.or_true]
    rw [edit, if_pos hwritten]
    exact read_write e (.ofName name) value
  | mix n =>
    rcases hlacking with rfl | hnone
    · rfl
    · have hmix : e.mix = none := hnone
      cases force <;> simp [edit, Edit.ReadBack, hmix]
  | js value =>
    obtain rfl := h.resolve_right fun h => h.1 value rfl
    rfl
  | _ =>
    rcases hlacking with rfl | hnone
    · rfl
    · simp only [Edit.Lacking] at hnone
      simp [edit, Edit.ReadBack, fill, hnone]

end Entity

def Program.writeAll (force : Bool) : List Edit → Program Unit
  | [] => .done ()
  | change :: changes => .call (.edit change force) fun _ => writeAll force changes

lemma Focus.mapEntity_mapEntity (f : Focus) (g h : Entity → Entity) :
    (f.mapEntity g).mapEntity h = f.mapEntity fun e => h (g e) := by
  obtain ⟨node, replaced, slot, run⟩ := f
  cases node <;> rfl

lemma Program.exec_writeAll (env : Setting) (nested : Nested) (f : Focus) (force : Bool) (changes : List Edit) :
    (writeAll force changes).exec env nested f = some ((), f.mapEntity fun e => e.editAll force changes) := by
  induction changes generalizing f with
  | nil =>
    obtain ⟨node, replaced, slot, run⟩ := f
    cases node <;> rfl
  | cons change changes ih =>
    have hstep : (Call.edit change force).perform env nested f = some ((), f.mapEntity fun e => e.edit force change) := rfl
    simp only [writeAll, exec, hstep, Option.bind_some]
    rw [ih, Focus.mapEntity_mapEntity]
    rfl

/-- Changes that are not forced keep all that is there, each one changes its own field only, and what is written with force
or where nothing is yet is what is read there next. -/
theorem Program.writeAll_keeps {changes : List Edit} (hjs : ∀ change ∈ changes, ∀ value, change ≠ .js value)
    (env : Setting) (nested : Nested) (f : Focus) :
    (writeAll false changes).exec env nested f = some ((), f.mapEntity fun e => e.editAll false changes) ∧
      (∀ e : Entity, e.Keeps (e.editAll false changes)) ∧
      ∀ (e : Entity) (change : Edit),
        (∀ force, (writeAll force [change]).exec env nested { f with node := .entity e } =
            some ((), { f with node := .entity (e.edit force change) }) ∧
          (e.edit force change).without (change.key e) = e.without (change.key e)) ∧
        change.ReadBack (e.edit true change) ∧
        ((∀ value, change ≠ .js value) → change.Lacking e → change.ReadBack (e.edit false change)) := by
  refine ⟨exec_writeAll env nested f false changes, Entity.keeps_editAll hjs, fun e change => ⟨fun force => ?_, ?_, ?_⟩⟩
  · exact ⟨exec_writeAll env nested _ force [change], Entity.without_edit e force change⟩
  · exact Entity.readBack_edit (.inl rfl)
  · exact fun hjs hlacking => Entity.readBack_edit (.inr ⟨hjs, hlacking⟩)

section Turned

def turned : Entity :=
  { block := some "b", mods := some [("a", .null)], mix := some [{ block := some "m" }], params := [("p", .bool false)] }

def turning : List Edit :=
  [.mod "a" (.bool true), .mod "c" (.bool true), .param "elem" (.string "e"), .mod "a" (.bool true), .tag "i", .tag "b",
    .mix (.entity { block := some "n" }), .param "p" .null, .param "q" .null, .attr "d" .null]

theorem writeAll_keeps_turned :
    (∀ change ∈ turning, ∀ value, change ≠ .js value) ∧
      turned.editAll false turning =
        { turned with
          tag := some "i"
          elem := some "e"
          mods := some [("a", .null), ("c", .bool true)]
          elemMods := some [("a", .bool true)]
          mix := some [{ block := some "m" }, { block := some "n" }]
          attrs := some [("d", .null)]
          params := [("p", .bool false), ("q", .null)] } ∧
      turned.Keeps (turned.editAll false turning) ∧
      (Edit.param "elem" (.string "e")).Lacking turned ∧
      (turned.edit false (.param "elem" (.string "e"))).field "elem" = some (.string "e") := by
  have hjs : ∀ change ∈ turning, ∀ value, change ≠ .js value := by simp [turning]
  obtain ⟨-, hkeeps, hwrite⟩ := Program.writeAll_keeps hjs {} ⟨fun _ => none, fun _ _ => none⟩ ⟨.null, false, 0, {}⟩
  exact ⟨hjs, rfl, hkeeps turned, rfl, (hwrite turned (.param "elem" (.string "e"))).2.2 nofun rfl⟩

end Turned

end Bemjson
