import Bemjson.Proofs.Markup.Alike
import Bemjson.Proofs.RoundTrip.Rows

namespace Bemjson

def Mixin.bare (m : Mixin) : Mixin := { m with entity := m.entity.bare }

lemma Entity.shownMods_bare (e : Entity) : e.bare.shownMods = e.shownMods := by
  rw [Entity.bare_eq]
  rfl

lemma Entity.activeJs_bare (e : Entity) : e.bare.activeJs = e.activeJs := by
  rw [Entity.bare_eq, activeJs, activeJs]
  cases e.js with
  | none => rfl
  | some v => cases v <;> rfl

lemma Mixin.alike_bare (m : Mixin) : m.Alike m.bare :=
  ⟨rfl, rfl, m.entity.shownMods_bare, m.entity.activeJs_bare⟩

lemma Entity.mixin?_bare (host : Entity) (o : Options) (m : Entity) :
    host.bare.mixin? o m.bare = (host.mixin? o m).map Mixin.bare := by
  have hb : ∀ e : Entity, e.bare.block = e.block ∧ e.bare.elem = e.elem ∧ e.bare.bem = e.bem := by
    intro e
    rw [Entity.bare_eq]
    exact ⟨rfl, rfl, rfl⟩
  simp only [mixin?, mixedElem, (hb host).1, (hb host).2.1, (hb m).1, (hb m).2.1, (hb m).2.2]
  split
  · rfl
  · rw [Option.map_map]
    rfl

lemma Entity.alike_bare (e : Entity) (o : Options) : e.Alike o Mixin.bare e.bare := by
  have hmixins : e.bare.mixins o = (e.mixins o).map Mixin.bare := by
    have hmix : e.bare.mix = e.mix.map fun ms => ms.map Entity.bare := by rw [Entity.bare_eq]
    rw [mixins, mixins, hmix, List.map_filterMap]
    cases e.mix with
    | none => rfl
    | some ms => simp only [Option.map_some, Option.getD_some, List.filterMap_map, Function.comp_def, mixin?_bare]
  have htrue : (e.bare.js.map Json.isTrue).getD false = (e.js.map Json.isTrue).getD false := by
    have hjs : e.bare.js = e.js.bind Json.present := by rw [Entity.bare_eq]
    rw [hjs]
    cases e.js with
    | none => rfl
    | some v => cases v <;> rfl
  constructor
  case mixins => exact hmixins
  case isTrue => exact htrue
  case shownMods => exact e.shownMods_bare
  case activeJs => exact e.activeJs_bare
  all_goals simp [Entity.bare_eq, Entity.base?]

lemma Node.markup_bare {nulls : Prop} {n : Node} (h : n.Regular nulls) (o : Options) : n.bare.markup o = n.markup o := by
  induction n using Node.induction with
  | leaf n hn => cases n <;> first | rfl | cases hn
  | list items ih =>
    rw [Node.bare_list, Node.markup_list, Node.markup_list, List.map_map]
    exact congrArg String.join (List.map_congr_left fun n hn => ih n hn (Node.all_list.mp h n hn))
  | entity e hcontent _ =>
    obtain ⟨he, hc, _⟩ := Entity.all_iff.mp h
    have hhook : e.bare.hook = none := by
      rw [Entity.bare_eq]
      exact he.hook
    have hbare : e.bare.content = e.content.map Node.bare := by rw [Entity.bare_eq]
    have hinside : (e.content.map Node.bare).map (fun c => c.markup o) = e.content.map fun c => c.markup o := by
      rw [Option.map_map]
      exact Option.map_congr fun c hc' => hcontent c hc' (hc c hc')
    rw [Node.bare, Node.markup_entity o _ hhook, Node.markup_entity o e he.hook, hbare, hinside]
    exact (e.alike_bare o).wrap Mixin.alike_bare _

end Bemjson
