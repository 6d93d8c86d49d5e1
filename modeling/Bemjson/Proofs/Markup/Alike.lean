import Bemjson.Markup.Writer
import Mathlib.Tactic.Lemma

/-! What the tag of an entity shows: entities that agree on it are written alike around the same content. -/

namespace Bemjson

structure Mixin.Alike (m k : Mixin) : Prop where
  base : k.base = m.base
  elem : k.elem = m.elem
  shownMods : k.entity.shownMods = m.entity.shownMods
  activeJs : k.entity.activeJs = m.entity.activeJs

structure Entity.Alike (o : Options) (swap : Mixin → Mixin) (a b : Entity) : Prop where
  tag : b.tag = a.tag
  base : b.base? o = a.base? o
  elem : b.elem = a.elem
  shownMods : b.shownMods = a.shownMods
  attrs : b.attrs = a.attrs
  html : b.html = a.html
  activeJs : b.activeJs = a.activeJs
  isTrue : (b.js.map Json.isTrue).getD false = (a.js.map Json.isTrue).getD false
  jsAttr : b.jsAttr = a.jsAttr
  cls : b.cls = a.cls
  bem : b.bem = a.bem
  mixins : b.mixins o = (a.mixins o).map swap

section Mixins

variable {o : Options} {m k : Mixin} (h : m.Alike k)
include h

lemma Mixin.Alike.classes (base : Option String) : k.classes o base = m.classes o base := by
  rw [Mixin.classes, Mixin.classes, h.base, h.shownMods]

lemma Mixin.Alike.hasJs : k.hasJs = m.hasJs := by rw [Mixin.hasJs, Mixin.hasJs, h.activeJs]

lemma Mixin.Alike.addParams (params : Assoc Json) : Mixin.addParams params k = Mixin.addParams params m := by
  rw [Mixin.addParams, Mixin.addParams, h.activeJs, h.base]

end Mixins

namespace Entity.Alike

variable {o : Options} {swap : Mixin → Mixin} {a b : Entity} (hswap : ∀ m, Mixin.Alike m (swap m)) (h : a.Alike o swap b)
include hswap h

lemma bemClasses : b.bemClasses o = a.bemClasses o := by
  have hclasses := fun m => (hswap m).classes (o := o)
  simp only [Entity.bemClasses, ownClasses, h.base, h.shownMods, h.mixins, List.flatMap_map, hclasses]

lemma behaviorParams : b.behaviorParams o = a.behaviorParams o := by
  have hparams := fun m => (hswap m).addParams
  simp only [Entity.behaviorParams, ownParams, h.base, h.activeJs, h.mixins, List.foldl_map, hparams]

lemma hasMixinJs : b.hasMixinJs o = a.hasMixinJs o := by
  have hjs := fun m => (hswap m).hasJs
  simp only [Entity.hasMixinJs, h.mixins, List.any_map, Function.comp_def, hjs]

lemma wantsInit : b.wantsInit o = a.wantsInit o := by
  have hjs := fun m => (hswap m).hasJs
  have helem := fun m => (hswap m).elem
  simp only [Entity.wantsInit, h.elem, h.mixins, List.any_map, Function.comp_def, hjs, helem]

lemma initClasses : b.initClasses o = a.initClasses o := by
  rw [Entity.initClasses, Entity.initClasses, h.behaviorParams hswap, h.wantsInit hswap]

lemma behaviorText : b.behaviorText o = a.behaviorText o := by
  rw [Entity.behaviorText, Entity.behaviorText, h.base, h.hasMixinJs hswap, h.isTrue, h.behaviorParams hswap]

lemma attributes : b.attributes o = a.attributes o := by
  have hclasses : b.classes o = a.classes o := by
    rw [Entity.classes, Entity.classes, usesBem, usesBem, extraClasses, extraClasses, h.bem, h.cls,
      h.bemClasses hswap, h.initClasses hswap]
  rw [Entity.attributes, Entity.attributes, classAttr, classAttr, hclasses, h.attrs, usesBem, usesBem, h.bem,
    behaviorAttr, behaviorAttr, h.behaviorParams hswap, h.jsAttr, h.behaviorText hswap]

lemma wrap (content : Option String) : b.wrap o content = a.wrap o content := by
  have hinner : ∀ content, b.inner content = a.inner content := fun content => by
    rw [Entity.inner, Entity.inner, h.html]
  rw [Entity.wrap, Entity.wrap, h.tag, h.attributes hswap, hinner]

end Entity.Alike

lemma Node.markupWith_list (o : Options) (custom : Entity → Option String → Option String) (items : List Node) :
    (Node.list items).markupWith o custom = String.join (items.map fun n => n.markupWith o custom) := by
  rw [Node.markupWith]
  induction items with
  | nil => rfl
  | cons n ns ih => rw [Node.markupItems, ih, List.map_cons, String.join_cons]

lemma Node.markup_list (o : Options) (items : List Node) :
    (Node.list items).markup o = String.join (items.map fun n => n.markup o) :=
  Node.markupWith_list o _ items

end Bemjson
