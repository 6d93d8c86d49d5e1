import Bemjson.Proofs.Markup.Behavior
import Bemjson.Proofs.Markup.Grammar

namespace Bemjson

open Markup CharRef

section Names

def Plain (s : String) : Prop := IsName s.toList

instance (s : String) : Decidable (Plain s) := inferInstanceAs (Decidable (IsName s.toList))

structure Options.Plain (o : Options) : Prop where
  escapeText : o.escapeText = true
  elemDelim : Bemjson.Plain o.elemDelim
  modDelim : Bemjson.Plain o.modDelim
  initClass : Bemjson.Plain o.initClass
  jsAttrName : Bemjson.Plain o.jsAttrName

structure Entity.PlainClasses (e : Entity) : Prop where
  block : ∀ s, e.block = some s → Plain s
  elem : ∀ s, e.elem = some s → Plain s
  mods : ∀ p ∈ e.shownMods, p.2.isShown = true → Plain p.1 ∧ (p.2.isTrue = false → Plain p.2.toMarkupText)

structure Entity.PlainTag (e : Entity) : Prop where
  hook : e.hook = none
  html : e.html.getD "" = ""
  tag : ∀ s, e.tag = some s → Plain s
  attrs : ∀ p ∈ e.attrs.getD [], Plain p.1 ∧ p.1 ≠ ""
  jsAttr : ∀ s, e.jsAttr = some s → Plain s
  own : e.PlainClasses
  mix : ∀ m ∈ e.mix.getD [], m.PlainClasses

mutual

def Node.Plain : Node → Prop
  | .list items => Node.PlainItems items
  | .entity e => e.Plain
  | _ => True

def Node.PlainItems : List Node → Prop
  | [] => True
  | n :: ns => n.Plain ∧ Node.PlainItems ns

def Entity.Plain : Entity → Prop
  | e@{ content, .. } =>
    e.PlainTag ∧ match content with
      | some c => c.Plain
      | none => True

end

lemma Entity.Plain.plainTag {e : Entity} (he : e.Plain) : e.PlainTag := by
  obtain ⟨_, _, _, _, _, _, _, content, _⟩ := e
  cases content <;> exact he.1

end Names

section Escapes

lemma CharRef.escapeWith_of_not_mem {chosen cs : List Char} (h : ∀ c ∈ cs, c ∉ chosen) : escapeWith chosen cs = cs := by
  induction cs with
  | nil => rfl
  | cons c cs ih =>
    obtain ⟨hc, hcs⟩ := List.forall_mem_cons.mp h
    rw [escapeWith_cons, if_neg hc, ih hcs]
    rfl

lemma CharRef.escapeWith_eq_nil {chosen cs : List Char} : escapeWith chosen cs = [] ↔ cs = [] := by
  constructor
  · intro h
    have hlength := length_escapeWith chosen cs
    rw [h] at hlength
    exact List.eq_nil_of_length_eq_zero (Nat.le_zero.mp hlength)
  · rintro rfl
    rfl

lemma CharRef.escapeWith_intercalate {chosen sep : List Char} (h : escapeWith chosen sep = sep) (words : List (List Char)) :
    escapeWith chosen (sep.intercalate words) = sep.intercalate (words.map (escapeWith chosen)) := by
  induction words with
  | nil => rfl
  | cons word words ih =>
    cases words with
    | nil => simp
    | cons next words =>
      rw [List.intercalate_cons_cons, escapeWith_append, escapeWith_append, h, ih]
      exact List.intercalate_cons_cons.symm

lemma CharRef.ofChar_ends (c : Char) : (∃ r, ofChar c = '&' :: r) ∧ ∃ r, (ofChar c).reverse = ';' :: r := by
  unfold ofChar
  repeat' split
  all_goals exact ⟨⟨_, rfl⟩, _, rfl⟩

lemma dropWhile_flatMap {g : Char → List Char} (hblank : ∀ c, isWhiteSpace c = true → g c = [c])
    (hother : ∀ c, isWhiteSpace c = false → ∃ d r, g c = d :: r ∧ isWhiteSpace d = false) (cs : List Char) :
    (cs.flatMap g).dropWhile isWhiteSpace = (cs.dropWhile isWhiteSpace).flatMap g := by
  induction cs with
  | nil => rfl
  | cons c cs ih =>
    cases hc : isWhiteSpace c with
    | true => rw [List.flatMap_cons, hblank c hc, List.singleton_append, List.dropWhile_cons_of_pos hc, ih,
        List.dropWhile_cons_of_pos hc]
    | false =>
      obtain ⟨d, r, hg, hd⟩ := hother c hc
      have hcn : ¬isWhiteSpace c = true := by simp [hc]
      have hdn : ¬isWhiteSpace d = true := by simp [hd]
      rw [List.dropWhile_cons_of_neg hcn, List.flatMap_cons, hg, List.cons_append, List.dropWhile_cons_of_neg hdn]

def CharRef.attributeChar (c : Char) : List Char := if inAttribute.contains c then ofChar c else [c]

lemma CharRef.attributeChar_blank {c : Char} (hc : isWhiteSpace c = true) : attributeChar c = [c] := by
  refine if_neg fun h => ?_
  have hmem : c = '&' ∨ c = '"' := by simpa [inAttribute] using h
  rcases hmem with rfl | rfl <;> exact absurd hc (by decide)

lemma CharRef.attributeChar_ends {c : Char} (hc : isWhiteSpace c = false) :
    (∃ d r, attributeChar c = d :: r ∧ isWhiteSpace d = false) ∧
      ∃ d r, (attributeChar c).reverse = d :: r ∧ isWhiteSpace d = false := by
  unfold attributeChar
  split
  · obtain ⟨⟨r, hr⟩, t, ht⟩ := ofChar_ends c
    exact ⟨⟨_, r, hr, by decide⟩, _, t, ht, by decide⟩
  · exact ⟨⟨c, [], rfl, hc⟩, c, [], rfl, hc⟩

lemma trimBlanks_escapeAttribute (s : String) : trimBlanks (escapeAttribute s) = escapeAttribute (trimBlanks s) := by
  have hfront (cs : List Char) : (cs.flatMap attributeChar).dropWhile isWhiteSpace =
      (cs.dropWhile isWhiteSpace).flatMap attributeChar :=
    dropWhile_flatMap (fun c hc => attributeChar_blank hc) (fun c hc => (attributeChar_ends hc).1) cs
  have hback (cs : List Char) : (cs.flatMap (List.reverse ∘ attributeChar)).dropWhile isWhiteSpace =
      (cs.dropWhile isWhiteSpace).flatMap (List.reverse ∘ attributeChar) := by
    refine dropWhile_flatMap (fun c hc => ?_) (fun c hc => (attributeChar_ends hc).2) cs
    exact congrArg List.reverse (attributeChar_blank hc)
  have hescape (cs : List Char) : escapeWith inAttribute cs = cs.flatMap attributeChar := rfl
  simp only [trimBlanks, escapeAttribute, String.toList_ofList, hescape]
  rw [hfront, List.reverse_flatMap, hback, List.reverse_flatMap]
  simp only [Function.comp_def, List.reverse_reverse]

lemma isEmpty_escapeAttribute (s : String) : (escapeAttribute s).isEmpty = s.isEmpty := by
  rw [Bool.eq_iff_iff, String.isEmpty_iff, String.isEmpty_iff, CharRef.escapeAttribute]
  simp [escapeWith_eq_nil]

lemma Plain.escapeAttribute {s : String} (hs : Plain s) : escapeAttribute s = s := by
  have hplain : ∀ c ∈ s.toList, c ∉ inAttribute := by
    intro c hc h
    have hmem : c = '&' ∨ c = '"' := by simpa [inAttribute] using h
    rcases hmem with rfl | rfl <;> exact absurd (hs _ hc) (by decide)
  rw [CharRef.escapeAttribute, escapeWith_of_not_mem hplain, String.ofList_toList]

end Escapes

section Classes

variable {o : Options}

lemma Plain.append {s t : String} (hs : Plain s) (ht : Plain t) : Plain (s ++ t) := by
  intro c hc
  rw [String.toList_append] at hc
  exact (List.mem_append.mp hc).elim (hs c) (ht c)

lemma Plain.not_mem {s : String} (hs : Plain s) {c : Char} (hc : ¬IsNameChar c) : c ∉ s.toList := fun h => hc (hs c h)

lemma Options.Plain.base (ho : o.Plain) {block : String} {elem : Option String} (hb : Bemjson.Plain block)
    (he : ∀ s, elem = some s → Bemjson.Plain s) : Bemjson.Plain (o.base block elem) := by
  cases elem with
  | none => exact hb
  | some elem => exact (hb.append ho.elemDelim).append (he elem rfl)

lemma Options.Plain.modClasses (ho : o.Plain) {base : String} (hb : Bemjson.Plain base) {mods : Assoc Json}
    (hm : ∀ p ∈ mods, p.2.isShown = true → Bemjson.Plain p.1 ∧ (p.2.isTrue = false → Bemjson.Plain p.2.toMarkupText)) :
    ∀ c ∈ o.modClasses base mods, Bemjson.Plain c := by
  intro c hc
  obtain ⟨p, hp, rfl⟩ := List.mem_map.mp hc
  obtain ⟨hmem, hshown⟩ := List.mem_filter.mp hp
  obtain ⟨hname, hvalue⟩ := hm p hmem hshown
  have hempty : Bemjson.Plain "" := by decide
  have hstart : Bemjson.Plain (if o.noBaseMods then "" else base) := by
    split
    · exact hempty
    · exact hb
  refine ((hstart.append ho.modDelim).append hname).append ?_
  split
  · exact hempty
  · rename_i hv
    exact ho.modDelim.append (hvalue (by simpa using hv))

namespace Entity

variable {e : Entity}

lemma PlainClasses.base (he : e.PlainClasses) (ho : o.Plain) {base : String} (h : e.base? o = some base) :
    Bemjson.Plain base := by
  obtain ⟨block, hb, rfl⟩ := Option.map_eq_some_iff.mp h
  exact ho.base (he.block block hb) he.elem

lemma PlainClasses.mixin (he : e.PlainClasses) (ho : o.Plain) {mix : Entity} (hm : mix.PlainClasses) {m : Mixin}
    (h : e.mixin? o mix = some m) : Bemjson.Plain m.base ∧ m.entity = mix := by
  obtain ⟨_, block, hb, rfl⟩ := mixin?_eq_some.mp h
  refine ⟨ho.base ?_ ?_, rfl⟩
  · cases hmb : mix.block with
    | some b =>
      rw [hmb, Option.some_or] at hb
      exact Option.some.inj hb ▸ hm.block b hmb
    | none =>
      rw [hmb, Option.none_or] at hb
      exact he.block block hb
  · intro s hs
    unfold mixedElem at hs
    split at hs
    · rename_i hme
      exact Option.some.inj hs ▸ hm.elem _ hme
    · cases hs
    · exact he.elem s hs

lemma PlainTag.bemClasses (he : e.PlainTag) (ho : o.Plain) : ∀ c ∈ e.bemClasses o, Bemjson.Plain c := by
  intro c hc
  rcases List.mem_append.mp hc with hc | hc
  · unfold ownClasses at hc
    split at hc
    · rename_i base hbase
      have hb := he.own.base ho hbase
      rcases List.mem_cons.mp hc with rfl | hc
      · exact hb
      · exact ho.modClasses hb he.own.mods c hc
    · cases hc
  · obtain ⟨m, hm, hc⟩ := List.mem_flatMap.mp hc
    obtain ⟨mix, hmix, hmixin⟩ := List.mem_filterMap.mp hm
    obtain ⟨hb, rfl⟩ := he.own.mixin ho (he.mix mix hmix) hmixin
    rcases List.mem_append.mp hc with hc | hc
    · split at hc
      · cases hc
      · obtain rfl := List.mem_singleton.mp hc
        exact hb
    · exact ho.modClasses hb (he.mix _ hmix).mods c hc

def extraTexts (e : Entity) : List String := (e.cls.map trimBlanks).toList.filter fun cls => !cls.isEmpty

def classTexts (e : Entity) (o : Options) : List String :=
  (if e.usesBem then e.bemClasses o ++ e.initClasses o else []) ++ e.extraTexts

lemma extraClasses_eq (e : Entity) : e.extraClasses = e.extraTexts.map escapeAttribute := by
  unfold extraClasses extraTexts
  cases e.cls with
  | none => rfl
  | some cls =>
    simp only [Option.map_some, trimBlanks_escapeAttribute, isEmpty_escapeAttribute, Option.toList_some]
    by_cases h : (trimBlanks cls).isEmpty = true <;> simp [h]

lemma PlainTag.classes_eq (he : e.PlainTag) (ho : o.Plain) : e.classes o = (e.classTexts o).map escapeAttribute := by
  have hplain : ∀ c ∈ (if e.usesBem then e.bemClasses o ++ e.initClasses o else []), Bemjson.Plain c := by
    intro c hc
    split at hc
    · rcases List.mem_append.mp hc with hc | hc
      · exact he.bemClasses ho c hc
      · unfold initClasses at hc
        split at hc
        · exact List.mem_singleton.mp hc ▸ ho.initClass
        · cases hc
    · cases hc
  rw [classes, classTexts, List.map_append, extraClasses_eq]
  congr 1
  exact ((List.map_congr_left fun c hc => (hplain c hc).escapeAttribute).trans (List.map_id _)).symm

end Entity

end Classes

section Attributes

def Markup.attrItem : String × Json → Option Attr
  | (_, .null) | (_, .bool false) => none
  | (name, .bool true) => some ⟨name.toList, none⟩
  | (name, v) => some ⟨name.toList, some v.toMarkupText.toList⟩

namespace Entity

def classItem (e : Entity) (o : Options) : List Attr :=
  if e.classTexts o = [] then [] else [⟨"class".toList, some (" ".intercalate (e.classTexts o)).toList⟩]

def behaviorItem (e : Entity) (o : Options) : List Attr :=
  if (e.behaviorParams o).isEmpty then []
  else [⟨(e.jsAttr.getD o.jsAttrName).toList,
    some (decode ((if o.callWrapped then "return " else "") ++ e.behaviorText o).toList)⟩]

def attrItems (e : Entity) (o : Options) : List Attr :=
  e.classItem o ++ (e.attrs.getD []).filterMap attrItem ++ if e.usesBem then e.behaviorItem o else []

end Entity

variable {o : Options} {attrs : List Attr} {cs : List Char}

lemma Markup.ReadsAttrs.escaped (h : ReadsAttrs attrs cs) {name : List Char} (hname : IsName name) (value : List Char)
    (quote : Char) {chosen : List Char} (hquote : quote = '"' ∨ quote = apostrophe) (hchosen : Reversible chosen)
    (hq : quote ∈ chosen) :
    ReadsAttrs (⟨name, some value⟩ :: attrs) (' ' :: (name ++ '=' :: quote :: (escapeWith chosen value ++ quote :: cs))) := by
  have hne : quote ≠ '&' := by rcases hquote with rfl | rfl <;> decide
  have hread := ReadsAttrs.valued name quote (escapeWith chosen value) attrs cs hname hquote
    (not_mem_escapeWith (hchosen.special quote hq) hne hq value) h
  rwa [decode_escapeWith hchosen] at hread

lemma readsAttrs_writeAttr (h : ReadsAttrs attrs cs) {p : String × Json} (hp : Plain p.1 ∧ p.1 ≠ "") :
    ReadsAttrs ((attrItem p).toList ++ attrs) ((Options.writeAttr p.1 p.2).toList ++ cs) := by
  obtain ⟨name, v⟩ := p
  have hvalued : ReadsAttrs (⟨name.toList, some v.toMarkupText.toList⟩ :: attrs)
      ((" " ++ name ++ "=\"" ++ escapeAttribute v.toMarkupText ++ "\"").toList ++ cs) := by
    have hread := h.escaped hp.1 v.toMarkupText.toList '"' (Or.inl rfl) reversible_inAttribute (by decide)
    simpa [escapeAttribute] using hread
  cases v with
  | null => exact h
  | bool b =>
    cases b with
    | false => exact h
    | true =>
      have hne : name.toList ≠ [] := by simpa using hp.2
      simpa [Options.writeAttr, attrItem] using ReadsAttrs.bare name.toList attrs cs hp.1 hne h
  | _ => exact hvalued

lemma readsAttrs_writeAttrs (h : ReadsAttrs attrs cs) (ps : Assoc Json) (hps : ∀ p ∈ ps, Plain p.1 ∧ p.1 ≠ "") :
    ReadsAttrs (ps.filterMap attrItem ++ attrs) ((Options.writeAttrs ps).toList ++ cs) := by
  induction ps with
  | nil => exact h
  | cons p ps ih =>
    have hread := readsAttrs_writeAttr (ih fun q hq => hps q (List.mem_cons_of_mem p hq)) (hps p List.mem_cons_self)
    have hitems : (p :: ps).filterMap attrItem = (attrItem p).toList ++ ps.filterMap attrItem := by
      cases h : attrItem p <;> simp [h]
    have htext : (Options.writeAttrs (p :: ps)).toList =
        (Options.writeAttr p.1 p.2).toList ++ (Options.writeAttrs ps).toList := by
      simp [Options.writeAttrs]
    rw [hitems, htext, List.append_assoc, List.append_assoc]
    exact hread

variable {e : Entity} (he : e.PlainTag) (ho : o.Plain)
include he ho

lemma readsAttrs_classAttr (h : ReadsAttrs attrs cs) :
    ReadsAttrs (e.classItem o ++ attrs) ((e.classAttr o).toList ++ cs) := by
  unfold Entity.classItem Entity.classAttr
  rw [he.classes_eq ho]
  cases hcs : e.classTexts o with
  | nil => exact h
  | cons c classes =>
    have hread := h.escaped (by decide : IsName "class".toList) (" ".intercalate (c :: classes)).toList '"' (Or.inl rfl)
      reversible_inAttribute (by decide)
    rw [String.toList_intercalate, escapeWith_intercalate rfl] at hread
    simpa [String.toList_intercalate, escapeAttribute, Function.comp_def] using hread

lemma apostrophe_not_mem_behaviorText : apostrophe ∉ (e.behaviorText o).toList := by
  by_cases h : ∃ base, e.Shorthand o base
  · obtain ⟨base, hb⟩ := h
    have hbase : apostrophe ∉ base.toList := (he.own.base ho hb.base).not_mem (by decide)
    rw [hb.behaviorText, String.toList_append, String.toList_append, List.mem_append, List.mem_append]
    rintro ((hmem | hmem) | hmem)
    · exact absurd hmem (by decide)
    · exact hbase hmem
    · exact absurd hmem (by decide)
  · rw [Entity.behaviorText_of_not_shorthand fun base hb => h ⟨base, hb⟩]
    exact apostrophe_not_mem_escapeBehavior _

lemma readsAttrs_behaviorAttr (h : ReadsAttrs attrs cs) :
    ReadsAttrs (e.behaviorItem o ++ attrs) ((e.behaviorAttr o).toList ++ cs) := by
  unfold Entity.behaviorItem Entity.behaviorAttr
  split
  · exact h
  · have hname : IsName (e.jsAttr.getD o.jsAttrName).toList := by
      cases hj : e.jsAttr with
      | none => exact ho.jsAttrName
      | some name => exact he.jsAttr name hj
    have hquote : apostrophe ∉ ((if o.callWrapped then "return " else "") ++ e.behaviorText o).toList := by
      rw [String.toList_append, List.mem_append]
      rintro (hmem | hmem)
      · split at hmem <;> exact absurd hmem (by decide)
      · exact apostrophe_not_mem_behaviorText he ho hmem
    have hread := ReadsAttrs.valued _ apostrophe _ attrs cs hname (Or.inr rfl) hquote h
    simpa [apostrophe] using hread

lemma readsAttrs_attributes : ReadsAttrs (e.attrItems o) (e.attributes o).toList := by
  have hbehavior : ReadsAttrs (if e.usesBem then e.behaviorItem o else [])
      (if e.usesBem then e.behaviorAttr o else "").toList := by
    split
    · simpa using readsAttrs_behaviorAttr he ho .nil
    · exact .nil
  have hread := readsAttrs_classAttr he ho (readsAttrs_writeAttrs hbehavior (e.attrs.getD []) he.attrs)
  simpa [Entity.attrItems, Entity.attributes] using hread

end Attributes

end Bemjson
