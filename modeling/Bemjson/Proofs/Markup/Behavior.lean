import Bemjson.Markup.Writer
import Bemjson.Proofs.Records
import Mathlib.Data.List.Induction
import Mathlib.Tactic.Lemma
import Mathlib.Tactic.SplitIfs

/-! The behavior attribute: the params of an entity and of its mixins as one JSON text, and how far it can be read back. -/

namespace Bemjson

lemma Assoc.ofList_append {α : Type} (pairs : Assoc α) (p : String × α) :
    ofList (pairs ++ [p]) = (ofList pairs).insert p.1 p.2 := by
  simp [ofList, merge, put]

namespace Entity

def carriers (e : Entity) (o : Options) : Assoc Json :=
  e.ownParams o ++ (e.mixins o).filterMap fun m => m.entity.activeJs.map fun js => (m.base, js.toParams)

lemma behaviorParams_eq (e : Entity) (o : Options) : e.behaviorParams o = Assoc.ofList (e.carriers o) := by
  have hown : Assoc.ofList (e.ownParams o) = e.ownParams o := by
    unfold ownParams
    split <;> rfl
  have hfold : ∀ (ms : List Mixin) (pairs : Assoc Json), ms.foldl Mixin.addParams (Assoc.ofList pairs) =
      Assoc.ofList (pairs ++ ms.filterMap fun m => m.entity.activeJs.map fun js => (m.base, js.toParams)) := by
    intro ms
    induction ms with
    | nil => simp
    | cons m ms ih =>
      intro pairs
      rw [List.foldl_cons, Mixin.addParams]
      cases hm : m.entity.activeJs with
      | none => simpa [hm] using ih pairs
      | some js => simpa [hm, Assoc.ofList_append] using ih (pairs ++ [(m.base, js.toParams)])
  rw [behaviorParams, carriers, ← hfold, hown]

/-- The params are written without a look at the mixins, as those of `base` alone. -/
structure Shorthand (e : Entity) (o : Options) (base : String) : Prop where
  base : e.base? o = some base
  js : e.js = some (.bool true)
  mixins : e.hasMixinJs o = false

lemma Shorthand.behaviorText {e : Entity} {o : Options} {base : String} (h : e.Shorthand o base) :
    e.behaviorText o = "\x7b\"" ++ base ++ "\":\x7b\x7d\x7d" := by
  simp [Entity.behaviorText, h.base, h.js, h.mixins, Json.isTrue]

lemma Shorthand.carriers {e : Entity} {o : Options} {base : String} (h : e.Shorthand o base) :
    e.carriers o = [(base, .object [])] := by
  have hown : e.ownParams o = [(base, .object [])] := by
    rw [ownParams, h.base, activeJs, h.js]
    rfl
  have hrest : ((e.mixins o).filterMap fun m => m.entity.activeJs.map fun js => (m.base, js.toParams)) = [] := by
    apply List.filterMap_eq_nil_iff.mpr
    intro m hm
    have hno : m.entity.activeJs = none := by simpa [Mixin.hasJs] using List.any_eq_false.mp h.mixins m hm
    rw [hno, Option.map_none]
  rw [Entity.carriers, hown, hrest, List.append_nil]

lemma behaviorText_of_not_shorthand {e : Entity} {o : Options} (h : ∀ base, ¬e.Shorthand o base) :
    e.behaviorText o = CharRef.escapeBehavior (Json.object (e.behaviorParams o)).compact := by
  unfold behaviorText
  split
  · rename_i base hbase hjs
    obtain ⟨hmixins, hjs⟩ : e.hasMixinJs o = false ∧ (e.js.map Json.isTrue).getD false = true := by simpa using hjs
    refine absurd ⟨hbase, ?_, hmixins⟩ (h base)
    cases hv : e.js with
    | none => simp [hv] at hjs
    | some js => cases js <;> simp_all [Json.isTrue]
  · rfl

end Entity

section Escapes

open CharRef

lemma CharRef.length_ofChar (c : Char) : 1 < (ofChar c).length := by
  unfold ofChar
  split_ifs <;> decide

lemma CharRef.length_escapeWith (chosen cs : List Char) : cs.length ≤ (escapeWith chosen cs).length := by
  induction cs with
  | nil => exact Nat.le_refl 0
  | cons c cs ih =>
    rw [escapeWith_cons, List.length_append, List.length_cons]
    split_ifs
    · have := length_ofChar c
      omega
    · rw [List.length_singleton]
      omega

lemma CharRef.apostrophe_not_mem_escapeBehavior (s : String) : apostrophe ∉ (escapeBehavior s).toList := by
  rw [escapeBehavior, String.toList_ofList]
  exact not_mem_escapeWith (by decide) (by decide) (by decide) _

def NeedsEscape (c : Char) : Prop := c = '"' ∨ c = '\\' ∨ c.toNat < 32 ∨ c = '&' ∨ c = apostrophe

def behaviorChar (c : Char) : List Char := escapeWith inBehavior (Json.escapeChar c)

lemma escapeChar_plain {c : Char} (h : ¬(c = '"' ∨ c = '\\' ∨ c.toNat < 32)) : Json.escapeChar c = [c] := by
  simp only [not_or, Nat.not_lt] at h
  obtain ⟨hquote, hslash, hcontrol⟩ := h
  have hne : ∀ d : Char, d.toNat < 32 → c ≠ d := fun d hd he => by
    subst he
    omega
  simp only [Json.escapeChar, hquote, hslash, hne '\n' (by decide), hne '\r' (by decide), hne '\t' (by decide), if_false]
  rw [if_neg (by omega), if_neg (by omega), if_neg (by omega)]

lemma length_escapeChar {c : Char} (h : c = '"' ∨ c = '\\' ∨ c.toNat < 32) : 1 < (Json.escapeChar c).length := by
  unfold Json.escapeChar
  split_ifs with h1 h2 h3 h4 h5 h6 h7 h8
  any_goals exact Nat.le_refl 2
  · simp [Json.hexDigits]
  · exact absurd h (by simp [h1, h2, h8])

lemma behaviorChar_plain {c : Char} (h : ¬NeedsEscape c) : behaviorChar c = [c] := by
  have hplain : Json.escapeChar c = [c] := escapeChar_plain fun hc => h (by unfold NeedsEscape; tauto)
  have hchosen : c ∉ inBehavior := fun hc => h (by
    have hc' : c = '&' ∨ c = apostrophe := by simpa [inBehavior] using hc
    unfold NeedsEscape
    tauto)
  rw [behaviorChar, hplain, escapeWith_cons, if_neg hchosen]
  rfl

lemma length_behaviorChar {c : Char} (h : NeedsEscape c) : 1 < (behaviorChar c).length := by
  by_cases hc : c = '"' ∨ c = '\\' ∨ c.toNat < 32
  · exact Nat.lt_of_lt_of_le (length_escapeChar hc) (length_escapeWith _ _)
  · have hchosen : c ∈ inBehavior := by
      have hc' : c = '&' ∨ c = apostrophe := by unfold NeedsEscape at h; tauto
      simpa [inBehavior] using hc'
    rw [behaviorChar, escapeChar_plain hc, escapeWith_cons, if_pos hchosen, List.length_append]
    exact Nat.lt_of_lt_of_le (length_ofChar c) (Nat.le_add_right _ _)

lemma flatMap_behaviorChar (cs : List Char) :
    cs.length ≤ (cs.flatMap behaviorChar).length ∧ (cs.flatMap behaviorChar = cs ↔ ∀ c ∈ cs, ¬NeedsEscape c) := by
  induction cs with
  | nil => simp
  | cons c cs ih =>
    obtain ⟨hlen, hiff⟩ := ih
    rw [List.flatMap_cons, List.forall_mem_cons]
    by_cases hc : NeedsEscape c
    · have hlong := length_behaviorChar hc
      have hlt : (c :: cs).length < (behaviorChar c ++ cs.flatMap behaviorChar).length := by
        rw [List.length_append, List.length_cons]
        omega
      refine ⟨Nat.le_of_lt hlt, fun he => ?_, fun h => absurd hc h.1⟩
      rw [he] at hlt
      exact absurd hlt (Nat.lt_irrefl _)
    · rw [behaviorChar_plain hc]
      simpa [hc, hiff] using hlen

lemma escapeBehavior_single (base : String) :
    (escapeBehavior (Json.object [(base, .object [])]).compact).toList =
      '\x7b' :: '"' :: (base.toList.flatMap behaviorChar ++ "\":\x7b\x7d\x7d".toList) := by
  have hcompact : (Json.object [(base, .object [])]).compact.toList =
      ['\x7b', '"'] ++ (base.toList.flatMap Json.escapeChar ++ "\":\x7b\x7d\x7d".toList) := by
    simp [Json.compact, Json.compactFields, Json.quote]
  rw [escapeBehavior, String.toList_ofList, hcompact, escapeWith_append, escapeWith_append]
  have hbase : escapeWith inBehavior (base.toList.flatMap Json.escapeChar) = base.toList.flatMap behaviorChar :=
    List.flatMap_assoc
  rw [hbase]
  rfl

end Escapes

namespace Entity

variable {e : Entity} {o : Options}

lemma behaviorText_eq_iff :
    e.behaviorText o = CharRef.escapeBehavior (Json.object (e.behaviorParams o)).compact ↔
      ∀ base, e.Shorthand o base → ∀ c ∈ base.toList, ¬NeedsEscape c := by
  by_cases h : ∃ base, e.Shorthand o base
  · obtain ⟨base, hb⟩ := h
    have hall : (∀ base, e.Shorthand o base → ∀ c ∈ base.toList, ¬NeedsEscape c) ↔ ∀ c ∈ base.toList, ¬NeedsEscape c := by
      constructor
      · exact fun h => h base hb
      · intro h other ho
        rwa [Option.some.inj (ho.base.symm.trans hb.base)]
    have hparams : e.behaviorParams o = [(base, .object [])] := by
      rw [behaviorParams_eq, hb.carriers]
      rfl
    have htext : ("\x7b\"" ++ base ++ "\":\x7b\x7d\x7d").toList =
        '\x7b' :: '"' :: (base.toList ++ "\":\x7b\x7d\x7d".toList) := by
      simp
    rw [hall, ← (flatMap_behaviorChar base.toList).2, hb.behaviorText, hparams, String.ext_iff, escapeBehavior_single,
      htext, List.cons_inj_right, List.cons_inj_right, List.append_left_inj, eq_comm]
  · have hnone : ∀ base, ¬e.Shorthand o base := fun base hb => h ⟨base, hb⟩
    exact iff_of_true (behaviorText_of_not_shorthand hnone) fun base hb => absurd hb (hnone base)

lemma behaviorParams_isEmpty : (e.behaviorParams o).isEmpty = true ↔ e.carriers o = [] := by
  have hkeys : (e.behaviorParams o).keys = (e.carriers o).keys.eraseDups := by
    rw [behaviorParams_eq]
    exact (Assoc.ofList_spec _).1
  constructor
  · intro h
    rw [List.isEmpty_iff.mp h] at hkeys
    cases hc : e.carriers o with
    | nil => rfl
    | cons p ps => simp [hc, Assoc.keys, List.eraseDups_cons] at hkeys
  · intro h
    rw [behaviorParams_eq, h]
    rfl

lemma markup_eq (hhook : e.hook = none) (htag : e.tag ≠ some "") (hbem : e.bem ≠ some false) :
    ∃ rest, (Node.entity e).markup o = "<" ++ e.tag.getD "div" ++ (e.classAttr o ++ Options.writeAttrs (e.attrs.getD [])) ++
      e.behaviorAttr o ++ rest ∧ (rest = "/>" ∨ ∃ inner, rest = ">" ++ inner) := by
  obtain ⟨rest, hwrap, hrest⟩ : ∃ rest, e.wrap o (e.content.map fun c => c.markup o) =
      "<" ++ e.tag.getD "div" ++ e.attributes o ++ rest ∧ (rest = "/>" ∨ ∃ inner, rest = ">" ++ inner) := by
    refine ⟨_, wrap_tag e o _ htag, ?_⟩
    split
    · exact Or.inl rfl
    · exact Or.inr ⟨e.inner (e.content.map fun c => c.markup o) ++ ("</" ++ e.tag.getD "div" ++ ">"), by
        simp only [String.append_assoc]⟩
  have hbem' : e.usesBem = true := by simpa [usesBem] using hbem
  refine ⟨rest, ?_, hrest⟩
  rw [Node.markup_entity o e hhook, hwrap, attributes, if_pos hbem']
  simp only [String.append_assoc]

/-- An entity has a behavior attribute if it brings behavior, itself or in a mixin. It holds the JSON text of all
params by their bases, a base that comes again keeping its first place and taking the last params. The text is escaped,
and can be read back, unless it is written in short for a base that would need an escape: that one is left as it is. -/
theorem behavior_attribute (o : Options) (e : Entity) (hhook : e.hook = none) (htag : e.tag ≠ some "")
    (hbem : e.bem ≠ some false) :
    (∃ rest, (Node.entity e).markup o = "<" ++ e.tag.getD "div" ++ (e.classAttr o ++ Options.writeAttrs (e.attrs.getD [])) ++
      e.behaviorAttr o ++ rest ∧ (rest = "/>" ∨ ∃ inner, rest = ">" ++ inner)) ∧
    (e.carriers o = [] → e.behaviorAttr o = "") ∧
    (e.carriers o ≠ [] → ∃ text, ∃ params : Assoc Json,
      e.behaviorAttr o =
        " " ++ e.jsAttr.getD o.jsAttrName ++ "='" ++ (if o.callWrapped then "return " else "") ++ text ++ "'" ∧
      params.keys = (e.carriers o).keys.eraseDups ∧
      (∀ base, params.get? base = Assoc.get? (e.carriers o).reverse base) ∧
      (text = CharRef.escapeBehavior (Json.object params).compact ↔
        ∀ base, e.Shorthand o base → ∀ c ∈ base.toList, ¬NeedsEscape c) ∧
      ((∀ base, e.Shorthand o base → ∀ c ∈ base.toList, ¬NeedsEscape c) →
        CharRef.apostrophe ∉ text.toList ∧ CharRef.decode text.toList = (Json.object params).compact.toList)) := by
  obtain ⟨hkeys, hget⟩ := Assoc.ofList_spec (e.carriers o)
  refine ⟨markup_eq hhook htag hbem, fun h => ?_, fun h => ?_⟩
  · rw [behaviorAttr, if_pos (behaviorParams_isEmpty.mpr h)]
  · refine ⟨e.behaviorText o, e.behaviorParams o, ?_, ?_, ?_, behaviorText_eq_iff, fun hplain => ?_⟩
    · rw [behaviorAttr, if_neg (fun he => h (behaviorParams_isEmpty.mp he))]
    · rw [behaviorParams_eq, hkeys]
    · rw [behaviorParams_eq]
      exact hget
    · rw [behaviorText_eq_iff.mpr hplain]
      refine ⟨CharRef.apostrophe_not_mem_escapeBehavior _, ?_⟩
      rw [CharRef.escapeBehavior, String.toList_ofList]
      exact CharRef.decode_escapeWith CharRef.reversible_inBehavior _

def mixing : Entity :=
  { block := some "a", js := some (.bool true), mix := some [{ block := some "b", js := some (.string "it's") }] }

theorem behavior_attribute_of_mixing : mixing.hook = none ∧ mixing.tag ≠ some "" ∧ mixing.bem ≠ some false ∧
    ∃ text, ∃ params : Assoc Json, mixing.behaviorAttr {} = " onclick='return " ++ text ++ "'" ∧
      params.keys = ["a", "b"] ∧ params.get? "b" = some (.string "it's") ∧
      CharRef.apostrophe ∉ text.toList ∧ CharRef.decode text.toList = (Json.object params).compact.toList := by
  have hcarriers : mixing.carriers {} = [("a", .object []), ("b", .string "it's")] := rfl
  obtain ⟨_, _, hsome⟩ := behavior_attribute {} mixing rfl (by decide) (by decide)
  obtain ⟨text, params, hattr, hkeys, hget, _, hread⟩ := hsome (by simp [hcarriers])
  obtain ⟨hquote, hdecode⟩ := hread fun base h => absurd h.mixins (by decide)
  refine ⟨rfl, by decide, by decide, text, params, hattr, ?_, ?_, hquote, hdecode⟩
  · rw [hkeys, hcarriers]
    rfl
  · rw [hget, hcarriers]
    rfl

def quoting : Entity := { block := some "a'b", js := some (.bool true) }

theorem behavior_attribute_quoting :
    (Node.entity quoting).markup {} = "<div class=\"a'b i-bem\" onclick='return \x7b\"a'b\":\x7b\x7d\x7d'></div>" ∧
      quoting.behaviorText {} ≠ CharRef.escapeBehavior (Json.object (quoting.behaviorParams {})).compact ∧
      ¬∀ (o : Options) (e : Entity), e.hook = none → e.tag ≠ some "" → e.bem ≠ some false → e.carriers o ≠ [] →
        CharRef.apostrophe ∉ (e.behaviorText o).toList := by
  refine ⟨rfl, by decide, fun h => ?_⟩
  have hcarriers : quoting.carriers {} = [("a'b", .object [])] := rfl
  exact absurd (h {} quoting rfl (by decide) (by decide) (by simp [hcarriers])) (by decide)

end Entity

end Bemjson
