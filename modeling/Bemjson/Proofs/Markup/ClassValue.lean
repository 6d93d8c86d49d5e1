import Bemjson.Markup.Writer
import Mathlib.Tactic.Lemma

/-! The value of the class attribute, and from where a quote can come into it that ends it too early. -/

namespace Bemjson

section Quotes

def HasQuote (s : String) : Prop := '"' ∈ s.toList

instance (s : String) : Decidable (HasQuote s) := inferInstanceAs (Decidable (_ ∈ _))

@[simp]
lemma hasQuote_append {s t : String} : HasQuote (s ++ t) ↔ HasQuote s ∨ HasQuote t := by
  simp [HasQuote]

lemma hasQuote_ofList {cs : List Char} : HasQuote (String.ofList cs) ↔ '"' ∈ cs := by
  simp [HasQuote]

lemma hasQuote_intercalate {sep : String} (hsep : ¬HasQuote sep) (words : List String) :
    HasQuote (sep.intercalate words) ↔ ∃ w ∈ words, HasQuote w := by
  induction words with
  | nil => simp [HasQuote]
  | cons w rest ih =>
    cases rest with
    | nil => simp
    | cons next rest => simp [String.intercalate_cons_cons, hsep, ih]

end Quotes

section Numbers

lemma quote_not_mem_toDigits (n : Nat) : '"' ∉ Nat.toDigits 10 n := fun h =>
  absurd (Nat.isDigit_of_mem_toDigits (by decide) (by decide) h) (by decide)

lemma not_hasQuote_repr (n : Nat) : ¬HasQuote (Nat.repr n) := by
  simpa [HasQuote, Nat.repr] using quote_not_mem_toDigits n

lemma not_hasQuote_int (z : Int) : ¬HasQuote (toString z) := by
  have hsign : ¬HasQuote "-" := by decide
  rw [Int.toString_eq_repr, Int.repr_eq_if]
  split
  · exact not_hasQuote_repr _
  · simp [hsign, not_hasQuote_repr]

variable (layout : Layout)

lemma Layout.not_hasQuote_positional {digits : List Char} (h : '"' ∉ digits) (exponent : Int) :
    ¬HasQuote (layout.writePositional digits exponent) := by
  have hzeros : ∀ n, ¬HasQuote (zeros n) := fun n => by simp [zeros, hasQuote_ofList, List.mem_replicate]
  have hpoint : ¬HasQuote layout.point := by
    unfold Layout.point
    split <;> decide
  have htake : ∀ n, '"' ∉ digits.take n := fun n hm => h (List.mem_of_mem_take hm)
  have hdrop : ∀ n, '"' ∉ digits.drop n := fun n hm => h (List.mem_of_mem_drop hm)
  have hdot : ¬HasQuote "." ∧ ¬HasQuote "0." := by decide
  simp only [Layout.writePositional]
  split
  · simp [hasQuote_ofList, h, hzeros, hpoint]
  · split
    · simp [hasQuote_ofList, htake, hdrop, hdot]
    · simp [hasQuote_ofList, h, hzeros, hdot]

lemma Layout.not_hasQuote_scientific {digits : List Char} (h : '"' ∉ digits) (lead : Int) :
    ¬HasQuote (Layout.writeScientific digits lead) := by
  have htake : '"' ∉ digits.take 1 := fun hm => h (List.mem_of_mem_take hm)
  have htail : '"' ∉ digits.tail := fun hm => h (List.mem_of_mem_tail hm)
  have hsigns : ¬HasQuote "." ∧ ¬HasQuote "e" ∧ ¬HasQuote "-" ∧ ¬HasQuote "+" ∧ ¬HasQuote "" := by decide
  obtain ⟨hdot, he, hminus, hplus, hempty⟩ := hsigns
  simp only [Layout.writeScientific, hasQuote_append, not_or, hasQuote_ofList]
  refine ⟨⟨⟨⟨htake, ?_⟩, he⟩, ?_⟩, not_hasQuote_repr _⟩
  · split
    · exact hempty
    · simp [hdot, hasQuote_ofList, htail]
  · split
    · exact hminus
    · exact hplus

lemma Layout.not_hasQuote_write (x : Float) : ¬HasQuote (layout.write x) := by
  have hsign : ¬HasQuote (if x.toBits.toNat < Nat.pow 2 63 then "" else "-") := by split <;> decide
  have hzero : ¬HasQuote "0" := by decide
  have hpoint : ¬HasQuote layout.point := by
    unfold Layout.point
    split <;> decide
  simp only [Layout.write]
  split
  · simp [hsign, hzero, hpoint]
  · rw [hasQuote_append, not_or]
    refine ⟨hsign, ?_⟩
    simp only [Layout.writeDecimal]
    split
    · exact layout.not_hasQuote_positional (quote_not_mem_toDigits _) _
    · split
      · exact layout.not_hasQuote_positional (quote_not_mem_toDigits _) _
      · exact Layout.not_hasQuote_scientific (quote_not_mem_toDigits _) _

end Numbers

section Values

namespace Json

mutual

def bearsText : Json → Bool
  | string _ => true
  | array items => bearsTextItems items
  | object fields => !fields.isEmpty
  | _ => false

def bearsTextItems : List Json → Bool
  | [] => false
  | v :: vs => v.bearsText || bearsTextItems vs

end

/-- A text is shown as it is. Elsewhere any text, be it the name of a field, stands between quotes. -/
def showsQuote : Json → Bool
  | string s => s.toList.contains '"'
  | v => v.bearsText

lemma hasQuote_quote (s : String) : HasQuote (quote s) := by
  simp [quote, HasQuote]

lemma not_hasQuote_comma : ¬HasQuote "," := by decide

mutual

lemma hasQuote_compact (v : Json) : HasQuote v.compact ↔ v.bearsText = true := by
  cases v with
  | null => decide
  | bool b => cases b <;> decide
  | number n =>
    refine iff_of_false ?_ (by simp [bearsText])
    cases n with
    | int z => exact not_hasQuote_int z
    | float x => exact Layout.json.not_hasQuote_write x
  | string s => exact iff_of_true (hasQuote_quote s) rfl
  | array items =>
    have hbrackets : ¬HasQuote "[" ∧ ¬HasQuote "]" := by decide
    simp [compact, bearsText, hasQuote_intercalate not_hasQuote_comma, hbrackets, hasQuote_compactItems items]
  | object fields =>
    cases fields with
    | nil => decide
    | cons p fields => simp [compact, compactFields, bearsText, hasQuote_intercalate not_hasQuote_comma, hasQuote_quote]

lemma hasQuote_compactItems (vs : List Json) : (∃ w ∈ compactItems vs, HasQuote w) ↔ bearsTextItems vs = true := by
  cases vs with
  | nil => simp [compactItems, bearsTextItems]
  | cons v vs => simp [compactItems, bearsTextItems, hasQuote_compact v, hasQuote_compactItems vs]

end

lemma hasQuote_toMarkupText (v : Json) : HasQuote v.toMarkupText ↔ v.showsQuote = true := by
  cases v with
  | string s => simp [toMarkupText, showsQuote, HasQuote]
  | number n =>
    refine iff_of_false ?_ (by simp [showsQuote, bearsText])
    cases n with
    | int z => exact not_hasQuote_int z
    | float x => exact Layout.plain.not_hasQuote_write x
  | _ => exact hasQuote_compact _

end Json

end Values

section Names

variable {o : Options} {e mix : Entity}

def Json.Shows (mods : Assoc Json) : Prop :=
  ∃ p ∈ mods, p.2.isShown = true ∧ (HasQuote p.1 ∨ p.2.showsQuote = true)

def Entity.NamesQuote (e : Entity) : Prop :=
  (∃ s, e.block = some s ∧ HasQuote s) ∨ (∃ s, e.elem = some s ∧ HasQuote s) ∨ Json.Shows e.shownMods

lemma Options.hasQuote_base (hdelim : ¬HasQuote o.elemDelim) (block : String) (elem : Option String) :
    HasQuote (o.base block elem) ↔ HasQuote block ∨ ∃ s, elem = some s ∧ HasQuote s := by
  cases elem <;> simp [Options.base, hdelim]

lemma Options.hasQuote_modClass (hdelim : ¬HasQuote o.modDelim) (base name : String) (value : Json) :
    HasQuote (o.modClass base name value) ↔
      (o.noBaseMods = false ∧ HasQuote base) ∨ HasQuote name ∨ value.showsQuote = true := by
  have hempty : ¬HasQuote "" := by decide
  have hbase : HasQuote (if o.noBaseMods then "" else base) ↔ o.noBaseMods = false ∧ HasQuote base := by
    cases o.noBaseMods <;> simp [hempty]
  have hvalue : HasQuote (if value.isTrue then "" else o.modDelim ++ value.toMarkupText) ↔ value.showsQuote = true := by
    by_cases ht : value.isTrue = true
    · cases value <;> simp_all [Json.isTrue, Json.showsQuote, Json.bearsText]
    · simp [ht, hdelim, Json.hasQuote_toMarkupText]
  simp [Options.modClass, hbase, hvalue, hdelim, or_assoc]

def AnyQuote (classes : List String) : Prop := ∃ c ∈ classes, HasQuote c

lemma not_anyQuote_nil : ¬AnyQuote [] := nofun

lemma anyQuote_append {cs ds : List String} : AnyQuote (cs ++ ds) ↔ AnyQuote cs ∨ AnyQuote ds := by
  simp only [AnyQuote, List.mem_append, or_and_right, exists_or]

lemma Options.shows_of_modClasses (hdelim : ¬HasQuote o.modDelim) {base : String} {mods : Assoc Json}
    (h : AnyQuote (o.modClasses base mods)) : HasQuote base ∨ Json.Shows mods := by
  obtain ⟨c, hc, hquote⟩ := h
  obtain ⟨p, hp, rfl⟩ := List.mem_map.mp hc
  obtain ⟨hmem, hshown⟩ := List.mem_filter.mp hp
  rcases (hasQuote_modClass hdelim base p.1 p.2).mp hquote with ⟨_, hbase⟩ | hname
  · exact Or.inl hbase
  · exact Or.inr ⟨p, hmem, hshown, hname⟩

lemma Json.Shows.modClasses (hdelim : ¬HasQuote o.modDelim) {mods : Assoc Json} (h : Json.Shows mods) (base : String) :
    AnyQuote (o.modClasses base mods) := by
  obtain ⟨p, hmem, hshown, hname⟩ := h
  exact ⟨_, List.mem_map_of_mem (List.mem_filter.mpr ⟨hmem, hshown⟩),
    (Options.hasQuote_modClass hdelim base p.1 p.2).mpr (Or.inr hname)⟩

lemma Options.anyQuote_base (hdelim : ¬HasQuote o.modDelim) (base : String) (mods : Assoc Json) :
    AnyQuote (base :: o.modClasses base mods) ↔ HasQuote base ∨ Json.Shows mods := by
  have hcons : AnyQuote (base :: o.modClasses base mods) ↔ HasQuote base ∨ AnyQuote (o.modClasses base mods) := by
    simp [AnyQuote]
  rw [hcons]
  constructor
  · rintro (h | h)
    · exact Or.inl h
    · exact shows_of_modClasses hdelim h
  · exact Or.imp_right fun h => h.modClasses hdelim base

lemma Entity.isSome_mixin? : (e.mixin? o mix).isSome = true ↔
    mix.bem ≠ some false ∧ (mix.block.or e.block).isSome = true := by
  by_cases hb : mix.bem = some false <;> simp [Entity.mixin?, hb]

variable (helem : ¬HasQuote o.elemDelim) (hmod : ¬HasQuote o.modDelim)

include helem in
lemma quote_of_mixedBase {block : String} (hblock : mix.block.or e.block = some block)
    (h : HasQuote (o.base block (e.mixedElem mix))) : (e.block.isSome = true ∧ e.NamesQuote) ∨ mix.NamesQuote := by
  rcases (Options.hasQuote_base helem block _).mp h with h | ⟨s, hs, h⟩
  · cases hm : mix.block with
    | some b =>
      obtain rfl : b = block := by simpa [hm] using hblock
      exact Or.inr (Or.inl ⟨b, hm, h⟩)
    | none =>
      have he : e.block = some block := by simpa [hm] using hblock
      exact Or.inl ⟨by simp [he], Or.inl ⟨block, he, h⟩⟩
  · unfold Entity.mixedElem at hs
    split at hs
    · rename_i hm
      exact Or.inr (Or.inr (Or.inl ⟨s, hm.trans hs, h⟩))
    · cases hs
    · rename_i hm
      have he : e.block = some block := by simpa [hm] using hblock
      exact Or.inl ⟨by simp [he], Or.inr (Or.inl ⟨s, hs, h⟩)⟩

include helem in
lemma mixedBase_of_quote {block : String} (hblock : mix.block.or e.block = some block)
    (h : (∃ s, mix.block = some s ∧ HasQuote s) ∨ ∃ s, mix.elem = some s ∧ HasQuote s) :
    HasQuote (o.base block (e.mixedElem mix)) := by
  rw [Options.hasQuote_base helem]
  rcases h with ⟨s, hs, h⟩ | ⟨s, hs, h⟩
  · obtain rfl : s = block := by simpa [hs] using hblock
    exact Or.inl h
  · exact Or.inr ⟨s, by simp [Entity.mixedElem, hs], h⟩

include helem hmod

lemma anyQuote_ownClasses : AnyQuote (e.ownClasses o) ↔ e.block.isSome = true ∧ e.NamesQuote := by
  unfold Entity.ownClasses Entity.base? Entity.NamesQuote
  cases hb : e.block with
  | none => simp [AnyQuote]
  | some block =>
    simp only [Option.map_some, Options.anyQuote_base hmod, Options.hasQuote_base helem, Option.isSome_some, true_and,
      Option.some.injEq, exists_eq_left', or_assoc]

lemma anyQuote_mixin {m : Mixin} (hm : e.mixin? o mix = some m) :
    (e.block.isSome = true ∧ e.NamesQuote) ∨ AnyQuote (m.classes o (e.base? o)) ↔
      (e.block.isSome = true ∧ e.NamesQuote) ∨ mix.NamesQuote := by
  obtain ⟨_, block, hblock, rfl⟩ := Entity.mixin?_eq_some.mp hm
  rw [Mixin.classes, anyQuote_append]
  constructor
  · rintro (h | ⟨c, hc, hquote⟩ | h)
    · exact Or.inl h
    · split at hc
      · cases hc
      · obtain rfl := List.mem_singleton.mp hc
        exact quote_of_mixedBase helem hblock hquote
    · rcases Options.shows_of_modClasses hmod h with h | h
      · exact quote_of_mixedBase helem hblock h
      · exact Or.inr (Or.inr (Or.inr h))
  · have hbase : HasQuote (o.base block (e.mixedElem mix)) → (e.block.isSome = true ∧ e.NamesQuote) ∨
        AnyQuote (if e.base? o = some (o.base block (e.mixedElem mix)) then [] else [o.base block (e.mixedElem mix)]) := by
      -- a base that the host has too is left out, but then it is a class of the host
      intro h
      split
      · rename_i hsame
        obtain ⟨b, hb, hsame⟩ := Option.map_eq_some_iff.mp hsame
        refine Or.inl ⟨by simp [hb], ?_⟩
        rcases (Options.hasQuote_base helem b e.elem).mp (hsame ▸ h) with h | h
        · exact Or.inl ⟨b, hb, h⟩
        · exact Or.inr (Or.inl h)
      · exact Or.inr ⟨_, List.mem_singleton_self _, h⟩
    rintro (h | h | h | h)
    · exact Or.inl h
    · exact (hbase (mixedBase_of_quote helem hblock (Or.inl h))).imp_right Or.inl
    · exact (hbase (mixedBase_of_quote helem hblock (Or.inr h))).imp_right Or.inl
    · exact Or.inr (Or.inr (h.modClasses hmod _))

lemma anyQuote_bemClasses : AnyQuote (e.bemClasses o) ↔ (e.block.isSome = true ∧ e.NamesQuote) ∨
    ∃ mix ∈ e.mix.getD [], mix.bem ≠ some false ∧ (mix.block.or e.block).isSome = true ∧ mix.NamesQuote := by
  rw [Entity.bemClasses, anyQuote_append, anyQuote_ownClasses helem hmod]
  constructor
  · rintro (h | ⟨c, hc, hquote⟩)
    · exact Or.inl h
    · obtain ⟨m, hm, hc⟩ := List.mem_flatMap.mp hc
      obtain ⟨mix, hmix, hmixin⟩ := List.mem_filterMap.mp hm
      obtain ⟨hbem, hblock⟩ := Entity.isSome_mixin?.mp (Option.isSome_of_eq_some hmixin)
      rcases (anyQuote_mixin helem hmod hmixin).mp (Or.inr ⟨c, hc, hquote⟩) with h | h
      · exact Or.inl h
      · exact Or.inr ⟨mix, hmix, hbem, hblock, h⟩
  · rintro (h | ⟨mix, hmix, hbem, hblock, h⟩)
    · exact Or.inl h
    · obtain ⟨m, hm⟩ := Option.isSome_iff_exists.mp (Entity.isSome_mixin?.mpr ⟨hbem, hblock⟩)
      refine ((anyQuote_mixin helem hmod hm).mpr (Or.inr h)).imp_right fun ⟨c, hc, hquote⟩ => ?_
      exact ⟨c, List.mem_flatMap.mpr ⟨m, List.mem_filterMap.mpr ⟨mix, hmix, hm⟩, hc⟩, hquote⟩

end Names

namespace Entity

/-- There is a quote in the names that classes are made of: those of an entity with a block, with the modifiers it shows
and their values, or those of a mixin that gives it classes. -/
def ClassesQuote (e : Entity) : Prop :=
  e.bem ≠ some false ∧ ((e.block.isSome = true ∧ e.NamesQuote) ∨
    ∃ mix ∈ e.mix.getD [], mix.bem ≠ some false ∧ (mix.block.or e.block).isSome = true ∧ mix.NamesQuote)

lemma not_hasQuote_escape (s : String) : ¬HasQuote (CharRef.escapeAttribute s) := by
  rw [CharRef.escapeAttribute, hasQuote_ofList]
  exact CharRef.not_mem_escapeWith (by decide) (by decide) (by decide) _

lemma not_hasQuote_trim {s : String} (h : ¬HasQuote s) : ¬HasQuote (trimBlanks s) := by
  rw [trimBlanks, hasQuote_ofList, List.mem_reverse]
  intro hm
  have hm := List.mem_reverse.mp ((List.dropWhile_sublist _).subset hm)
  exact h ((List.dropWhile_sublist _).subset hm)

lemma not_anyQuote_extraClasses (e : Entity) : ¬AnyQuote e.extraClasses := by
  unfold extraClasses
  cases e.cls with
  | none => simp [AnyQuote]
  | some cls =>
    have hcls := not_hasQuote_trim (not_hasQuote_escape cls)
    simp only [Option.map_some]
    split <;> simp [AnyQuote, hcls]

variable {o : Options} {e : Entity}

lemma anyQuote_classes (helem : ¬HasQuote o.elemDelim) (hmod : ¬HasQuote o.modDelim) (hinit : ¬HasQuote o.initClass) :
    AnyQuote (e.classes o) ↔ e.ClassesQuote := by
  have hinits : ¬AnyQuote (e.initClasses o) := by
    unfold initClasses
    split <;> simp [AnyQuote, hinit]
  rw [classes, anyQuote_append, ClassesQuote, ← anyQuote_bemClasses helem hmod]
  by_cases hb : e.bem = some false
  · simp [usesBem, hb, not_anyQuote_extraClasses, not_anyQuote_nil]
  · simp [usesBem, hb, not_anyQuote_extraClasses, anyQuote_append, hinits]

/-- Whatever `cls` is, the value of the class attribute has a quote in it if and only if there is one in the names that
classes are made of, which are written as they are. -/
theorem class_attribute (o : Options) (e : Entity) (helem : ¬HasQuote o.elemDelim) (hmod : ¬HasQuote o.modDelim)
    (hinit : ¬HasQuote o.initClass) (hhook : e.hook = none) (htag : e.tag ≠ some "") :
    (∃ rest, (Node.entity e).markup o = "<" ++ e.tag.getD "div" ++ e.classAttr o ++ rest) ∧
    (e.classes o = [] → e.classAttr o = "") ∧
    (e.classes o ≠ [] → ∃ value, e.classAttr o = " class=\"" ++ value ++ "\"" ∧ (HasQuote value ↔ e.ClassesQuote)) := by
  refine ⟨?_, fun h => ?_, fun h => ⟨" ".intercalate (e.classes o), ?_, ?_⟩⟩
  · rw [Node.markup_entity o e hhook, wrap_tag e o _ htag, attributes]
    simp only [String.append_assoc]
    exact ⟨_, rfl⟩
  · rw [classAttr, h]
  · unfold classAttr
    split
    · rename_i hnil
      exact absurd hnil h
    · rfl
  · rw [hasQuote_intercalate (by decide)]
    exact anyQuote_classes helem hmod hinit

def crammed : Entity :=
  { block := some "a", cls := some " x\" onclick=\"y "
    mods := some [("m", .bool true), ("n", .number (.int 0)), ("k", .array [.bool false]), ("z", .null)]
    mix := some [{ elem := some "e" }, { block := some "\"", bem := some false }] }

theorem class_attribute_crammed : ¬crammed.ClassesQuote ∧
    crammed.classAttr {} = " class=\"a a_m a_n_0 a_k_[false] a__e x&quot; onclick=&quot;y\"" ∧
    ∃ value, crammed.classAttr {} = " class=\"" ++ value ++ "\"" ∧ ¬HasQuote value := by
  have hplain : ¬crammed.ClassesQuote := by
    have ha : ¬HasQuote "a" := by decide
    have he : ¬HasQuote "e" := by decide
    have hm : ¬HasQuote "m" ∧ ¬HasQuote "n" ∧ ¬HasQuote "k" := by decide
    simp [ClassesQuote, NamesQuote, crammed, Json.Shows, shownMods, ha, he, hm, Json.showsQuote, Json.bearsText,
      Json.bearsTextItems, Json.isShown, Json.isTruthy, Json.isNumber]
  obtain ⟨_, _, hsome⟩ := class_attribute {} crammed (by decide) (by decide) (by decide) rfl (by decide)
  obtain ⟨value, hattr, hiff⟩ := hsome (by decide)
  exact ⟨hplain, by decide +kernel, value, hattr, fun h => hplain (hiff.mp h)⟩

def breaking : Entity := { block := some "a\" onclick=\"b" }

theorem class_attribute_breaking : (Node.entity breaking).markup {} = "<div class=\"a\" onclick=\"b\"></div>" ∧
    ¬∀ (o : Options) (e : Entity) (value : String), ¬HasQuote o.elemDelim → ¬HasQuote o.modDelim → ¬HasQuote o.initClass →
      e.hook = none → e.tag ≠ some "" → e.classAttr o = " class=\"" ++ value ++ "\"" → ¬HasQuote value := by
  refine ⟨rfl, fun h => ?_⟩
  exact h {} breaking "a\" onclick=\"b" (by decide) (by decide) (by decide) rfl (by decide) rfl (by decide)

end Entity

end Bemjson
