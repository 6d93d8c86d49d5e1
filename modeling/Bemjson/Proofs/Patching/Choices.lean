import Bemjson.Node.Field
import Bemjson.Options.Patch
import Mathlib.Data.List.Nodup
import Mathlib.Data.List.Pairwise
import Mathlib.Tactic.Lemma

/-! What the fields of a patch choose, option by option, and which fields are read at all. -/

namespace Bemjson

inductive Choice where
  | flag (b : Bool)
  | text (s : String)
  | tags (l : List String)
  | order (o : RuleOrder)
  deriving DecidableEq

namespace Json

def className? : Json → Option String
  | string s => some s
  | bool _ => some ""
  | _ => none

def strings? : Json → Option (List String)
  | array items => items.mapM string?
  | _ => none

def variant? {α : Type} (known : Assoc α) : Json → Option α
  | string s | object [(s, null)] => known.get? s
  | _ => none

lemma present_of_ne_null {v : Json} (h : v ≠ .null) : v.present = some v := by
  cases v <;> first | rfl | exact absurd rfl h

lemma toOption_expectBool (v : Json) : v.expectBool.toOption = v.bool? := by
  cases v <;> rfl

lemma toOption_expectString (v : Json) : v.expectString.toOption = v.string? := by
  cases v <;> rfl

lemma toOption_expectClass (v : Json) : v.expectClass.toOption = v.className? := by
  cases v <;> rfl

lemma toOption_expectName {α : Type} (known : Assoc α) (s : String) :
    (expectName known s).toOption = known.get? s := by
  rw [expectName]
  cases known.get? s <;> rfl

lemma toOption_expectVariant {α : Type} (known : Assoc α) (v : Json) :
    (v.expectVariant known).toOption = v.variant? known := by
  cases v with
  | string s => exact toOption_expectName known s
  | object fields =>
    match fields with
    | [] => rfl
    | [(s, v)] =>
      have hname := toOption_expectName known s
      rw [expectVariant]
      cases hs : expectName known s <;> cases v <;>
        simp_all [variant?, Except.toOption, bind, Except.bind]
    | (s, v) :: p :: fields => cases v <;> rfl
  | _ => rfl

lemma toOption_mapM_expectString (items : List Json) : (items.mapM expectString).toOption = items.mapM string? := by
  induction items with
  | nil => rfl
  | cons v items ih =>
    rw [List.mapM_cons, List.mapM_cons, ← ih, ← toOption_expectString]
    cases v.expectString with
    | error err => rfl
    | ok s => cases items.mapM expectString <;> rfl

lemma toOption_expectStrings (v : Json) : v.expectStrings.toOption = v.strings? := by
  cases v with
  | array items => exact toOption_mapM_expectString items
  | _ => rfl

end Json

namespace OptionKey

def Names (k : OptionKey) (s : String) : Prop := k.name = s ∨ k.alias? = some s

lemma ofName?_eq_some {s : String} {k : OptionKey} : ofName? s = some k ↔ k.Names s := by
  constructor
  · intro h
    simpa [Names] using List.find?_some h
  · rintro (rfl | h)
    · cases k <;> rfl
    · cases k <;> cases h <;> rfl

def choice? (v : Json) : OptionKey → Option Choice
  | jsAttrName | elemDelim | modDelim => v.string?.map .text
  | initClass => v.className?.map .text
  | callWrapped | initOnElems | escapeText | noBaseMods | detectLoops => v.bool?.map .flag
  | scheme => (v.variant? [("js", true), ("json", false)]).map .flag
  | selfClosing => v.strings?.map .tags
  | ruleOrder => (v.variant? [("registration", RuleOrder.registration), ("latestFirst", .latestFirst)]).map .order

end OptionKey

namespace Patch

def choice (p : Patch) : OptionKey → Option Choice
  | .jsAttrName => p.jsAttrName.map .text
  | .callWrapped => p.callWrapped.map .flag
  | .scheme => p.scheme.map .flag
  | .initClass => p.initClass.map .text
  | .initOnElems => p.initOnElems.map .flag
  | .escapeText => p.escapeText.map .flag
  | .noBaseMods => p.noBaseMods.map .flag
  | .elemDelim => p.elemDelim.map .text
  | .modDelim => p.modDelim.map .text
  | .selfClosing => p.selfClosing.map .tags
  | .detectLoops => p.detectLoops.map .flag
  | .ruleOrder => p.ruleOrder.map .order

def Settles (p : Patch) (k : OptionKey) (r : Except PatchError Patch) : Option Choice → Prop
  | none => ∃ err, r = .error err
  | some c => ∃ q, r = .ok q ∧ q.choice k = some c ∧ (∀ k' ≠ k, q.choice k' = p.choice k') ∧ q.extra = p.extra

lemma Settles.of_map {α : Type} {p : Patch} {k : OptionKey} {r : Except PatchError α} {a? : Option α}
    (h : r.toOption = a?) (set : α → Patch) (mk : α → Choice)
    (hset : ∀ a, (set a).choice k = some (mk a) ∧ (∀ k' ≠ k, (set a).choice k' = p.choice k') ∧ (set a).extra = p.extra) :
    p.Settles k (r.map set) (a?.map mk) := by
  subst h
  cases r with
  | error err => exact ⟨err, rfl⟩
  | ok a => exact ⟨set a, rfl, hset a⟩

open Json in
lemma setOption_settles (p : Patch) (v : Json) (k : OptionKey) : p.Settles k (p.setOption v k) (k.choice? v) := by
  cases k with
  | jsAttrName | elemDelim | modDelim =>
    refine .of_map (toOption_expectString v) _ .text fun s => ⟨rfl, fun k' hk => ?_, rfl⟩
    cases k' <;> first | rfl | exact absurd rfl hk
  | initClass =>
    refine .of_map (toOption_expectClass v) _ .text fun s => ⟨rfl, fun k' hk => ?_, rfl⟩
    cases k' <;> first | rfl | exact absurd rfl hk
  | callWrapped | initOnElems | escapeText | noBaseMods | detectLoops =>
    refine .of_map (toOption_expectBool v) _ .flag fun b => ⟨rfl, fun k' hk => ?_, rfl⟩
    cases k' <;> first | rfl | exact absurd rfl hk
  | scheme =>
    refine .of_map (toOption_expectVariant _ v) _ .flag fun b => ⟨rfl, fun k' hk => ?_, rfl⟩
    cases k' <;> first | rfl | exact absurd rfl hk
  | selfClosing =>
    refine .of_map (toOption_expectStrings v) _ .tags fun l => ⟨rfl, fun k' hk => ?_, rfl⟩
    cases k' <;> first | rfl | exact absurd rfl hk
  | ruleOrder =>
    refine .of_map (toOption_expectVariant _ v) _ .order fun o => ⟨rfl, fun k' hk => ?_, rfl⟩
    cases k' <;> first | rfl | exact absurd rfl hk

def known (fields : Assoc Json) : List OptionKey := fields.filterMap fun f => OptionKey.ofName? f.1

def unknown (fields : Assoc Json) : Assoc Json := fields.filter fun f => (OptionKey.ofName? f.1).isNone

def given (fields : Assoc Json) (k : OptionKey) : Option Json :=
  fields.findSome? fun f => if OptionKey.ofName? f.1 = some k then f.2.present else none

/-- No option is named twice, and each value that is given is of the type that its option has. -/
structure Admits (fields : Assoc Json) : Prop where
  once : ∀ f ∈ fields, ∀ g ∈ fields, ∀ k : OptionKey, k.Names f.1 → k.Names g.1 → f = g
  fits : ∀ f ∈ fields, ∀ k : OptionKey, k.Names f.1 → f.2 = .null ∨ (k.choice? f.2).isSome

section Reading

variable {p q : Patch} {seen : List OptionKey} {name : String} {k : OptionKey} {v : Json} {fields : Assoc Json}

lemma readFields_unknown (hk : OptionKey.ofName? name = none) : p.readFields seen ((name, v) :: fields) =
    { p with extra := Assoc.insert p.extra name v }.readFields seen fields := by
  rw [readFields, hk]

lemma readFields_again (hk : OptionKey.ofName? name = some k) (hs : k ∈ seen) :
    p.readFields seen ((name, v) :: fields) = .error (.duplicate k) := by
  simp [readFields, hk, hs]

lemma readFields_null (hk : OptionKey.ofName? name = some k) (hs : k ∉ seen) :
    p.readFields seen ((name, .null) :: fields) = p.readFields (k :: seen) fields := by
  simp [readFields, hk, hs]

lemma readFields_value (hk : OptionKey.ofName? name = some k) (hs : k ∉ seen) (hv : v ≠ .null) :
    p.readFields seen ((name, v) :: fields) =
      (p.setOption v k).bind fun p => p.readFields (k :: seen) fields := by
  cases v <;> simp_all [readFields]

lemma mem_known : k ∈ known fields ↔ ∃ f ∈ fields, OptionKey.ofName? f.1 = some k := List.mem_filterMap

lemma given_cons (f : String × Json) (fields : Assoc Json) (k : OptionKey) :
    given (f :: fields) k = (if OptionKey.ofName? f.1 = some k then f.2.present else none).or (given fields k) := by
  rw [given, List.findSome?_cons]
  split <;> simp_all [given]

lemma given_eq_none (h : k ∉ known fields) : given fields k = none := by
  refine List.findSome?_eq_none_iff.mpr fun f hf => if_neg fun hk => h ?_
  exact mem_known.mpr ⟨f, hf, hk⟩

/-- What has been read chooses what the fields choose and, apart from that, what was chosen before. -/
structure Reads (p : Patch) (fields : Assoc Json) (q : Patch) : Prop where
  choice (k : OptionKey) : q.choice k = ((given fields k).bind fun v => k.choice? v).or (p.choice k)
  extra : q.extra = Assoc.merge true p.extra (unknown fields)

lemma Reads.unknown (hk : OptionKey.ofName? name = none)
    (h : Reads { p with extra := Assoc.insert p.extra name v } fields q) : p.Reads ((name, v) :: fields) q where
  choice k := by
    rw [h.choice k, given_cons]
    simp only [hk]
    rfl
  extra := by
    rw [h.extra, Patch.unknown, Patch.unknown, List.filter_cons]
    simp [hk, Assoc.merge, Assoc.put]

lemma Reads.null (hk : OptionKey.ofName? name = some k) (h : p.Reads fields q) : p.Reads ((name, .null) :: fields) q where
  choice k' := by
    rw [h.choice k', given_cons]
    split <;> rfl
  extra := by
    rw [h.extra, Patch.unknown, Patch.unknown, List.filter_cons]
    simp [hk]

lemma Reads.value {r : Patch} {c : Choice} (hk : OptionKey.ofName? name = some k) (hnew : k ∉ known fields)
    (hv : v ≠ .null) (hc : k.choice? v = some c) (hchosen : r.choice k = some c)
    (hother : ∀ k' ≠ k, r.choice k' = p.choice k') (hextra : r.extra = p.extra) (h : r.Reads fields q) :
    p.Reads ((name, v) :: fields) q where
  choice k' := by
    rw [h.choice k', given_cons]
    by_cases hkk : k' = k
    · subst hkk
      rw [given_eq_none hnew, hchosen]
      simp [hk, Json.present_of_ne_null hv, hc]
    · have hne : ¬OptionKey.ofName? name = some k' := fun he => hkk (Option.some.inj (he.symm.trans hk))
      rw [hother k' hkk]
      simp [hne]
  extra := by
    rw [h.extra, hextra, Patch.unknown, Patch.unknown, List.filter_cons]
    simp [hk]

lemma exists_reads (hseen : ∀ k ∈ known fields, k ∉ seen) (hn : (known fields).Nodup)
    (hfits : ∀ f ∈ fields, ∀ k, OptionKey.ofName? f.1 = some k → f.2 = .null ∨ (k.choice? f.2).isSome) :
    ∃ q, p.readFields seen fields = .ok q ∧ p.Reads fields q := by
  induction fields generalizing p seen with
  | nil => exact ⟨p, rfl, ⟨fun k => rfl, rfl⟩⟩
  | cons f fields ih =>
    obtain ⟨name, v⟩ := f
    have hfits' := fun g hg => hfits g (List.mem_cons_of_mem _ hg)
    cases hk : OptionKey.ofName? name with
    | none =>
      have hknown : known ((name, v) :: fields) = known fields := List.filterMap_cons_none hk
      rw [hknown] at hseen hn
      obtain ⟨q, hq, hreads⟩ := ih hseen hn hfits'
      exact ⟨q, (readFields_unknown hk).trans hq, hreads.unknown hk⟩
    | some k =>
      have hknown : known ((name, v) :: fields) = k :: known fields := List.filterMap_cons_some hk
      rw [hknown] at hseen hn
      obtain ⟨hnew, hn⟩ := List.nodup_cons.mp hn
      have hs : k ∉ seen := hseen k List.mem_cons_self
      have hseen' : ∀ k' ∈ known fields, k' ∉ k :: seen := by
        intro k' hk' hm
        rcases List.mem_cons.mp hm with rfl | hm
        · exact hnew hk'
        · exact hseen k' (List.mem_cons_of_mem _ hk') hm
      by_cases hv : v = .null
      · subst hv
        obtain ⟨q, hq, hreads⟩ := ih (p := p) hseen' hn hfits'
        exact ⟨q, (readFields_null hk hs).trans hq, hreads.null hk⟩
      · obtain ⟨c, hc⟩ := Option.isSome_iff_exists.mp ((hfits _ List.mem_cons_self k hk).resolve_left hv)
        have hset := p.setOption_settles v k
        rw [hc] at hset
        obtain ⟨r, hr, hchosen, hother, hextra⟩ := hset
        obtain ⟨q, hq, hreads⟩ := ih (p := r) hseen' hn hfits'
        refine ⟨q, ?_, hreads.value hk hnew hv hc hchosen hother hextra⟩
        rw [readFields_value hk hs hv, hr]
        exact hq

lemma admitted_of_readFields (h : p.readFields seen fields = .ok q) :
    (∀ k ∈ known fields, k ∉ seen) ∧ (known fields).Nodup ∧
      ∀ f ∈ fields, ∀ k, OptionKey.ofName? f.1 = some k → f.2 = .null ∨ (k.choice? f.2).isSome := by
  induction fields generalizing p seen with
  | nil => simp [known]
  | cons f fields ih =>
    obtain ⟨name, v⟩ := f
    cases hk : OptionKey.ofName? name with
    | none =>
      have hknown : known ((name, v) :: fields) = known fields := List.filterMap_cons_none hk
      rw [readFields_unknown hk] at h
      obtain ⟨hseen, hn, hfits⟩ := ih h
      rw [hknown]
      refine ⟨hseen, hn, fun g hg k hgk => ?_⟩
      rcases List.mem_cons.mp hg with rfl | hg
      · cases hk.symm.trans hgk
      · exact hfits g hg k hgk
    | some k =>
      have hknown : known ((name, v) :: fields) = k :: known fields := List.filterMap_cons_some hk
      have hs : k ∉ seen := by
        intro hs
        rw [readFields_again hk hs] at h
        cases h
      -- whichever way the field is read, the rest is read with its option among those seen
      have hrest : (∃ r : Patch, r.readFields (k :: seen) fields = .ok q) ∧ (v = .null ∨ (k.choice? v).isSome) := by
        by_cases hv : v = .null
        · subst hv
          exact ⟨⟨p, (readFields_null hk hs).symm.trans h⟩, .inl rfl⟩
        · rw [readFields_value hk hs hv] at h
          have hset := p.setOption_settles v k
          cases hc : k.choice? v with
          | none =>
            rw [hc] at hset
            obtain ⟨err, he⟩ := hset
            rw [he] at h
            cases h
          | some c =>
            rw [hc] at hset
            obtain ⟨r, hr, -⟩ := hset
            rw [hr] at h
            exact ⟨⟨r, h⟩, .inr rfl⟩
      obtain ⟨⟨r, hr⟩, hv⟩ := hrest
      obtain ⟨hseen, hn, hfits⟩ := ih hr
      rw [hknown]
      refine ⟨fun k' hk' => ?_, List.nodup_cons.mpr ⟨fun hm => hseen k hm List.mem_cons_self, hn⟩, fun g hg k' hgk => ?_⟩
      · rcases List.mem_cons.mp hk' with rfl | hk'
        · exact hs
        · exact fun hm => hseen k' hk' (List.mem_cons_of_mem _ hm)
      · rcases List.mem_cons.mp hg with rfl | hg
        · obtain rfl := Option.some.inj (hk.symm.trans hgk)
          exact hv
        · exact hfits g hg k' hgk

lemma admits_iff (hkeys : (Assoc.keys fields).Nodup) : Admits fields ↔ (known fields).Nodup ∧
    ∀ f ∈ fields, ∀ k, OptionKey.ofName? f.1 = some k → f.2 = .null ∨ (k.choice? f.2).isSome := by
  have hfields : fields.Nodup := List.Nodup.of_map _ hkeys
  constructor
  · rintro ⟨honce, hfits⟩
    refine ⟨List.pairwise_filterMap.mpr ?_, fun f hf k hk => hfits f hf k (OptionKey.ofName?_eq_some.mp hk)⟩
    refine hfields.imp_of_mem fun {f g} hf hg hne k hk k' hk' he => hne ?_
    subst he
    exact honce f hf g hg k (OptionKey.ofName?_eq_some.mp hk) (OptionKey.ofName?_eq_some.mp hk')
  · rintro ⟨hn, hfits⟩
    let same (f g : String × Json) : Prop :=
      ∀ k, OptionKey.ofName? f.1 = some k → OptionKey.ofName? g.1 = some k → f = g
    have hsymm : Std.Symm same := ⟨fun f g h k hk hk' => (h k hk' hk).symm⟩
    have hpair : fields.Pairwise same :=
      (List.pairwise_filterMap.mp hn).imp fun h k hk hk' => absurd rfl (h k hk k hk')
    have hsame := hpair.forall_of_forall fun f _ _ _ _ => rfl
    refine ⟨fun f hf g hg k hk hk' => ?_, fun f hf k hk => hfits f hf k (OptionKey.ofName?_eq_some.mpr hk)⟩
    exact hsame hf hg k (OptionKey.ofName?_eq_some.mpr hk) (OptionKey.ofName?_eq_some.mpr hk')

end Reading

end Patch

end Bemjson
