import Bemjson.Proofs.History
import Bemjson.Proofs.Patching.Choices
import Bemjson.Proofs.Records

/-! What a patch makes of options: all or nothing, the same in any order of its keys, and nothing more the second time. -/

namespace Bemjson

def OptionKey.field : OptionKey → OptionKey
  | .scheme => .callWrapped
  | k => k

lemma OptionKey.choice?_null (k : OptionKey) : k.choice? .null = none := by
  cases k <;> rfl

namespace Options

def value (o : Options) : OptionKey → Choice
  | .jsAttrName => .text o.jsAttrName
  | .callWrapped | .scheme => .flag o.callWrapped
  | .initClass => .text o.initClass
  | .initOnElems => .flag o.initOnElems
  | .escapeText => .flag o.escapeText
  | .noBaseMods => .flag o.noBaseMods
  | .elemDelim => .text o.elemDelim
  | .modDelim => .text o.modDelim
  | .selfClosing => .tags o.selfClosing
  | .detectLoops => .flag o.detectLoops
  | .ruleOrder => .order o.ruleOrder

/-- An option takes the value that is given for it and stays as it is if none is given; tags only come to those that are
there, and unknown fields are kept as they are given. -/
structure Patched (o : Options) (fields : Assoc Json) (o' : Options) : Prop where
  chosen : ∀ f ∈ fields, ∀ (k : OptionKey) (c : Choice), k.Names f.1 → k.choice? f.2 = some c → k ≠ .selfClosing →
    (k = .callWrapped → ∀ g ∈ fields, OptionKey.scheme.Names g.1 → g.2 = .null) → o'.value k = c
  untouched : ∀ k : OptionKey,
    (∀ f ∈ fields, ∀ k' : OptionKey, k'.Names f.1 → k'.field = k.field → f.2 = .null) → o'.value k = o.value k
  tags : o.selfClosing <+: o'.selfClosing
  mem_tags : ∀ tag, tag ∈ o'.selfClosing ↔ tag ∈ o.selfClosing ∨
    ∃ f ∈ fields, OptionKey.selfClosing.Names f.1 ∧ ∃ items, f.2 = .array items ∧ .string tag ∈ items
  unknown : ∀ f ∈ fields, (∀ k : OptionKey, ¬k.Names f.1) → o'.extra.get? f.1 = some f.2
  rest : ∀ key, (∀ f ∈ fields, f.1 = key → ∃ k : OptionKey, k.Names key) → o'.extra.get? key = o.extra.get? key

end Options

section Tags

def addTags (old new : List String) : List String :=
  new.foldl (fun tags tag => if tags.contains tag then tags else tags ++ [tag]) old

lemma prefix_addTags (old new : List String) : old <+: addTags old new := by
  induction new generalizing old with
  | nil => exact List.prefix_refl old
  | cons tag new ih =>
    refine List.IsPrefix.trans ?_ (ih _)
    dsimp only
    split
    · exact List.prefix_refl old
    · exact List.prefix_append old [tag]

lemma mem_addTags {old new : List String} {tag : String} : tag ∈ addTags old new ↔ tag ∈ old ∨ tag ∈ new := by
  induction new generalizing old with
  | nil => simp [addTags]
  | cons first new ih =>
    refine ih.trans ?_
    dsimp only
    split
    · rename_i hfirst
      have hold : first ∈ old := by simpa using hfirst
      by_cases htag : tag = first <;> simp [htag, hold]
    · simp [or_assoc]

lemma addTags_addTags (old new : List String) : addTags (addTags old new) new = addTags old new := by
  have hsame : ∀ {tags more : List String}, (∀ tag ∈ more, tag ∈ tags) → addTags tags more = tags := by
    intro tags more h
    induction more with
    | nil => rfl
    | cons tag more ih =>
      have htag : tags.contains tag = true := by simpa using h tag List.mem_cons_self
      rw [addTags, List.foldl_cons, if_pos htag]
      exact ih fun t ht => h t (List.mem_cons_of_mem _ ht)
  exact hsame fun tag htag => mem_addTags.mpr (.inr htag)

end Tags

namespace Patch

section Given

variable {fields fields' : Assoc Json} {f : String × Json} {k : OptionKey}

lemma given_eq_present (h : Admits fields) (hf : f ∈ fields) (hk : k.Names f.1) : given fields k = f.2.present := by
  have hname := OptionKey.ofName?_eq_some.mpr hk
  cases hg : given fields k with
  | none =>
    have hnone := List.findSome?_eq_none_iff.mp hg f hf
    rw [if_pos hname] at hnone
    exact hnone.symm
  | some v =>
    obtain ⟨g, hg, hv⟩ := List.exists_of_findSome?_eq_some hg
    split at hv
    · rename_i hgname
      rw [← h.once g hg f hf k (OptionKey.ofName?_eq_some.mp hgname) hk]
      exact hv.symm
    · cases hv

lemma given_eq_none_of_not_named (h : ∀ f ∈ fields, ¬k.Names f.1) : given fields k = none := by
  refine given_eq_none fun hm => ?_
  obtain ⟨f, hf, hk⟩ := mem_known.mp hm
  exact h f hf (OptionKey.ofName?_eq_some.mp hk)

lemma given_eq_none_of_null (h : Admits fields) (hnull : ∀ f ∈ fields, k.Names f.1 → f.2 = .null) :
    given fields k = none := by
  by_cases hk : ∃ f ∈ fields, k.Names f.1
  · obtain ⟨f, hf, hkf⟩ := hk
    rw [given_eq_present h hf hkf, hnull f hf hkf]
    rfl
  · exact given_eq_none_of_not_named fun f hf hkf => hk ⟨f, hf, hkf⟩

lemma Admits.perm (h : Admits fields) (hp : fields'.Perm fields) : Admits fields' where
  once f hf g hg := h.once f (hp.mem_iff.mp hf) g (hp.mem_iff.mp hg)
  fits f hf := h.fits f (hp.mem_iff.mp hf)

lemma given_perm (h : Admits fields) (hp : fields'.Perm fields) (k : OptionKey) : given fields' k = given fields k := by
  by_cases hk : ∃ f ∈ fields, k.Names f.1
  · obtain ⟨f, hf, hkf⟩ := hk
    rw [given_eq_present h hf hkf, given_eq_present (h.perm hp) (hp.mem_iff.mpr hf) hkf]
  · rw [given_eq_none_of_not_named fun f hf hkf => hk ⟨f, hf, hkf⟩,
      given_eq_none_of_not_named fun f hf hkf => hk ⟨f, hp.mem_iff.mp hf, hkf⟩]

end Given

section Reading

variable {fields : Assoc Json} {p : Patch}

lemma nodup_unknown (hkeys : (Assoc.keys fields).Nodup) : (unknown fields).keys.Nodup :=
  hkeys.sublist (List.filter_sublist.map Prod.fst)

lemma read_iff (hkeys : (Assoc.keys fields).Nodup) : (∃ p, read (.object fields) = .ok p) ↔ Admits fields := by
  rw [admits_iff hkeys]
  constructor
  · rintro ⟨p, hp⟩
    exact (admitted_of_readFields hp).2
  · rintro ⟨hn, hfits⟩
    obtain ⟨p, hp, -⟩ : ∃ p, readFields {} [] fields = .ok p ∧ Reads {} fields p := exists_reads nofun hn hfits
    exact ⟨p, hp⟩

lemma reads_of_read (h : read (.object fields) = .ok p) : Reads {} fields p := by
  obtain ⟨-, hn, hfits⟩ := admitted_of_readFields h
  obtain ⟨q, hq, hreads⟩ : ∃ q, readFields {} [] fields = .ok q ∧ Reads {} fields q := exists_reads nofun hn hfits
  exact Except.ok.inj (hq.symm.trans h) ▸ hreads

lemma choice_of_read (h : read (.object fields) = .ok p) (k : OptionKey) :
    p.choice k = (given fields k).bind fun v => k.choice? v := by
  rw [(reads_of_read h).choice k]
  cases k <;> exact Option.or_none

lemma of_read (hkeys : (Assoc.keys fields).Nodup) (h : read (.object fields) = .ok p) :
    Admits fields ∧ (∀ k, p.choice k = (given fields k).bind fun v => k.choice? v) ∧ p.extra = unknown fields :=
  ⟨(admits_iff hkeys).mpr (admitted_of_readFields h).2, choice_of_read h,
    (reads_of_read h).extra.trans (Assoc.merge_nil (nodup_unknown hkeys))⟩

end Reading

section Applying

variable {p q : Patch} {o : Options} {k : OptionKey} {c : Choice}

lemma value_apply_of_none (h : ∀ k' : OptionKey, k'.field = k.field → p.choice k' = none) :
    (p.apply o).value k = o.value k := by
  have hk := h k rfl
  cases k with
  | callWrapped | scheme =>
    have hs := Option.map_eq_none_iff.mp (h .scheme rfl)
    have hw := Option.map_eq_none_iff.mp (h .callWrapped rfl)
    simp [Options.value, apply, hs, hw]
  | _ => simp [Options.value, apply, Option.map_eq_none_iff.mp hk]

lemma value_apply_of_some (h : p.choice k = some c) (htags : k ≠ .selfClosing)
    (hs : k = .callWrapped → p.choice .scheme = none) : (p.apply o).value k = c := by
  cases k with
  | selfClosing => exact absurd rfl htags
  | callWrapped =>
    obtain ⟨b, hb, rfl⟩ := Option.map_eq_some_iff.mp h
    simp [Options.value, apply, Option.map_eq_none_iff.mp (hs rfl), hb]
  | _ =>
    obtain ⟨a, ha, rfl⟩ := Option.map_eq_some_iff.mp h
    simp [Options.value, apply, ha]

lemma eq_of_choice (h : ∀ k, p.choice k = q.choice k) : p = { q with extra := p.extra } := by
  have text {a b : Option String} (h : a.map Choice.text = b.map .text) : a = b :=
    Option.map_injective (fun _ _ h => Choice.text.inj h) h
  have flag {a b : Option Bool} (h : a.map Choice.flag = b.map .flag) : a = b :=
    Option.map_injective (fun _ _ h => Choice.flag.inj h) h
  have tags {a b : Option (List String)} (h : a.map Choice.tags = b.map .tags) : a = b :=
    Option.map_injective (fun _ _ h => Choice.tags.inj h) h
  have order {a b : Option RuleOrder} (h : a.map Choice.order = b.map .order) : a = b :=
    Option.map_injective (fun _ _ h => Choice.order.inj h) h
  obtain ⟨⟩ := p
  obtain ⟨⟩ := q
  simp only [mk.injEq, and_true]
  exact ⟨text (h .jsAttrName), flag (h .callWrapped), flag (h .scheme), text (h .initClass), flag (h .initOnElems),
    flag (h .escapeText), flag (h .noBaseMods), text (h .elemDelim), text (h .modDelim), tags (h .selfClosing),
    flag (h .detectLoops), order (h .ruleOrder)⟩

lemma apply_apply (p : Patch) (o : Options) (hkeys : p.extra.keys.Nodup) : p.apply (p.apply o) = p.apply o := by
  have again {α : Type} (a : Option α) (x : α) : a.getD (a.getD x) = a.getD x := by cases a <;> rfl
  have htags := addTags_addTags o.selfClosing (p.selfClosing.getD [])
  have hflag : p.scheme.getD (p.callWrapped.getD (p.scheme.getD (p.callWrapped.getD o.callWrapped))) =
      p.scheme.getD (p.callWrapped.getD o.callWrapped) := by
    cases p.scheme with
    | none => exact again p.callWrapped o.callWrapped
    | some b => rfl
  simp only [addTags] at htags
  simp only [apply, again, hflag, htags, Assoc.merge_merge_self hkeys]

end Applying

section Effect

variable {fields : Assoc Json} {p : Patch}

lemma mem_of_mapM_string {items : List Json} {l : List String} {tag : String} (h : items.mapM Json.string? = some l) :
    tag ∈ l ↔ .string tag ∈ items := by
  induction items generalizing l with
  | nil =>
    cases h
    simp
  | cons v items ih =>
    rw [List.mapM_cons] at h
    obtain ⟨s, hs, h⟩ := Option.bind_eq_some_iff.mp h
    obtain ⟨rest, hrest, h⟩ := Option.bind_eq_some_iff.mp h
    cases h
    cases v with
    | string s' =>
      cases hs
      simp [ih hrest]
    | _ => cases hs

lemma mem_of_strings {v : Json} {l : List String} {tag : String} (h : v.strings? = some l) :
    tag ∈ l ↔ ∃ items, v = .array items ∧ .string tag ∈ items := by
  cases v with
  | array items => simp [mem_of_mapM_string h]
  | _ => cases h

lemma selfClosing_eq (h : p.choice .selfClosing = (given fields .selfClosing).bind fun v => OptionKey.selfClosing.choice? v) :
    p.selfClosing = (given fields .selfClosing).bind Json.strings? := by
  refine Option.map_injective (fun _ _ h => Choice.tags.inj h) (h.trans ?_)
  cases given fields .selfClosing <;> rfl

lemma mem_given_tags (hadmits : Admits fields) {tag : String} :
    tag ∈ ((given fields .selfClosing).bind Json.strings?).getD [] ↔
      ∃ f ∈ fields, OptionKey.selfClosing.Names f.1 ∧ ∃ items, f.2 = .array items ∧ .string tag ∈ items := by
  by_cases hk : ∃ f ∈ fields, OptionKey.selfClosing.Names f.1
  · obtain ⟨f, hf, hkf⟩ := hk
    have honly : (∃ g ∈ fields, OptionKey.selfClosing.Names g.1 ∧ ∃ items, g.2 = .array items ∧ .string tag ∈ items) ↔
        ∃ items, f.2 = .array items ∧ .string tag ∈ items := by
      constructor
      · rintro ⟨g, hg, hkg, hitems⟩
        rwa [hadmits.once f hf g hg _ hkf hkg]
      · exact fun hitems => ⟨f, hf, hkf, hitems⟩
    rw [honly, given_eq_present hadmits hf hkf]
    rcases hadmits.fits f hf _ hkf with hnull | hsome
    · simp [hnull, Json.present]
    · obtain ⟨c, hc⟩ := Option.isSome_iff_exists.mp hsome
      obtain ⟨l, hl, -⟩ := Option.map_eq_some_iff.mp hc
      have hpresent : f.2.present = some f.2 := by
        refine Json.present_of_ne_null fun he => ?_
        rw [he] at hl
        cases hl
      rw [hpresent, Option.bind_some, hl]
      exact mem_of_strings hl
  · rw [given_eq_none_of_not_named fun f hf hkf => hk ⟨f, hf, hkf⟩]
    refine iff_of_false nofun ?_
    rintro ⟨f, hf, hkf, -⟩
    exact hk ⟨f, hf, hkf⟩

lemma patched_apply (hkeys : (Assoc.keys fields).Nodup) (h : read (.object fields) = .ok p) (o : Options) :
    o.Patched fields (p.apply o) := by
  obtain ⟨hadmits, hchoice, hextra⟩ := of_read hkeys h
  have hnone {k : OptionKey} (hnull : ∀ f ∈ fields, k.Names f.1 → f.2 = .null) : p.choice k = none := by
    rw [hchoice k, given_eq_none_of_null hadmits hnull]
    rfl
  have hget (key : String) : (p.apply o).extra.get? key = ((unknown fields).get? key).or (o.extra.get? key) := by
    rw [← Assoc.get?_reverse (nodup_unknown hkeys), ← hextra]
    exact Assoc.get?_merge_true o.extra p.extra key
  refine ⟨fun f hf k c hk hc htags hs => ?_, fun k hk => ?_, prefix_addTags _ _, fun tag => ?_, fun f hf hk => ?_,
    fun key hkey => ?_⟩
  · refine value_apply_of_some ?_ htags fun hw => hnone (hs hw)
    have hpresent : f.2.present = some f.2 := by
      refine Json.present_of_ne_null fun he => ?_
      rw [he, OptionKey.choice?_null] at hc
      cases hc
    rw [hchoice k, given_eq_present hadmits hf hk, hpresent, Option.bind_some, hc]
  · exact value_apply_of_none fun k' hfield => hnone fun f hf hk' => hk f hf k' hk' hfield
  · rw [← mem_given_tags hadmits, ← selfClosing_eq (hchoice .selfClosing)]
    exact mem_addTags
  · have hname : OptionKey.ofName? f.1 = none :=
      Option.eq_none_iff_forall_ne_some.mpr fun k he => hk k (OptionKey.ofName?_eq_some.mp he)
    have hmem : f ∈ unknown fields := List.mem_filter.mpr ⟨hf, by simp [hname]⟩
    rw [hget, (Assoc.get?_eq_some (nodup_unknown hkeys)).mpr hmem, Option.some_or]
  · have hnot : key ∉ (unknown fields).keys := by
      intro hm
      obtain ⟨f, hf, rfl⟩ := List.mem_map.mp hm
      obtain ⟨hf, hname⟩ := List.mem_filter.mp hf
      obtain ⟨k, hk⟩ := hkey f hf rfl
      simp [OptionKey.ofName?_eq_some.mpr hk] at hname
    rw [hget, Assoc.get?_eq_none.mpr hnot, Option.none_or]

lemma exists_read_perm {fields' : Assoc Json} (hkeys : (Assoc.keys fields).Nodup) (h : read (.object fields) = .ok p)
    (hp : fields'.Perm fields) : ∃ q, read (.object fields') = .ok q ∧ p = { q with extra := p.extra } ∧
      q.extra.Perm p.extra ∧ q.extra.keys.Nodup := by
  have hkeys' : (Assoc.keys fields').Nodup := (hp.map Prod.fst).nodup_iff.mpr hkeys
  obtain ⟨hadmits, hchoice, hextra⟩ := of_read hkeys h
  obtain ⟨q, hq⟩ := (read_iff hkeys').mpr (hadmits.perm hp)
  obtain ⟨-, hchoice', hextra'⟩ := of_read hkeys' hq
  refine ⟨q, hq, eq_of_choice fun k => ?_, ?_, ?_⟩
  · rw [hchoice k, hchoice' k, given_perm hadmits hp]
  · rw [hextra, hextra']
    exact hp.filter _
  · rw [hextra']
    exact nodup_unknown hkeys'

end Effect

end Patch

lemma Options.patch_eq_ok {o o' : Options} {v : Json} :
    o.patch v = .ok o' ↔ ∃ p, Patch.read v = .ok p ∧ p.apply o = o' := by
  rw [Options.patch]
  cases Patch.read v <;> simp [Except.map]

/-- A patch that is refused changes nothing. One that is not an object is refused, and an object is accepted if and only
if it names no option twice and gives each one a value of its type; then a second time changes nothing more, and another
order of the keys gives the same options, with the unknown fields in another order. -/
theorem Engine.patch_laws (engine : Engine) :
    (∀ v err, engine.options.patch v = .error err →
      engine.attempt (.patch v) = (.error (.options err), engine)) ∧
    (∀ v o, engine.options.patch v = .ok o →
      engine.attempt (.patch v) = (.ok (), { engine with options := o, built := none })) ∧
    (∀ v, (∀ fields, v ≠ .object fields) → ∃ err, engine.options.patch v = .error err) ∧
    ∀ fields, (Assoc.keys fields).Nodup →
      ((∃ o, engine.options.patch (.object fields) = .ok o) ↔ Patch.Admits fields) ∧
      (∀ fields', fields'.Perm fields → ((∃ o, engine.options.patch (.object fields') = .ok o) ↔
        ∃ o, engine.options.patch (.object fields) = .ok o)) ∧
      ∀ o, engine.options.patch (.object fields) = .ok o →
        engine.options.Patched fields o ∧ o.patch (.object fields) = .ok o ∧
        ∀ fields', fields'.Perm fields → ∃ o', engine.options.patch (.object fields') = .ok o' ∧
          { o' with extra := o.extra } = o ∧ o'.extra.keys.Perm o.extra.keys ∧
          ∀ key, o'.extra.get? key = o.extra.get? key := by
  refine ⟨fun v err h => ?_, fun v o h => ?_, fun v hv => ?_, fun fields hkeys => ?_⟩
  · refine attempt_of_error ?_
    rw [outcome, Engine.patch, h]
    rfl
  · refine attempt_of_ok ?_
    rw [outcome, Engine.patch, h]
    rfl
  · cases v with
    | object fields => exact absurd rfl (hv fields)
    | _ => exact ⟨_, rfl⟩
  have haccepted {fields : Assoc Json} (hkeys : (Assoc.keys fields).Nodup) :
      (∃ o, engine.options.patch (.object fields) = .ok o) ↔ Patch.Admits fields := by
    rw [← Patch.read_iff hkeys]
    simp [Options.patch_eq_ok]
  refine ⟨haccepted hkeys, fun fields' hperm => ?_, fun o h => ?_⟩
  · have hkeys' : (Assoc.keys fields').Nodup := (hperm.map Prod.fst).nodup_iff.mpr hkeys
    rw [haccepted hkeys, haccepted hkeys']
    exact ⟨fun h => h.perm hperm.symm, fun h => h.perm hperm⟩
  · obtain ⟨p, hp, rfl⟩ := Options.patch_eq_ok.mp h
    have hextra := (Patch.of_read hkeys hp).2.2
    refine ⟨Patch.patched_apply hkeys hp _, Options.patch_eq_ok.mpr ⟨p, hp, ?_⟩, fun fields' hperm => ?_⟩
    · refine Patch.apply_apply p _ ?_
      rw [hextra]
      exact Patch.nodup_unknown hkeys
    · obtain ⟨q, hq, hsame, hunknown, hnodup⟩ := Patch.exists_read_perm hkeys hp hperm
      obtain ⟨hkeysPerm, hget⟩ := Assoc.merge_perm hunknown hnodup engine.options.extra
      refine ⟨q.apply engine.options, Options.patch_eq_ok.mpr ⟨q, hq, rfl⟩, ?_, hkeysPerm, hget⟩
      rw [hsame]
      rfl

section Themed

def themed : Assoc Json :=
  [("theme", .string "dark"), ("behaviorAttrIsCallWrapped", .bool true), ("jsCls", .bool false), ("lang", .null),
    ("jsAttrScheme", .string "json"), ("shortTags", .array [.string "x-icon", .string "br"]), ("escapeText", .null)]

def themedOptions : Options where
  callWrapped := false
  initClass := ""
  selfClosing := defaultSelfClosing ++ ["x-icon"]
  extra := [("theme", .string "dark"), ("lang", .null)]

theorem patch_laws_themed : (Assoc.keys themed).Nodup ∧ ({} : Options).patch (.object themed) = .ok themedOptions ∧
    themedOptions.patch (.object themed) = .ok themedOptions ∧
    ∃ o', ({} : Options).patch (.object themed.reverse) = .ok o' ∧ { o' with extra := themedOptions.extra } = themedOptions := by
  have hkeys : (Assoc.keys themed).Nodup := by decide
  have h : ({} : Options).patch (.object themed) = .ok themedOptions := by rfl
  obtain ⟨-, hagain, hperm⟩ := ((Engine.patch_laws {}).2.2.2 themed hkeys).2.2 themedOptions h
  obtain ⟨o', ho, hsame, -⟩ := hperm themed.reverse (List.reverse_perm themed)
  exact ⟨hkeys, h, hagain, o', ho, hsame⟩

end Themed

end Bemjson
