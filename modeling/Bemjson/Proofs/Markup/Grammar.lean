import Bemjson.Text.CharRef
import Bemjson.Text.Ranges
import Mathlib.Tactic.Lemma

/-! A grammar of nested tags and text, after which markup can be read in no more than one way. -/

namespace Bemjson.Markup

open CharRef

structure Attr where
  name : List Char
  value : Option (List Char)

inductive Item where
  | text (s : List Char)
  | void (name : List Char) (attrs : List Attr)
  | element (name : List Char) (attrs : List Attr) (inner : List Item)

def IsNameChar (c : Char) : Prop := c ∉ ['<', '>', '"', apostrophe, '&', '=', '/'] ∧ isWhiteSpace c = false

def IsName (name : List Char) : Prop := ∀ c ∈ name, IsNameChar c

instance (c : Char) : Decidable (IsNameChar c) := inferInstanceAs (Decidable (_ ∧ _))

instance (name : List Char) : Decidable (IsName name) := List.decidableBAll IsNameChar name

def IsTextChar (c : Char) : Prop := c ≠ '<' ∧ c ≠ '>'

inductive ReadsAttrs : List Attr → List Char → Prop
  | nil : ReadsAttrs [] []
  | bare (name : List Char) (attrs : List Attr) (cs : List Char) : IsName name → name ≠ [] → ReadsAttrs attrs cs →
      ReadsAttrs (⟨name, none⟩ :: attrs) (' ' :: (name ++ cs))
  | valued (name : List Char) (quote : Char) (raw : List Char) (attrs : List Attr) (cs : List Char) : IsName name →
      quote = '"' ∨ quote = apostrophe → quote ∉ raw → ReadsAttrs attrs cs →
      ReadsAttrs (⟨name, some (decode raw)⟩ :: attrs) (' ' :: (name ++ '=' :: quote :: (raw ++ quote :: cs)))

def StartsWithText (items : List Item) : Prop := ∃ s rest, items = .text s :: rest

/-- The items stand one after the other in the characters. Text reaches up to the next tag. -/
inductive Reads : List Item → List Char → Prop
  | nil : Reads [] []
  | text (raw : List Char) (items : List Item) (cs : List Char) : raw ≠ [] → (∀ c ∈ raw, IsTextChar c) →
      ¬StartsWithText items → Reads items cs → Reads (.text (decode raw) :: items) (raw ++ cs)
  | void (name : List Char) (attrs : List Attr) (as : List Char) (items : List Item) (cs : List Char) :
      IsName name → name ≠ [] → ReadsAttrs attrs as → Reads items cs →
      Reads (.void name attrs :: items) ('<' :: (name ++ (as ++ '/' :: '>' :: cs)))
  | element (name : List Char) (attrs : List Attr) (as : List Char) (inner : List Item) (within : List Char)
      (items : List Item) (cs : List Char) : IsName name → name ≠ [] → ReadsAttrs attrs as → Reads inner within →
      Reads items cs →
      Reads (.element name attrs inner :: items)
        ('<' :: (name ++ (as ++ '>' :: (within ++ '<' :: '/' :: (name ++ '>' :: cs)))))

section Unique

lemma cut_unique {p : Char → Prop} {a b x y : List Char} (ha : ∀ c ∈ a, p c) (hb : ∀ c ∈ b, p c)
    (hx : ∀ c, x.head? = some c → ¬p c) (hy : ∀ c, y.head? = some c → ¬p c) (h : a ++ x = b ++ y) : a = b ∧ x = y := by
  induction a generalizing b with
  | nil =>
    cases b with
    | nil => exact ⟨rfl, h⟩
    | cons d b =>
      subst h
      exact absurd (hb d List.mem_cons_self) (hx d rfl)
  | cons c a ih =>
    cases b with
    | nil =>
      subst h
      exact absurd (ha c List.mem_cons_self) (hy c rfl)
    | cons d b =>
      rw [List.cons_append, List.cons_append] at h
      obtain ⟨rfl, htail⟩ := List.cons.inj h
      obtain ⟨rfl, hxy⟩ := ih (fun e he => ha e (List.mem_cons_of_mem c he))
        (fun e he => hb e (List.mem_cons_of_mem c he)) htail
      exact ⟨rfl, hxy⟩

def EndsAttrs (r : List Char) : Prop := r.head? = some '/' ∨ r.head? = some '>'

lemma ReadsAttrs.head {attrs : List Attr} {cs r : List Char} (h : ReadsAttrs attrs cs) (hr : EndsAttrs r) :
    (cs ++ r).head? = some ' ' ∨ EndsAttrs (cs ++ r) := by
  cases h with
  | nil => exact Or.inr hr
  | bare => exact Or.inl rfl
  | valued => exact Or.inl rfl

lemma ReadsAttrs.ends_name {attrs : List Attr} {cs r : List Char} (h : ReadsAttrs attrs cs) (hr : EndsAttrs r) :
    ∀ c, (cs ++ r).head? = some c → c ≠ '=' ∧ ¬IsNameChar c := by
  intro c hc
  rcases h.head hr with hs | hs | hs <;>
    · obtain rfl := Option.some.inj (hs.symm.trans hc)
      exact ⟨by decide, by decide⟩

lemma not_endsAttrs_cons {c : Char} (hc : c ≠ '/' ∧ c ≠ '>') (r : List Char) : ¬EndsAttrs (c :: r) := by
  rintro (h | h)
  · exact hc.1 (Option.some.inj h)
  · exact hc.2 (Option.some.inj h)

lemma equals_ends_name (c : Char) (r : List Char) (h : ('=' :: r).head? = some c) : ¬IsNameChar c := by
  obtain rfl := Option.some.inj h
  exact fun hn => absurd hn.1 (by decide)

lemma ReadsAttrs.unique {as bs : List Attr} {cs ds r r' : List Char} (ha : ReadsAttrs as cs) (hb : ReadsAttrs bs ds)
    (hr : EndsAttrs r) (hr' : EndsAttrs r') (h : cs ++ r = ds ++ r') : as = bs ∧ cs = ds ∧ r = r' := by
  induction ha generalizing bs ds with
  | nil =>
    cases hb with
    | nil => exact ⟨rfl, rfl, h⟩
    | bare =>
      subst h
      exact absurd hr (not_endsAttrs_cons (by decide) _)
    | valued =>
      subst h
      exact absurd hr (not_endsAttrs_cons (by decide) _)
  | bare name as cs hname _ ha ih =>
    cases hb with
    | nil =>
      subst h
      exact absurd hr' (not_endsAttrs_cons (by decide) _)
    | bare name' bs ds hname' _ hb =>
      rw [List.cons_append, List.cons_append, List.append_assoc, List.append_assoc] at h
      obtain ⟨rfl, hrest⟩ := cut_unique hname hname' (fun c hc => (ha.ends_name hr c hc).2)
        (fun c hc => (hb.ends_name hr' c hc).2) (List.cons.inj h).2
      obtain ⟨rfl, rfl, rfl⟩ := ih hb hrest
      exact ⟨rfl, rfl, rfl⟩
    | valued name' quote raw bs ds hname' =>
      rw [List.cons_append, List.cons_append, List.append_assoc, List.append_assoc, List.cons_append] at h
      obtain ⟨_, hrest⟩ := cut_unique hname hname' (fun c hc => (ha.ends_name hr c hc).2)
        (equals_ends_name · _) (List.cons.inj h).2
      exact absurd rfl (ha.ends_name hr '=' (congrArg List.head? hrest)).1
  | valued name quote raw as cs hname hquote hraw ha ih =>
    cases hb with
    | nil =>
      subst h
      exact absurd hr' (not_endsAttrs_cons (by decide) _)
    | bare name' bs ds hname' _ hb =>
      rw [List.cons_append, List.cons_append, List.append_assoc, List.append_assoc, List.cons_append] at h
      obtain ⟨_, hrest⟩ := cut_unique hname hname' (equals_ends_name · _)
        (fun c hc => (hb.ends_name hr' c hc).2) (List.cons.inj h).2
      exact absurd rfl (hb.ends_name hr' '=' (congrArg List.head? hrest.symm)).1
    | valued name' quote' raw' bs ds hname' _ hraw' hb =>
      simp only [List.cons_append, List.append_assoc, List.cons.injEq, true_and] at h
      obtain ⟨rfl, hrest⟩ := cut_unique hname hname' (equals_ends_name · _) (equals_ends_name · _) h
      simp only [List.cons.injEq, true_and] at hrest
      obtain ⟨rfl, hrest⟩ := hrest
      have hends : ∀ (x : List Char) c, (quote :: x).head? = some c → ¬c ≠ quote := fun _ _ hc hne =>
        hne (Option.some.inj hc).symm
      obtain ⟨rfl, hlast⟩ := cut_unique (p := (· ≠ quote)) (fun c hc he => hraw (he ▸ hc)) (fun c hc he => hraw' (he ▸ hc))
        (hends _) (hends _) hrest
      obtain ⟨rfl, rfl, rfl⟩ := ih hb (List.cons.inj hlast).2
      exact ⟨rfl, rfl, rfl⟩

def Closes (r : List Char) : Prop := r = [] ∨ ∃ s, r = '<' :: '/' :: s

lemma Reads.head {items : List Item} {cs r : List Char} (h : Reads items cs) (hi : ¬StartsWithText items) (hr : Closes r) :
    ∀ c, (cs ++ r).head? = some c → ¬IsTextChar c := by
  have htag : ∀ c (s : List Char), ('<' :: s).head? = some c → ¬IsTextChar c := by
    intro c s hc hn
    exact hn.1 (Option.some.inj hc).symm
  intro c hc
  cases h with
  | nil =>
    rcases hr with rfl | ⟨s, rfl⟩
    · cases hc
    · exact htag c _ hc
  | text raw items cs => exact absurd ⟨_, _, rfl⟩ hi
  | void => exact htag c _ hc
  | element => exact htag c _ hc

lemma not_closes_tag {name : List Char} (hname : IsName name) (hne : name ≠ []) (s r : List Char) :
    ¬Closes ('<' :: (name ++ s) ++ r) := by
  rintro (h | ⟨t, h⟩)
  · cases h
  · cases name with
    | nil => exact hne rfl
    | cons c name =>
      obtain ⟨rfl, _⟩ := List.cons.inj (List.cons.inj h).2
      exact absurd (hname '/' List.mem_cons_self).1 (by decide)

lemma not_closes_text {raw : List Char} (hraw : ∀ c ∈ raw, IsTextChar c) (hne : raw ≠ []) (s r : List Char) :
    ¬Closes (raw ++ s ++ r) := by
  cases raw with
  | nil => exact absurd rfl hne
  | cons c raw =>
    rintro (h | ⟨t, h⟩)
    · cases h
    · obtain ⟨rfl, _⟩ := List.cons.inj h
      exact absurd rfl (hraw '<' List.mem_cons_self).1

lemma text_ne_tag {raw : List Char} (hraw : ∀ c ∈ raw, IsTextChar c) (hne : raw ≠ []) (s t r : List Char) :
    raw ++ s ++ r ≠ '<' :: t := by
  cases raw with
  | nil => exact absurd rfl hne
  | cons c raw =>
    intro h
    obtain ⟨rfl, _⟩ := List.cons.inj h
    exact (hraw '<' List.mem_cons_self).1 rfl

lemma tag_unique {name name' : List Char} {attrs attrs' : List Attr} {as as' s s' r r' : List Char} (hname : IsName name)
    (hname' : IsName name') (ha : ReadsAttrs attrs as) (hb : ReadsAttrs attrs' as') (hs : EndsAttrs s)
    (hs' : EndsAttrs s') (h : '<' :: (name ++ (as ++ s)) ++ r = '<' :: (name' ++ (as' ++ s')) ++ r') :
    name = name' ∧ attrs = attrs' ∧ as = as' ∧ s ++ r = s' ++ r' := by
  have hends : ∀ {s : List Char} (r), EndsAttrs s → EndsAttrs (s ++ r) := by
    intro s r hs
    cases s with
    | nil => rcases hs with hs | hs <;> cases hs
    | cons c s => exact hs
  rw [List.cons_append, List.cons_append, List.append_assoc, List.append_assoc, List.append_assoc, List.append_assoc] at h
  obtain ⟨rfl, hrest⟩ := cut_unique hname hname' (fun c hc => (ha.ends_name (hends r hs) c hc).2)
    (fun c hc => (hb.ends_name (hends r' hs') c hc).2) (List.cons.inj h).2
  obtain ⟨rfl, rfl, hlast⟩ := ha.unique hb (hends r hs) (hends r' hs') hrest
  exact ⟨rfl, rfl, rfl, hlast⟩

lemma Reads.unique {items others : List Item} {cs ds r r' : List Char} (ha : Reads items cs) (hb : Reads others ds)
    (hr : Closes r) (hr' : Closes r') (h : cs ++ r = ds ++ r') : items = others ∧ cs = ds ∧ r = r' := by
  induction ha generalizing others ds r r' with
  | nil =>
    subst h
    cases hb with
    | nil => exact ⟨rfl, rfl, rfl⟩
    | text raw items cs hne hraw =>
      exact absurd hr (not_closes_text hraw hne _ _)
    | void name attrs as items cs hname hne =>
      exact absurd hr (not_closes_tag hname hne _ _)
    | element name attrs as inner within items cs hname hne =>
      exact absurd hr (not_closes_tag hname hne _ _)
  | text raw items cs hne hraw hi ha ih =>
    cases hb with
    | nil =>
      subst h
      exact absurd hr' (not_closes_text hraw hne _ _)
    | text raw' others ds hne' hraw' hi' hb =>
      rw [List.append_assoc, List.append_assoc] at h
      obtain ⟨rfl, hrest⟩ := cut_unique hraw hraw' (ha.head hi hr) (hb.head hi' hr') h
      obtain ⟨rfl, rfl, rfl⟩ := ih hb hr hr' hrest
      exact ⟨rfl, rfl, rfl⟩
    | void => exact absurd h (text_ne_tag hraw hne _ _ _)
    | element => exact absurd h (text_ne_tag hraw hne _ _ _)
  | void name attrs as items cs hname hne hattrs ha ih =>
    cases hb with
    | nil =>
      subst h
      exact absurd hr' (not_closes_tag hname hne _ _)
    | text raw' others ds hne' hraw' =>
      exact absurd h.symm (text_ne_tag hraw' hne' _ _ _)
    | void name' attrs' as' others ds hname' hne' hattrs' hb =>
      obtain ⟨rfl, rfl, rfl, hrest⟩ := tag_unique hname hname' hattrs hattrs' (Or.inl rfl) (Or.inl rfl) h
      obtain ⟨rfl, rfl, rfl⟩ := ih hb hr hr' (List.cons.inj (List.cons.inj hrest).2).2
      exact ⟨rfl, rfl, rfl⟩
    | element name' attrs' as' inner within others ds hname' hne' hattrs' =>
      obtain ⟨_, _, _, hrest⟩ := tag_unique hname hname' hattrs hattrs' (Or.inl rfl) (Or.inr rfl) h
      exact absurd (List.cons.inj hrest).1 (by decide)
  | element name attrs as inner within items cs hname hne hattrs hin ha ihin ih =>
    cases hb with
    | nil =>
      subst h
      exact absurd hr' (not_closes_tag hname hne _ _)
    | text raw' others ds hne' hraw' =>
      exact absurd h.symm (text_ne_tag hraw' hne' _ _ _)
    | void name' attrs' as' others ds hname' hne' hattrs' =>
      obtain ⟨_, _, _, hrest⟩ := tag_unique hname hname' hattrs hattrs' (Or.inr rfl) (Or.inl rfl) h
      exact absurd (List.cons.inj hrest).1 (by decide)
    | element name' attrs' as' inner' within' others ds hname' hne' hattrs' hin' hb =>
      -- what is within comes before a closing tag on either side, so it is the same, and only then the closing tags are
      obtain ⟨rfl, rfl, rfl, hrest⟩ := tag_unique hname hname' hattrs hattrs' (Or.inr rfl) (Or.inr rfl) h
      simp only [List.cons_append, List.append_assoc, List.cons.injEq, true_and] at hrest
      obtain ⟨rfl, rfl, hclosing⟩ := ihin hin' (Or.inr ⟨_, rfl⟩) (Or.inr ⟨_, rfl⟩) hrest
      have hafter := List.append_cancel_left (List.cons.inj (List.cons.inj hclosing).2).2
      obtain ⟨rfl, rfl, rfl⟩ := ih hb hr hr' (List.cons.inj hafter).2
      exact ⟨rfl, rfl, rfl⟩

end Unique

end Bemjson.Markup
