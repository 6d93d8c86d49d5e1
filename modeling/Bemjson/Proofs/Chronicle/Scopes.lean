import Bemjson.Proofs.DepthFirst.Sight
import Bemjson.Proofs.Slots

namespace Bemjson

namespace Run

def path? (r : Run) (id : Nat) : Option Path := r.slots[id]?.map Slot.path

def held? (r : Run) (id : Nat) (key : String) : Option Json := r.slots[id]?.bind fun slot => slot.kept.get? key

def IsParent (r : Run) (parent id : Nat) : Prop := ∃ slot, r.slots[id]? = some slot ∧ slot.parent = some parent

abbrev Above (r : Run) : Nat → Nat → Prop := Relation.TransGen r.IsParent

def Covers (r : Run) (other id : Nat) : Prop := ∃ p q, r.path? id = some p ∧ r.path? other = some q ∧ q <+: p

/-- Of the slots at or above the place of a slot that hold the key, the one with the longest path. -/
structure Holder (r : Run) (key : String) (id other : Nat) : Prop where
  covers : r.Covers other id
  holds : (r.held? other key).isSome
  longest : ∀ third p q, r.Covers third id → (r.held? third key).isSome → r.path? third = some p →
    r.path? other = some q → p.length ≤ q.length

inductive Climbs (r : Run) (key : String) : Nat → Option Json → Prop
  | found (id : Nat) (slot : Slot) (v : Json) : r.slots[id]? = some slot → slot.kept.get? key = some v →
      Climbs r key id (some v)
  | top (id : Nat) (slot : Slot) : r.slots[id]? = some slot → slot.kept.get? key = none → slot.parent = none →
      Climbs r key id none
  | up (id : Nat) (slot : Slot) (p : Nat) (answer : Option Json) : r.slots[id]? = some slot →
      slot.kept.get? key = none → slot.parent = some p → Climbs r key p answer → Climbs r key id answer

/-- Parents and paths tell the same: above a slot there is first its parent, and all the others are above that. -/
structure Nests (r : Run) : Prop where
  paths : ∀ i j p, r.path? i = some p → r.path? j = some p → i = j
  parents : ∀ id slot p, r.slots[id]? = some slot → slot.parent = some p →
    p < id ∧ ∃ q, r.path? p = some q ∧ q <+: slot.path
  nearest : ∀ id slot other q, r.slots[id]? = some slot → r.path? other = some q → q <+: slot.path →
    other = id ∨ ∃ p, slot.parent = some p ∧ r.Covers other p

lemma held?_slot {r : Run} {id : Nat} {slot : Slot} (hs : r.slots[id]? = some slot) (key : String) :
    r.held? id key = slot.kept.get? key := by
  rw [held?, hs, Option.bind_some]

lemma inherited_unknown {r : Run} {id : Nat} (hs : r.slots[id]? = none) (key : String) : r.inherited id key = none := by
  rw [inherited]
  cases r.slots.length with
  | zero => rfl
  | succ n => rw [lookup, hs, Option.bind_none]

lemma Covers.known {r : Run} {other id : Nat} (h : r.Covers other id) : ∃ slot, r.slots[id]? = some slot := by
  obtain ⟨p, _, hp, _⟩ := h
  obtain ⟨slot, hs, _⟩ := Option.map_eq_some_iff.mp hp
  exact ⟨slot, hs⟩

lemma covers_self {r : Run} {id : Nat} {slot : Slot} (hs : r.slots[id]? = some slot) : r.Covers id id := by
  have hp : r.path? id = some slot.path := by rw [path?, hs, Option.map_some]
  exact ⟨slot.path, slot.path, hp, hp, List.prefix_refl _⟩

lemma holder_self {r : Run} {id : Nat} {slot : Slot} (hs : r.slots[id]? = some slot)
    {key : String} (hk : (r.held? id key).isSome) : r.Holder key id id := by
  refine ⟨covers_self hs, hk, ?_⟩
  rintro third p q ⟨_, _, hp', hq', hpre⟩ _ hp hq
  obtain rfl := Option.some.inj (hp'.symm.trans hq)
  obtain rfl := Option.some.inj (hq'.symm.trans hp)
  exact hpre.length_le

section Ways

variable {r later : Run}

lemma path?_way (hw : later.slots.map Slot.way = r.slots.map Slot.way) (id : Nat) : later.path? id = r.path? id := by
  have h := congrArg (fun l : List (Path × Option Nat) => l[id]?.map Prod.fst) hw
  simp only [List.getElem?_map, Option.map_map] at h
  exact h

lemma slot_way (hw : later.slots.map Slot.way = r.slots.map Slot.way) {id : Nat} {slot : Slot}
    (hs : later.slots[id]? = some slot) :
    ∃ old, r.slots[id]? = some old ∧ old.path = slot.path ∧ old.parent = slot.parent := by
  have h := congrArg (fun l : List (Path × Option Nat) => l[id]?) hw
  simp only [List.getElem?_map, hs] at h
  obtain ⟨old, ho, he⟩ := Option.map_eq_some_iff.mp h.symm
  exact ⟨old, ho, congrArg Prod.fst he, congrArg Prod.snd he⟩

lemma covers_way (hw : later.slots.map Slot.way = r.slots.map Slot.way) (other id : Nat) :
    later.Covers other id ↔ r.Covers other id := by
  rw [Covers, Covers, path?_way hw, path?_way hw]

lemma Nests.of_way (h : r.Nests) (hw : later.slots.map Slot.way = r.slots.map Slot.way) : later.Nests where
  paths i j p hi hj := h.paths i j p ((path?_way hw i).symm.trans hi) ((path?_way hw j).symm.trans hj)
  parents id slot p hs hp := by
    obtain ⟨old, ho, hpath, hparent⟩ := slot_way hw hs
    obtain ⟨hlt, q, hq, hpre⟩ := h.parents id old p ho (hparent.trans hp)
    exact ⟨hlt, q, (path?_way hw p).trans hq, hpath ▸ hpre⟩
  nearest id slot other q hs hq hpre := by
    obtain ⟨old, ho, hpath, hparent⟩ := slot_way hw hs
    rcases h.nearest id old other q ho ((path?_way hw other).symm.trans hq) (hpath ▸ hpre) with rfl | ⟨p, hp, hc⟩
    · exact Or.inl rfl
    · exact Or.inr ⟨p, hparent.symm.trans hp, (covers_way hw other p).mpr hc⟩

end Ways

namespace Nests

variable {r : Run} (h : r.Nests) {id other : Nat} {slot : Slot}
include h

lemma ordered : Ordered r.slots := fun id slot p hs hp => (h.parents id slot p hs hp).1

lemma covers_iff (hs : r.slots[id]? = some slot) :
    r.Covers other id ↔ other = id ∨ ∃ p, slot.parent = some p ∧ r.Covers other p := by
  have hpath : r.path? id = some slot.path := by rw [path?, hs, Option.map_some]
  constructor
  · rintro ⟨p, q, hp, hq, hpre⟩
    obtain rfl := Option.some.inj (hpath.symm.trans hp)
    exact h.nearest id slot other q hs hq hpre
  · rintro (rfl | ⟨p, hparent, w, q, hw, hq, hpre⟩)
    · exact ⟨slot.path, slot.path, hpath, hpath, List.prefix_refl _⟩
    · obtain ⟨_, w', hw', hup⟩ := h.parents id slot p hs hparent
      obtain rfl := Option.some.inj (hw.symm.trans hw')
      exact ⟨slot.path, q, hpath, hq, hpre.trans hup⟩

lemma covers_of_parent (hs : r.slots[id]? = some slot) {p : Nat} (hp : slot.parent = some p) (hc : r.Covers other p) :
    r.Covers other id :=
  (h.covers_iff hs).mpr (Or.inr ⟨p, hp, hc⟩)

lemma covers_parent (hs : r.slots[id]? = some slot) {p : Nat} (hp : slot.parent = some p) (hc : r.Covers other id)
    (hne : other ≠ id) : r.Covers other p := by
  obtain ⟨p', hp', hc⟩ := ((h.covers_iff hs).mp hc).resolve_left hne
  obtain rfl := Option.some.inj (hp.symm.trans hp')
  exact hc

lemma covers_top (hs : r.slots[id]? = some slot) (hp : slot.parent = none) (hc : r.Covers other id) : other = id := by
  rcases (h.covers_iff hs).mp hc with he | ⟨p, hp', _⟩
  · exact he
  · rw [hp] at hp'
    cases hp'

lemma covers_antisymm (hab : r.Covers other id) (hba : r.Covers id other) : other = id := by
  obtain ⟨p, q, hp, hq, hqp⟩ := hab
  obtain ⟨q', p', hq', hp', hpq⟩ := hba
  obtain rfl := Option.some.inj (hp.symm.trans hp')
  obtain rfl := Option.some.inj (hq.symm.trans hq')
  have heq : q = p := hqp.eq_of_length (Nat.le_antisymm hqp.length_le hpq.length_le)
  exact h.paths other id q hq (heq ▸ hp)

lemma parent_covers (hs : r.slots[id]? = some slot) {p : Nat} (hp : slot.parent = some p) :
    p < id ∧ r.Covers p p ∧ r.Covers p id := by
  obtain ⟨hlt, q, hq, _⟩ := h.parents id slot p hs hp
  have hself : r.Covers p p := ⟨q, q, hq, hq, List.prefix_refl q⟩
  exact ⟨hlt, hself, h.covers_of_parent hs hp hself⟩

lemma above_iff : r.Above other id ↔ r.Covers other id ∧ other ≠ id := by
  constructor
  · intro ha
    suffices hlt : r.Covers other id ∧ other < id from ⟨hlt.1, Nat.ne_of_lt hlt.2⟩
    induction ha with
    | single hp =>
      obtain ⟨slot, hs, hp⟩ := hp
      obtain ⟨hlt, _, hc⟩ := h.parent_covers hs hp
      exact ⟨hc, hlt⟩
    | tail _ hp ih =>
      obtain ⟨slot, hs, hp⟩ := hp
      exact ⟨h.covers_of_parent hs hp ih.1, Nat.lt_trans ih.2 (h.parent_covers hs hp).1⟩
  · rintro ⟨hc, hne⟩
    induction id using Nat.strongRecOn with
    | ind id ih =>
      obtain ⟨slot, hs⟩ := hc.known
      obtain ⟨p, hp, hcp⟩ := ((h.covers_iff hs).mp hc).resolve_left hne
      by_cases hop : other = p
      · exact hop ▸ .single ⟨slot, hs, hp⟩
      · exact .tail (ih p (h.parent_covers hs hp).1 hcp hop) ⟨slot, hs, hp⟩

lemma inherited_eq (hs : r.slots[id]? = some slot) (key : String) :
    r.inherited id key = (r.held? id key).or (slot.parent.bind fun p => r.inherited p key) := by
  have hkeeps : ∀ i, i < r.slots.length →
      r.inherited i key = (keeps r.slots i).findSome? fun kept => kept.get? key := by
    intro i hi
    rw [Run.inherited, lookup_eq_chain, chain_eq_keeps h.ordered hi]
  have hlt : id < r.slots.length := (List.getElem?_eq_some_iff.mp hs).1
  rw [hkeeps id hlt, keeps_eq h.ordered hs, held?_slot hs]
  cases hp : slot.parent with
  | none => cases hk : slot.kept.get? key <;> simp [hk]
  | some p =>
    have hplt := (h.parents id slot p hs hp).1
    cases hk : slot.kept.get? key <;> simp [hk, hkeeps p (by omega)]

lemma climbs (key : String) (hlt : id < r.slots.length) : r.Climbs key id (r.inherited id key) := by
  induction id using Nat.strongRecOn with
  | ind id ih =>
    have hs := List.getElem?_eq_getElem hlt
    rw [h.inherited_eq hs, held?_slot hs]
    cases hk : r.slots[id].kept.get? key with
    | some v => exact .found id _ v hs hk
    | none =>
      cases hp : r.slots[id].parent with
      | none => exact .top id _ hs hk hp
      | some p =>
        have hplt := (h.parents id _ p hs hp).1
        exact .up id _ p _ hs hk hp (ih p hplt (by omega))

lemma covers_parent_of_holds (hs : r.slots[id]? = some slot) {p : Nat} (hp : slot.parent = some p) {key : String}
    (hk : r.held? id key = none) (hc : r.Covers other id) (ho : (r.held? other key).isSome) : r.Covers other p := by
  apply h.covers_parent hs hp hc
  rintro rfl
  rw [hk] at ho
  cases ho

lemma holder_of_parent (hs : r.slots[id]? = some slot) {p : Nat} (hp : slot.parent = some p) {key : String}
    (hk : r.held? id key = none) (ho : r.Holder key p other) : r.Holder key id other where
  covers := h.covers_of_parent hs hp ho.covers
  holds := ho.holds
  longest third p q hc hh := ho.longest third p q (h.covers_parent_of_holds hs hp hk hc hh) hh

lemma inherited_holder (key : String) (hlt : id < r.slots.length) :
    (∀ v, r.inherited id key = some v → ∃ other, r.Holder key id other ∧ r.held? other key = some v) ∧
      (r.inherited id key = none → ∀ other, r.Covers other id → r.held? other key = none) := by
  induction id using Nat.strongRecOn with
  | ind id ih =>
    have hs := List.getElem?_eq_getElem hlt
    rw [h.inherited_eq hs]
    cases hk : r.held? id key with
    | some v =>
      refine ⟨fun w hw => ?_, nofun⟩
      obtain rfl := Option.some.inj hw
      exact ⟨id, holder_self hs (Option.isSome_of_eq_some hk), hk⟩
    | none =>
      cases hp : r.slots[id].parent with
      | none =>
        refine ⟨nofun, fun _ other hc => ?_⟩
        obtain rfl := h.covers_top hs hp hc
        exact hk
      | some p =>
        obtain ⟨hsome, hnone⟩ := ih p (h.parent_covers hs hp).1 (Nat.lt_trans (h.parent_covers hs hp).1 hlt)
        refine ⟨fun v hv => ?_, fun hn other hc => ?_⟩
        · obtain ⟨other, ho, hval⟩ := hsome v hv
          exact ⟨other, h.holder_of_parent hs hp hk ho, hval⟩
        · by_contra ho
          have hup := h.covers_parent_of_holds hs hp hk hc (Option.isSome_iff_ne_none.mpr ho)
          exact ho (hnone hn other hup)

lemma holder_unique {key : String} {third : Nat} (ho : r.Holder key id other) (ht : r.Holder key id third) :
    other = third := by
  obtain ⟨p, q, hp, hq, hpre⟩ := ho.covers
  obtain ⟨p', w, hp', hw, hwpre⟩ := ht.covers
  obtain rfl := Option.some.inj (hp.symm.trans hp')
  have hle := ho.longest third w q ht.covers ht.holds hw hq
  have hge := ht.longest other q w ho.covers ho.holds hq hw
  have heq : q = w := (List.prefix_of_prefix_length_le hpre hwpre hge).eq_of_length (Nat.le_antisymm hge hle)
  exact h.paths other third w (heq ▸ hq) hw

lemma inherited_eq_some {key : String} {v : Json} (hlt : id < r.slots.length) :
    r.inherited id key = some v ↔ ∃ other, r.Holder key id other ∧ r.held? other key = some v := by
  obtain ⟨hsome, hnone⟩ := h.inherited_holder key hlt
  constructor
  · exact hsome v
  · rintro ⟨other, ho, hv⟩
    cases hi : r.inherited id key with
    | none => exact absurd ((hnone hi other ho.covers).symm.trans hv) (by simp)
    | some w =>
      obtain ⟨third, ht, hw⟩ := hsome w hi
      obtain rfl := h.holder_unique ho ht
      exact hw.symm.trans hv

end Nests

section Keep

/-- What is kept for the key at the first slot is what the second one sees: no slot between them holds the key. -/
def Governs (r : Run) (key : String) (id other : Nat) : Prop :=
  r.Covers id other ∧ ∀ third, r.Covers third other → (r.held? third key).isSome → r.Covers third id

variable {r : Run} {id : Nat}

lemma governs_self {slot : Slot} (hs : r.slots[id]? = some slot) (key : String) : r.Governs key id id :=
  ⟨covers_self hs, fun _ hc _ => hc⟩

lemma keep_way (r : Run) (id : Nat) (key : String) (value : Json) (force : Bool) :
    (r.keep id key value force).slots.map Slot.way = r.slots.map Slot.way :=
  State.map_modify_of_eq Slot.way r.slots id _ fun _ => rfl

lemma held?_keep (hlt : id < r.slots.length) (key : String) (value : Json) (force : Bool) (other : Nat) (k : String) :
    (r.keep id key value force).held? other k =
      if other = id ∧ k = key ∧ (force = true ∨ r.held? id key = none) then some value else r.held? other k := by
  have hs := List.getElem?_eq_getElem hlt
  by_cases ho : other = id
  · subst ho
    have hkept : (r.keep other key value force).slots[other]? =
        some { r.slots[other] with kept := r.slots[other].kept.put force key value } := by
      simp [keep, modifySlot, hs]
    rw [held?_slot hkept, held?_slot hs, held?_slot hs, Assoc.get?_put]
    simp only [true_and, eq_comm]
  · have hsame : (r.keep id key value force).slots[other]? = r.slots[other]? :=
      List.getElem?_modify_ne _ _ (Ne.symm ho)
    rw [held?, hsame, if_neg fun h => ho h.1, held?]

namespace Nests

variable (h : r.Nests) {key : String} {other : Nat} {slot : Slot}
include h

lemma eq_of_governs (hs : r.slots[other]? = some slot) (hg : r.Governs key id other)
    (hv : (r.held? other key).isSome) : other = id := by
  exact h.covers_antisymm (hg.2 other (covers_self hs) hv) hg.1

lemma governs_parent (hs : r.slots[other]? = some slot) {p : Nat} (hp : slot.parent = some p) (hne : id ≠ other)
    (hv : r.held? other key = none) : r.Governs key id other ↔ r.Governs key id p := by
  constructor
  · rintro ⟨hc, hall⟩
    exact ⟨h.covers_parent hs hp hc hne, fun third ht => hall third (h.covers_of_parent hs hp ht)⟩
  · rintro ⟨hc, hall⟩
    refine ⟨h.covers_of_parent hs hp hc, fun third ht hh => ?_⟩
    exact hall third (h.covers_parent_of_holds hs hp hv ht hh) hh

lemma inherited_keep (hlt : id < r.slots.length) (key : String) (value : Json) (force : Bool) (other : Nat)
    (k : String) :
    (k = key ∧ (force = true ∨ r.held? id key = none) ∧ r.Governs key id other →
      (r.keep id key value force).inherited other k = some value) ∧
    (¬(k = key ∧ (force = true ∨ r.held? id key = none) ∧ r.Governs key id other) →
      (r.keep id key value force).inherited other k = r.inherited other k) := by
  have h' : (r.keep id key value force).Nests := h.of_way (keep_way r id key value force)
  induction other using Nat.strongRecOn with
  | ind other ih =>
    cases hs' : (r.keep id key value force).slots[other]? with
    | none =>
      have hs : r.slots[other]? = none := by
        rw [List.getElem?_eq_none_iff] at hs' ⊢
        simpa [keep, modifySlot] using hs'
      refine ⟨fun hg => ?_, fun _ => by rw [inherited_unknown hs', inherited_unknown hs]⟩
      obtain ⟨slot, hslot⟩ := hg.2.2.1.known
      cases hslot.symm.trans hs
    | some slot' =>
      obtain ⟨slot, hs, _, hparent⟩ := slot_way (keep_way r id key value force) hs'
      rw [h'.inherited_eq hs', h.inherited_eq hs, held?_keep hlt, ← hparent]
      by_cases hset : other = id ∧ k = key ∧ (force = true ∨ r.held? id key = none)
      · rw [if_pos hset]
        obtain ⟨rfl, hkey, hput⟩ := hset
        exact ⟨fun _ => rfl, fun hn => absurd ⟨hkey, hput, governs_self hs key⟩ hn⟩
      · rw [if_neg hset]
        cases hv : r.held? other k with
        | some v =>
          refine ⟨?_, fun _ => rfl⟩
          rintro ⟨rfl, hput, hg⟩
          exact absurd ⟨h.eq_of_governs hs hg (Option.isSome_of_eq_some hv), rfl, hput⟩ hset
        | none =>
          -- the slot itself shows nothing, so it sees what its parent sees
          cases hp : slot.parent with
          | none =>
            refine ⟨?_, fun _ => rfl⟩
            rintro ⟨hk, hput, hg⟩
            exact absurd ⟨(h.covers_top hs hp hg.1).symm, hk, hput⟩ hset
          | some p =>
            have hiff : k = key → (force = true ∨ r.held? id key = none) →
                (r.Governs key id other ↔ r.Governs key id p) := by
              rintro rfl hput
              exact h.governs_parent hs hp (fun he => hset ⟨he.symm, rfl, hput⟩) hv
            obtain ⟨hgiven, hkept⟩ := ih p (h.parent_covers hs hp).1
            constructor
            · rintro ⟨hk, hput, hg⟩
              exact hgiven ⟨hk, hput, (hiff hk hput).mp hg⟩
            · intro hn
              apply hkept
              rintro ⟨hk, hput, hg⟩
              exact hn ⟨hk, hput, (hiff hk hput).mpr hg⟩

end Nests

end Keep

end Run

end Bemjson
