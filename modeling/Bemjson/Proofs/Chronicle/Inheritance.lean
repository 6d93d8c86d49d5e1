import Bemjson.Proofs.Chronicle.Counters
import Bemjson.Proofs.Chronicle.Scopes

/-! What a rule keeps at a slot is seen at that slot and at those below it, and stays there whatever becomes of the
node. -/

namespace Bemjson

namespace State

variable {env : Setting} {nested : Nested} {deep : Bool} {s t : State} {id : Nat} {p : Path}

lemma covers_push {other j : Nat} (h : s.run.Covers other j) (slots : List Slot) : (s.push slots).run.Covers other j := by
  obtain ⟨w, q, hw, hq, hpre⟩ := h
  exact ⟨w, q, (path?_push_old (lt_of_path? hw) slots).trans hw, (path?_push_old (lt_of_path? hq) slots).trans hq, hpre⟩

lemma nests_push {n : Node} {kids : List Slot} (hr : s.run.Nests) (hh : s.Held id p) (hk : Sprouts deep n kids)
    (ht : (s.push (kids.map (Slot.under id p))).Tidy) : (s.push (kids.map (Slot.under id p))).run.Nests where
  paths := ht.paths
  parents := ht.parents
  nearest j slot other q hs hq hpre := by
    by_cases hj : j < s.run.slots.length
    · have hold : s.run.slots[j]? = some slot := by
        rwa [push, List.getElem?_append_left hj] at hs
      rcases path?_push_cases hq with ⟨_, hq⟩ | ⟨i, kid, rfl, hkid, rfl⟩
      · rcases hr.nearest j slot other q hold hq hpre with he | ⟨up, hup, hc⟩
        · exact Or.inl he
        · exact Or.inr ⟨up, hup, covers_push hc _⟩
      · have hpath : s.path? j = some slot.path := by rw [path?, hold, Option.map_some]
        exact absurd hpre (hh.not_below_kid hk (List.mem_of_getElem? hkid) hpath)
    · rw [push, List.getElem?_append_right (by omega), List.getElem?_map] at hs
      obtain ⟨kid, hkid, rfl⟩ := Option.map_eq_some_iff.mp hs
      have hself : (s.push (kids.map (Slot.under id p))).path? id = some p :=
        (path?_push_old (lt_of_path? hh.path) _).trans hh.path
      rcases path?_push_cases hq with ⟨_, hold⟩ | ⟨i, other', rfl, ho, rfl⟩
      · -- what stands above a new slot stands above its parent, below which there is nothing else
        have hbelow : q <+: p := by
          rcases List.prefix_or_prefix_of_prefix hpre (List.prefix_append p kid.path) with hup | hdown
          · exact hup
          · obtain rfl := hh.lowest other q hold hdown
            exact Option.some.inj (hh.path.symm.trans hold) ▸ List.prefix_refl p
        exact Or.inr ⟨id, rfl, p, q, hself, hq, hbelow⟩
      · have hsame := kid_unique hk ho hkid ((List.prefix_append_right_inj p).mp hpre)
        exact Or.inl (by omega)

lemma nests_start (env : Setting) (tree : Node) (block : Option String) (visits : Nat) (journal : Journal) :
    (State.start env tree block visits journal).run.Nests where
  paths := (Tidy.start env tree block visits journal).paths
  parents := (Tidy.start env tree block visits journal).parents
  nearest j slot other q hs hq _ := by
    have hj : (State.start env tree block visits journal).path? j = some slot.path := by
      rw [path?, hs, Option.map_some]
    exact Or.inl ((path?_start hq).1.trans (path?_start hj).1.symm)

lemma nests_next (hn : nested.Within Focus.Onward) (ht : s.Tidy) (hr : s.run.Nests) (h : s.Next env nested deep t) :
    t.run.Nests := by
  have hafter := ht.next hn h
  obtain ⟨id, queue, slot, u, _, _, _, hpop, hh, hturn, rfl⟩ := Next.turn hn ht h
  have hpopped : (s.pop id queue).run.Nests := hr.of_way rfl
  cases hturn.effect hn with
  | still r root hw _ _ => exact hpopped.of_way hw.way
  | requeued r e f hw _ => exact hpopped.of_way hw.way
  | grown r m n kids hw _ hk _ =>
    have hrun : r.Nests := hpopped.of_way hw.way
    exact nests_push (s := { s.pop id queue with root := s.root.setAt n slot.path, run := r }) hrun
      ((hh.run hw.way).setAt n) hk ⟨hafter.paths, hafter.queue, hafter.known, hafter.lowest, hafter.parents⟩

lemma nests_reaches (hn : nested.Within Focus.Onward) (ht : s.Tidy) (hr : s.run.Nests)
    (h : s.Reaches env nested deep t) : t.run.Nests := by
  induction h with
  | refl => exact hr
  | tail hb hs ih => exact nests_next hn (ht.reaches hn hb) ih hs

end State

lemma Site.Reached.nests {env : Setting} {deep : Bool} {tree : Node} {block : Option String} {visits : Nat}
    {journal : Journal} {site : Site} (h : site.Reached env deep (.start env tree block visits journal)) :
    site.run.Nests := by
  have hn := unbounded_within env
  have hstart := State.Tidy.start env tree block visits journal
  have hnests := State.nests_start env tree block visits journal
  cases site with
  | between s => exact State.nests_reaches hn hstart hnests h
  | amid s x =>
    obtain ⟨hr, f, acts, hf, hx⟩ := h
    exact (State.nests_reaches hn hstart hnests hr).of_way (hf.does_way hx)

section Memory

def Deed.keep (id : Nat) (m : Assoc Json) : Deed → Assoc Json
  | act slot (.call (.keep key value force)) => if slot = id then m.put force key value else m
  | _ => m

def keptBy (id : Nat) (deeds : List Deed) : Assoc Json := deeds.foldl (Deed.keep id) []

lemma keptBy_append (id : Nat) (deeds later : List Deed) :
    keptBy id (deeds ++ later) = later.foldl (Deed.keep id) (keptBy id deeds) := List.foldl_append

def Run.Remembers (deeds : List Deed) (r : Run) : Prop :=
  ∀ id, (r.slots[id]?.map Slot.kept).getD [] = keptBy id deeds

namespace Run.Remembers

variable {deeds told : List Deed} {r later : Run}

lemma quiet (h : r.Remembers deeds) (hs : later.slots.map Slot.kept = r.slots.map Slot.kept)
    (ht : ∀ id m, told.foldl (Deed.keep id) m = m) : later.Remembers (deeds ++ told) := by
  intro id
  rw [keptBy_append, ht, ← h id, ← List.getElem?_map, ← List.getElem?_map, hs]

lemma keep (h : r.Remembers deeds) {id : Nat} (hlt : id < r.slots.length) (key : String) (value : Json) (force : Bool) :
    (r.keep id key value force).Remembers (deeds ++ [.act id (.call (.keep key value force))]) := by
  intro other
  rw [keptBy_append, ← h other]
  have hget : (r.keep id key value force).slots[other]? =
      r.slots[other]?.map fun slot => if id = other then { slot with kept := slot.kept.put force key value } else slot :=
    List.getElem?_modify _ _ _ _
  rw [hget]
  by_cases ho : id = other
  · subst ho
    simp [Deed.keep, List.getElem?_eq_getElem hlt]
  · simp [Deed.keep, ho]

lemma invariant (env : Setting) : Deed.Invariant env fun _ deeds _ r => r.Remembers deeds where
  start tree block visits journal id := by cases id <;> rfl
  pass n deeds id queue r h _ := h.quiet rfl fun _ _ => rfl
  visit n deeds id queue r h _ := h.quiet (State.map_modify_of_eq Slot.kept _ _ _ fun _ => rfl) fun _ _ => rfl
  refuse n deeds id queue r err h := h.quiet rfl fun _ _ => rfl
  act n deeds id queue r a h hlt _ := by
    cases a with
    | call c =>
      cases c with
      | keep key value force => exact h.keep hlt key value force
      | _ => exact h.quiet rfl fun _ _ => rfl
    | _ => exact h.quiet rfl fun _ _ => rfl
  expand n deeds within queue inside f tree u h _ _ := by
    exact h.quiet (congrArg (List.map Slot.kept) (absorb_counts f u).1) fun _ _ => rfl
  sprout n deeds queue r kids h hk := by
    intro id
    rw [← h id]
    by_cases hlt : id < r.slots.length
    · rw [List.getElem?_append_left hlt]
    · rw [List.getElem?_append_right (by omega), List.getElem?_eq_none (by omega : r.slots.length ≤ id)]
      cases hkid : kids[id - r.slots.length]? with
      | none => rfl
      | some kid => exact (hk kid (List.mem_of_getElem? hkid)).2
  requeue n deeds id queue r around h _ :=
    h.quiet (State.map_modify_of_eq Slot.kept _ _ _ fun _ => rfl) fun _ _ => rfl

lemma held? (h : r.Remembers deeds) (id : Nat) (key : String) : r.held? id key = (keptBy id deeds).get? key := by
  rw [← h id, Run.held?]
  cases r.slots[id]? <;> rfl

end Run.Remembers

lemma exists_get?_put (m : Assoc Json) (key : String) (value : Json) (force : Bool) :
    ∃ v, (m.put force key value).get? key = some v := by
  rw [Assoc.get?_put]
  split
  · exact ⟨value, rfl⟩
  · rename_i hput
    cases hold : m.get? key with
    | some v => exact ⟨v, rfl⟩
    | none => exact absurd ⟨rfl, Or.inr hold⟩ hput

lemma get?_foldl_keep {id : Nat} {key : String} {v : Json} (deeds : List Deed)
    (hd : ∀ w, .act id (.call (.keep key w true)) ∉ deeds) {m : Assoc Json} (hm : m.get? key = some v) :
    (deeds.foldl (Deed.keep id) m).get? key = some v := by
  induction deeds generalizing m with
  | nil => exact hm
  | cons d deeds ih =>
    apply ih fun w hw => hd w (List.mem_cons_of_mem d hw)
    cases d with
    | act slot a =>
      cases a with
      | call c =>
        cases c with
        | keep k w force =>
          simp only [Deed.keep]
          by_cases hslot : slot = id
          · rw [if_pos hslot, Assoc.get?_put, if_neg ?_]
            · exact hm
            · rintro ⟨rfl, hput | hput⟩
              · exact hd w (by simp [hslot, hput])
              · exact absurd (hput.symm.trans hm) (by simp)
          · rw [if_neg hslot]
            exact hm
        | _ => exact hm
      | _ => exact hm
    | _ => exact hm

end Memory

/-- What can be seen of the keys in a run: parents come first, the slots above a slot are those with a place above
its own, and the search from parent to parent comes to the nearest of these that holds the key. -/
structure Run.Scoped (r : Run) : Prop where
  parents : ∀ parent id, r.IsParent parent id → parent < id
  above : ∀ other id, r.Above other id ↔ ∃ p q, r.path? id = some p ∧ r.path? other = some q ∧ q <+: p ∧ q ≠ p
  climbs : ∀ id key, id < r.slots.length → r.Climbs key id (r.inherited id key)
  found : ∀ id key v, id < r.slots.length →
    (r.inherited id key = some v ↔ ∃ other, r.Holder key id other ∧ r.held? other key = some v)
  missed : ∀ id key, id < r.slots.length →
    (r.inherited id key = none ↔ ∀ other, r.Covers other id → r.held? other key = none)
  kept : ∀ id key value force other k, id < r.slots.length →
    (k = key ∧ (force = true ∨ r.held? id key = none) ∧ r.Governs key id other →
      (r.keep id key value force).inherited other k = some value) ∧
    (¬(k = key ∧ (force = true ∨ r.held? id key = none) ∧ r.Governs key id other) →
      (r.keep id key value force).inherited other k = r.inherited other k)

lemma Run.Nests.scoped {r : Run} (h : r.Nests) : r.Scoped where
  parents parent id := fun ⟨_, hs, hp⟩ => (h.parents id _ parent hs hp).1
  above other id := by
    rw [h.above_iff]
    constructor
    · rintro ⟨⟨p, q, hp, hq, hpre⟩, hne⟩
      exact ⟨p, q, hp, hq, hpre, fun he => hne (h.paths other id q hq (he ▸ hp))⟩
    · rintro ⟨p, q, hp, hq, hpre, hne⟩
      refine ⟨⟨p, q, hp, hq, hpre⟩, ?_⟩
      rintro rfl
      exact hne (Option.some.inj (hq.symm.trans hp))
  climbs id key hlt := h.climbs key hlt
  found id key v hlt := h.inherited_eq_some hlt
  missed id key hlt := by
    refine ⟨(h.inherited_holder key hlt).2, fun hall => ?_⟩
    cases hi : r.inherited id key with
    | none => rfl
    | some v =>
      obtain ⟨other, ho, hv⟩ := (h.inherited_eq_some hlt).mp hi
      exact absurd ((hall other ho.covers).symm.trans hv) (by simp)
  kept id key value force other k hlt := h.inherited_keep hlt key value force other k

/-- In each site that an expansion reaches, what is kept for a key is seen from the slot where it is kept and from those
below it, up to the next one that holds the key. It stays there until a rule forces another value upon the key, even
where the node of the slot is replaced in between. -/
theorem inherited_scoped {env : Setting} {deep : Bool} {tree : Node} {block : Option String} {visits : Nat}
    {journal : Journal} {site : Site} (h : site.Reached env deep (.start env tree block visits journal)) :
    site.run.Scoped ∧
      (∃ deeds, (State.start env tree block visits journal).Tells env deep deeds site) ∧
      ∀ deeds, (State.start env tree block visits journal).Tells env deep deeds site →
        (∀ id key, site.run.held? id key = (keptBy id deeds).get? key) ∧
        ∀ earlier later id key value force, deeds = earlier ++ .act id (.call (.keep key value force)) :: later →
          (∀ w, .act id (.call (.keep key w true)) ∉ later) →
          site.run.inherited id key = ((keptBy id earlier).put force key value).get? key ∧
            (force = true ∨ (keptBy id earlier).get? key = none → site.run.inherited id key = some value) := by
  have hnests := h.nests
  refine ⟨hnests.scoped, (State.reached_iff_tells (State.Tidy.start env tree block visits journal)).mp h, ?_⟩
  intro deeds hd
  have hkept : site.run.Remembers deeds :=
    (Run.Remembers.invariant env).tells hd ⟨tree, block, visits, journal, rfl⟩
  refine ⟨hkept.held?, ?_⟩
  rintro earlier later id key value force rfl hlater
  obtain ⟨v, hv⟩ := exists_get?_put (keptBy id earlier) key value force
  have hstays : site.run.held? id key = some v := by
    rw [hkept.held?, keptBy_append, List.foldl_cons]
    simp only [Deed.keep, if_true]
    exact get?_foldl_keep later hlater hv
  have hseen : site.run.inherited id key = some v := by
    cases hs : site.run.slots[id]? with
    | none => simp [Run.held?, hs] at hstays
    | some slot => rw [hnests.inherited_eq hs, hstays, Option.some_or]
  refine ⟨hseen.trans hv.symm, fun hput => ?_⟩
  rw [Assoc.get?_put, if_pos ⟨rfl, hput⟩] at hv
  exact hseen.trans hv.symm

section Kept

def keeping : Engine where
  rules := [onBlock "a" (.call (.keep "k" (.string "v") false) fun _ =>
    .done (some (.entity { block := some "w", content := some (.entity { block := some "b" }) })))]

theorem inherited_scoped_replaced : ∃ s,
    (Site.between s).Reached keeping.setting true (.start keeping.setting (.entity { block := some "a" }) none 0 {}) ∧
    s.run.replacements = 1 ∧ s.run.Climbs "k" 1 (some (.string "v")) ∧
    ∃ other, s.run.Holder "k" 1 other ∧ s.run.held? other "k" = some (.string "v") := by
  obtain ⟨s, hs, hreplaced, hlen, hseen⟩ : ∃ s,
      drain keeping.setting (.ofFuel keeping.setting 9) true 9
        (.start keeping.setting (.entity { block := some "a" }) none 0 {}) = some s ∧
      s.run.replacements = 1 ∧ s.run.slots.length = 2 ∧ s.run.inherited 1 "k" = some (.string "v") :=
    ⟨_, rfl, rfl, rfl, rfl⟩
  have hr : (Site.between s).Reached keeping.setting true
      (.start keeping.setting (.entity { block := some "a" }) none 0 {}) := (State.reached_of_drain hs).1
  have hscoped := (inherited_scoped hr).1
  have hlt : 1 < s.run.slots.length := by omega
  have hclimbs := hscoped.climbs 1 "k" hlt
  rw [show (Site.between s).run = s.run from rfl, hseen] at hclimbs
  exact ⟨s, hr, hreplaced, hclimbs, (hscoped.found 1 "k" _ hlt).mp hseen⟩

end Kept

end Bemjson
