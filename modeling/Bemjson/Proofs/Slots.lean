import Bemjson.Proofs.Runs
import Mathlib.Data.List.Nodup
import Mathlib.Tactic.ByContra

namespace Bemjson

def Slot.way (s : Slot) : Path × Option Nat := (s.path, s.parent)

namespace State

def path? (s : State) (id : Nat) : Option Path := s.run.slots[id]?.map Slot.path

def designated (s : State) (id : Nat) : Option Node := (s.path? id).bind s.root.at?

/-- No two slots stand at one place, and nothing has a slot below one that waits. -/
structure Tidy (s : State) : Prop where
  paths : ∀ i j p, s.path? i = some p → s.path? j = some p → i = j
  queue : s.queue.Nodup
  known : ∀ id ∈ s.queue, ∃ p n, s.path? id = some p ∧ s.root.at? p = some n
  lowest : ∀ id ∈ s.queue, ∀ other p q, s.path? id = some p → s.path? other = some q → p <+: q → other = id
  parents : ∀ (id : Nat) slot p, s.run.slots[id]? = some slot → slot.parent = some p →
    p < id ∧ ∃ q, s.path? p = some q ∧ q <+: slot.path

structure Held (s : State) (id : Nat) (p : Path) : Prop where
  path : s.path? id = some p
  absent : id ∉ s.queue
  lowest : ∀ other q, s.path? other = some q → p <+: q → other = id

lemma lt_of_path? {s : State} {id : Nat} {p : Path} (h : s.path? id = some p) : id < s.run.slots.length := by
  obtain ⟨slot, hs, _⟩ := Option.map_eq_some_iff.mp h
  exact (List.getElem?_eq_some_iff.mp hs).1

lemma designated_of_path? {s : State} {id : Nat} {p : Path} (hp : s.path? id = some p) :
    s.designated id = s.root.at? p := by
  rw [designated, hp, Option.bind_some]

lemma Tidy.lt {s : State} (ht : s.Tidy) {id : Nat} (h : id ∈ s.queue) : id < s.run.slots.length := by
  obtain ⟨p, _, hp, _⟩ := ht.known id h
  exact lt_of_path? hp

lemma Tidy.apart {s : State} (ht : s.Tidy) {id other : Nat} {p q : Path} (hh : s.Held id p) (ho : other ∈ s.queue)
    (hq : s.path? other = some q) : p.Apart q := by
  have hne : other ≠ id := fun he => hh.absent (he ▸ ho)
  constructor
  · intro hpq
    exact hne (hh.lowest other q hq hpq)
  · intro hqp
    exact hne (ht.lowest other ho id q p hq hh.path hqp).symm

lemma Tidy.pop {s : State} (ht : s.Tidy) {id : Nat} {queue : List Nat} (hq : s.queue = id :: queue) :
    (s.pop id queue).Tidy ∧ ∃ p, (s.pop id queue).Held id p := by
  have hmem : ∀ j ∈ queue, j ∈ s.queue := fun j hj => by
    rw [hq]
    exact List.mem_cons_of_mem id hj
  have hid : id ∈ s.queue := by simp [hq]
  have hn := ht.queue
  rw [hq, List.nodup_cons] at hn
  obtain ⟨p, _, hp, _⟩ := ht.known id hid
  refine ⟨⟨ht.paths, hn.2, fun j hj => ht.known j (hmem j hj), fun j hj => ht.lowest j (hmem j hj), ht.parents⟩,
    p, hp, hn.1, fun other q => ht.lowest id hid other p q hp⟩

section Run

variable {s : State} {r : Run}

lemma path?_run (hw : r.slots.map Slot.way = s.run.slots.map Slot.way) (id : Nat) : path? { s with run := r } id = s.path? id := by
  have h := congrArg (fun l : List (Path × Option Nat) => l[id]?.map Prod.fst) hw
  simp only [List.getElem?_map, Option.map_map] at h
  exact h

lemma Tidy.run (ht : s.Tidy) (hw : r.slots.map Slot.way = s.run.slots.map Slot.way) : Tidy { s with run := r } where
  paths i j p hi hj := ht.paths i j p ((path?_run hw i).symm.trans hi) ((path?_run hw j).symm.trans hj)
  queue := ht.queue
  known id h := by
    rw [path?_run hw id]
    exact ht.known id h
  lowest id h other p q hp hq := ht.lowest id h other p q ((path?_run hw id).symm.trans hp) ((path?_run hw other).symm.trans hq)
  parents id slot p hs hp := by
    have h := congrArg (fun l : List (Path × Option Nat) => l[id]?) hw
    have hs' : r.slots[id]? = some slot := hs
    simp only [List.getElem?_map, hs'] at h
    obtain ⟨slot', hs'', he⟩ := Option.map_eq_some_iff.mp h.symm
    have hpath : slot'.path = slot.path := congrArg Prod.fst he
    obtain ⟨hlt, q, hq, hpre⟩ := ht.parents id slot' p hs'' ((congrArg Prod.snd he).trans hp)
    exact ⟨hlt, q, (path?_run hw p).trans hq, hpath ▸ hpre⟩

lemma Held.run {id : Nat} {p : Path} (hh : s.Held id p) (hw : r.slots.map Slot.way = s.run.slots.map Slot.way) :
    Held { s with run := r } id p where
  path := (path?_run hw id).trans hh.path
  absent := hh.absent
  lowest other q hq := hh.lowest other q ((path?_run hw other).symm.trans hq)

end Run

section Root

variable {s : State} {id : Nat} {p : Path}

lemma Tidy.setAt (ht : s.Tidy) (hh : s.Held id p) (n : Node) : Tidy { s with root := s.root.setAt n p } where
  paths := ht.paths
  queue := ht.queue
  known other h := by
    obtain ⟨q, m, hq, hm⟩ := ht.known other h
    exact ⟨q, m, hq, (Node.at?_setAt_of_apart _ _ (ht.apart hh h hq)).trans hm⟩
  lowest := ht.lowest
  parents := ht.parents

lemma Held.setAt (hh : s.Held id p) (n : Node) : Held { s with root := s.root.setAt n p } id p :=
  ⟨hh.path, hh.absent, hh.lowest⟩

lemma Tidy.requeue (ht : s.Tidy) (hh : s.Held id p) {n : Node} (hn : s.root.at? p = some n) :
    Tidy { s with queue := s.queue ++ [id] } where
  paths := ht.paths
  queue := by
    apply List.nodup_append.mpr
    refine ⟨ht.queue, List.nodup_singleton id, ?_⟩
    intro a ha b hb
    obtain rfl := List.mem_singleton.mp hb
    exact fun he => hh.absent (he ▸ ha)
  known other h := by
    rcases List.mem_append.mp h with h | h
    · exact ht.known other h
    · obtain rfl := List.mem_singleton.mp h
      exact ⟨p, n, hh.path, hn⟩
  lowest other h := by
    rcases List.mem_append.mp h with h | h
    · exact ht.lowest other h
    · obtain rfl := List.mem_singleton.mp h
      intro third q r hq hr
      obtain rfl := Option.some.inj (hh.path.symm.trans hq)
      exact hh.lowest third r hr
  parents := ht.parents

end Root

section Push

variable {s : State} {id : Nat} {p : Path} {n : Node} {kids : List Slot}

lemma path?_push_old {j : Nat} (hj : j < s.run.slots.length) (slots : List Slot) : (s.push slots).path? j = s.path? j := by
  simp only [path?, push, List.getElem?_append_left hj]

lemma path?_push_kid (s : State) (id : Nat) (p : Path) (kids : List Slot) (j : Nat) :
    (s.push (kids.map (Slot.under id p))).path? (s.run.slots.length + j) = kids[j]?.map fun k => p ++ k.path := by
  simp only [path?, push, List.getElem?_append_right (Nat.le_add_right _ j), Nat.add_sub_cancel_left,
    List.getElem?_map, Option.map_map]
  rfl

lemma path?_push_cases {j : Nat} {q : Path} (h : (s.push (kids.map (Slot.under id p))).path? j = some q) :
    (j < s.run.slots.length ∧ s.path? j = some q) ∨
      ∃ i k, j = s.run.slots.length + i ∧ kids[i]? = some k ∧ q = p ++ k.path := by
  by_cases hj : j < s.run.slots.length
  · exact Or.inl ⟨hj, (path?_push_old hj _).symm.trans h⟩
  · obtain ⟨i, rfl⟩ : ∃ i, j = s.run.slots.length + i := ⟨j - s.run.slots.length, by omega⟩
    rw [path?_push_kid] at h
    obtain ⟨k, hk, rfl⟩ := Option.map_eq_some_iff.mp h
    exact Or.inr ⟨i, k, rfl, hk, rfl⟩

lemma mem_push_queue {j : Nat} {slots : List Slot} :
    j ∈ (s.push slots).queue ↔ j ∈ s.queue ∨ ∃ i, i < slots.length ∧ j = s.run.slots.length + i := by
  simp only [push, List.mem_append, List.mem_range']
  constructor
  · rintro (h | ⟨i, hi, rfl⟩)
    · exact Or.inl h
    · exact Or.inr ⟨i, hi, by omega⟩
  · rintro (h | ⟨i, hi, rfl⟩)
    · exact Or.inl h
    · exact Or.inr ⟨i, hi, by omega⟩

lemma kid_unique {deep : Bool} (hk : Sprouts deep n kids) {i j : Nat} {a b : Slot} (ha : kids[i]? = some a)
    (hb : kids[j]? = some b) (h : a.path <+: b.path) : i = j := by
  by_contra hne
  have hp := List.pairwise_iff_getElem.mp hk.apart
  obtain ⟨hi, rfl⟩ := List.getElem?_eq_some_iff.mp ha
  obtain ⟨hj, rfl⟩ := List.getElem?_eq_some_iff.mp hb
  rcases Nat.lt_or_gt_of_ne hne with hlt | hlt
  · have := hp i j (by simpa using hi) (by simpa using hj) hlt
    exact this.1 (by simpa using h)
  · have := hp j i (by simpa using hj) (by simpa using hi) hlt
    exact this.2 (by simpa using h)

lemma Held.not_below_kid {deep : Bool} (hh : s.Held id p) (hk : Sprouts deep n kids) {k : Slot} (hkm : k ∈ kids)
    {j : Nat} {q : Path} (hj : s.path? j = some q) : ¬p ++ k.path <+: q := by
  intro hpre
  obtain rfl := hh.lowest j q hj ((List.prefix_append p k.path).trans hpre)
  obtain rfl := Option.some.inj (hh.path.symm.trans hj)
  have hnil := List.prefix_append_right_inj p |>.mp (by simpa using hpre : p ++ k.path <+: p ++ [])
  exact hk.below k hkm (List.prefix_nil.mp hnil)

lemma Tidy.push {deep : Bool} (ht : s.Tidy) (hh : s.Held id p) (hn : s.root.at? p = some n) (hk : Sprouts deep n kids) :
    (s.push (kids.map (Slot.under id p))).Tidy where
  paths i j q hi hj := by
    rcases path?_push_cases hi with ⟨_, hi'⟩ | ⟨a, ka, rfl, hka, rfl⟩
    · rcases path?_push_cases hj with ⟨_, hj'⟩ | ⟨b, kb, rfl, hkb, rfl⟩
      · exact ht.paths i j q hi' hj'
      · exact absurd (List.prefix_refl _) (hh.not_below_kid hk (List.mem_of_getElem? hkb) hi')
    · rcases path?_push_cases hj with ⟨_, hj'⟩ | ⟨b, kb, rfl, hkb, he⟩
      · exact absurd (List.prefix_refl _) (hh.not_below_kid hk (List.mem_of_getElem? hka) hj')
      · have hab := List.append_cancel_left he
        rw [kid_unique hk hka hkb (hab ▸ List.prefix_refl _)]
  queue := by
    apply List.nodup_append.mpr
    refine ⟨ht.queue, List.nodup_range', ?_⟩
    intro a ha b hb
    have hlt := ht.lt ha
    have hge := (List.mem_range'_1.mp hb).1
    omega
  known j hj := by
    rcases mem_push_queue.mp hj with hj | ⟨i, hi, rfl⟩
    · obtain ⟨q, m, hq, hm⟩ := ht.known j hj
      exact ⟨q, m, (path?_push_old (lt_of_path? hq) _).trans hq, hm⟩
    · rw [List.length_map] at hi
      obtain ⟨e, he⟩ := hk.found kids[i] (List.getElem_mem hi)
      refine ⟨p ++ kids[i].path, .entity e, ?_, ?_⟩
      · rw [path?_push_kid, List.getElem?_eq_getElem hi]
        rfl
      · change s.root.at? (p ++ kids[i].path) = _
        rw [Node.at?_append, hn]
        exact he
  lowest j hj other q r hq hr hqr := by
    rcases path?_push_cases hq with ⟨hjl, hq⟩ | ⟨a, ka, rfl, hka, rfl⟩
    · have hjq : j ∈ s.queue := by
        rcases mem_push_queue.mp hj with hj | ⟨i, _, rfl⟩
        · exact hj
        · omega
      rcases path?_push_cases hr with ⟨_, hr⟩ | ⟨b, kb, rfl, _, rfl⟩
      · exact ht.lowest j hjq other q r hq hr hqr
      · exact absurd hqr ((ht.apart hh hjq hq).append_left kb.path).2
    · rcases path?_push_cases hr with ⟨_, hr'⟩ | ⟨b, kb, rfl, hkb, rfl⟩
      · exact absurd hqr (hh.not_below_kid hk (List.mem_of_getElem? hka) hr')
      · rw [kid_unique hk hka hkb ((List.prefix_append_right_inj p).mp hqr)]
  parents j slot q hs hq := by
    by_cases hj : j < s.run.slots.length
    · rw [State.push, List.getElem?_append_left hj] at hs
      obtain ⟨hlt, r, hr, hpre⟩ := ht.parents j slot q hs hq
      exact ⟨hlt, r, (path?_push_old (lt_of_path? hr) _).trans hr, hpre⟩
    · rw [State.push, List.getElem?_append_right (by omega), List.getElem?_map] at hs
      obtain ⟨k, _, rfl⟩ := Option.map_eq_some_iff.mp hs
      cases hq
      have hlt := lt_of_path? hh.path
      exact ⟨by omega, p, (path?_push_old hlt _).trans hh.path, List.prefix_append p k.path⟩

lemma designated_grow {m : Node} (n : Node) (hm : s.root.at? p = some m) {j : Nat} (hj : j < kids.length) :
    (s.grow id p (n, kids)).designated (s.run.slots.length + j) = n.at? kids[j].path := by
  have hp : (s.grow id p (n, kids)).path? (s.run.slots.length + j) = some (p ++ kids[j].path) := by
    refine (path?_push_kid { s with root := s.root.setAt n p } id p kids j).trans ?_
    rw [List.getElem?_eq_getElem hj, Option.map_some]
  rw [designated_of_path? hp]
  refine (Node.at?_setAt_append s.root n p kids[j].path).trans ?_
  rw [hm, Option.bind_some]

lemma designated_kid {m : Node} {deep : Bool} (hk : Sprouts deep n kids) (hm : s.root.at? p = some m)
    {j : Nat} (hj : j < kids.length) : ∃ e, (s.grow id p (n, kids)).designated (s.run.slots.length + j) = some (.entity e) := by
  obtain ⟨e, he⟩ := hk.found kids[j] (List.getElem_mem hj)
  exact ⟨e, (designated_grow n hm hj).trans he⟩

end Push

def Spares (s u : State) : Prop :=
  ∀ other ∈ s.queue, u.path? other = s.path? other ∧ u.designated other = s.designated other

lemma Spares.of_path? {s u : State} (hp : ∀ other ∈ s.queue, u.path? other = s.path? other)
    (hn : ∀ other ∈ s.queue, ∀ q, s.path? other = some q → u.root.at? q = s.root.at? q) : s.Spares u := by
  intro other ho
  refine ⟨hp other ho, ?_⟩
  rw [designated, designated, hp other ho]
  cases hq : s.path? other with
  | none => rfl
  | some q => exact hn other ho q hq

section Turn

variable {env : Setting} {nested : Nested} {deep : Bool} {s u : State} {id : Nat}

lemma map_modify_of_eq {α : Type} (view : Slot → α) (slots : List Slot) (id : Nat) (f : Slot → Slot)
    (hf : ∀ slot, view (f slot) = view slot) : (slots.modify id f).map view = slots.map view := by
  apply List.ext_getElem?
  intro j
  simp only [List.getElem?_map, List.getElem?_modify]
  by_cases hj : id = j
  · simp only [hj, if_true]
    cases slots[j]? <;> simp [hf]
  · simp [hj]

def Touched (s : State) (id : Nat) (r : Run) : Prop :=
  ∃ f : Slot → Slot, (∀ slot, (f slot).way = slot.way) ∧ r.slots = s.run.slots.modify id f

namespace Touched

variable {r : Run}

lemma refl (s : State) (id : Nat) : s.Touched id s.run :=
  ⟨fun slot => slot, fun _ => rfl, (List.modify_id id s.run.slots).symm⟩

lemma way (h : s.Touched id r) : r.slots.map Slot.way = s.run.slots.map Slot.way := by
  obtain ⟨f, hf, hr⟩ := h
  rw [hr]
  exact map_modify_of_eq Slot.way _ id f hf

lemma other (h : s.Touched id r) {j : Nat} (hne : id ≠ j) : r.slots[j]? = s.run.slots[j]? := by
  obtain ⟨f, _, hr⟩ := h
  rw [hr]
  exact List.getElem?_modify_ne _ _ hne

lemma length (h : s.Touched id r) : r.slots.length = s.run.slots.length := by
  obtain ⟨f, _, hr⟩ := h
  rw [hr, List.length_modify]

lemma countReplacement (h : s.Touched id r) (around : Ambient) : s.Touched id (r.countReplacement id around) := by
  obtain ⟨f, hf, hr⟩ := h
  refine ⟨fun slot => { f slot with around }, hf, ?_⟩
  change r.slots.modify id _ = _
  rw [hr]
  exact List.modify_modify_eq f _ id s.run.slots

end Touched

lemma judge_slots (hn : nested.Within Focus.Onward) {slot : Slot} {e : Entity} {fate : Fate} {f : Focus}
    (h : judge env nested (s.look id slot e) = some (fate, f)) :
    f.slot = id ∧ ∃ kept, f.run.slots = s.run.slots.modify id fun slot => { slot with kept, visits := slot.visits + 1 } := by
  have hon := judge_onward hn h
  obtain ⟨kept, hk⟩ := hon.slots
  refine ⟨hon.slot, kept, hk.trans ?_⟩
  exact List.modify_modify_eq (fun slot : Slot => { slot with visits := slot.visits + 1 }) (fun slot => { slot with kept }) id _

lemma judge_touched (hn : nested.Within Focus.Onward) {slot : Slot} {e : Entity} {fate : Fate} {f : Focus}
    (h : judge env nested (s.look id slot e) = some (fate, f)) : s.Touched id f.run := by
  obtain ⟨_, kept, hk⟩ := judge_slots hn h
  exact ⟨fun slot => { slot with kept, visits := slot.visits + 1 }, fun _ => rfl, hk⟩

/-- What a turn does to the slots: none is new, or those that sprout from the node that it leaves are, or its own is
queued again. -/
inductive Effect (env : Setting) (nested : Nested) (deep : Bool) (s : State) (id : Nat) (slot : Slot) : State → Prop
  | still (r : Run) (root : Node) : s.Touched id r → (root = s.root ∨ ∃ n, root = s.root.setAt n slot.path) →
      (r.error.isSome ∨ s.root.at? slot.path = none) → Effect env nested deep s id slot { s with root, run := r }
  | grown (r : Run) (m n : Node) (kids : List Slot) : s.Touched id r → s.root.at? slot.path = some m →
      Sprouts deep n kids →
      (∀ d, n = .entity d → ∃ e c f, Judged env nested s id slot .kept e f ∧ f.node = .entity c ∧ d.shell = c.shell) →
      Effect env nested deep s id slot (grow { s with run := r } id slot.path (n, kids))
  | requeued (r : Run) (e : Entity) (f : Focus) : s.Touched id r → Judged env nested s id slot .replaced e f →
      Effect env nested deep s id slot
        { s with root := s.root.setAt f.node slot.path, queue := s.queue ++ [id], run := r }

lemma Turn.effect (hn : nested.Within Focus.Onward) {slot : Slot} (h : Turn env nested deep s id slot u) :
    Effect env nested deep s id slot u := by
  cases h with
  | missing hp => exact Effect.still s.run s.root (Touched.refl s id) (Or.inl rfl) (Or.inr hp)
  | plain n hp hs =>
    apply Effect.grown s.run n _ _ (Touched.refl s id) hp (sprout_sprouts deep slot.around n)
    intro d hd
    cases n with
    | entity e => cases hs
    | _ => cases hd
  | overrun e err _ _ =>
    have ht : s.Touched id ((s.look id slot e).run.fail err) :=
      ⟨fun slot => { slot with visits := slot.visits + 1 }, fun _ => rfl, rfl⟩
    exact Effect.still _ s.root ht (Or.inl rfl) (Or.inl rfl)
  | failed e fate f err _ _ hj herr =>
    refine Effect.still f.run _ (judge_touched hn hj) (Or.inr ⟨f.node, rfl⟩) (Or.inl ?_)
    rw [herr]
    rfl
  | kept e c f hj hc =>
    have hk := sprout_sprouts deep ((e.adopt slot.around).aroundContent slot.around) (.entity c)
    apply Effect.grown f.run _ _ _ (judge_touched hn hj.judge) hj.entity hk
    intro d hd
    obtain ⟨d', hd', hs⟩ := sprout_entity deep ((e.adopt slot.around).aroundContent slot.around) c
    have hdd : d' = d := Node.entity.inj (hd'.symm.trans hd)
    exact ⟨e, c, f, hj, hc, hdd ▸ hs⟩
  | replaced e f hj => exact Effect.requeued _ e f ((judge_touched hn hj.judge).countReplacement _) hj

lemma Tidy.setAt_spares {p : Path} (ht : s.Tidy) (hh : s.Held id p) (n : Node) :
    s.Spares { s with root := s.root.setAt n p } :=
  Spares.of_path? (fun _ _ => rfl) fun _ ho _ hq => Node.at?_setAt_of_apart _ _ (ht.apart hh ho hq)

lemma Tidy.grow {p : Path} {n : Node} {kids : List Slot} (ht : s.Tidy) (hh : s.Held id p) (hk : Sprouts deep n kids)
    (hp : (s.root.at? p).isSome) : (s.grow id p (n, kids)).Tidy ∧ s.Spares (s.grow id p (n, kids)) := by
  obtain ⟨m, hm⟩ := Option.isSome_iff_exists.mp hp
  have hn : (s.root.setAt n p).at? p = some n := by rw [Node.at?_setAt, hm, Option.map_some]
  refine ⟨(ht.setAt hh n).push (hh.setAt n) hn hk, Spares.of_path? ?_ ?_⟩
  · intro other ho
    exact path?_push_old (ht.lt ho) _
  · intro other ho q hq
    exact Node.at?_setAt_of_apart _ _ (ht.apart hh ho hq)

lemma Spares.run {r : Run} (hw : r.slots.map Slot.way = s.run.slots.map Slot.way) : s.Spares { s with run := r } :=
  Spares.of_path? (fun other _ => path?_run hw other) fun _ _ _ _ => rfl

lemma Spares.trans {t : State} (hst : s.Spares t) (htu : t.Spares u) (hq : ∀ other ∈ s.queue, other ∈ t.queue) :
    s.Spares u := by
  intro other ho
  have hs := hst other ho
  have ht := htu other (hq other ho)
  exact ⟨ht.1.trans hs.1, ht.2.trans hs.2⟩

lemma Turn.path?_old {slot : Slot} (hn : nested.Within Focus.Onward) (h : Turn env nested deep s id slot u) {other : Nat}
    {p : Path} (hp : s.path? other = some p) : u.path? other = some p := by
  cases h.effect hn with
  | still r root ht _ _ => exact (path?_run ht.way other).trans hp
  | grown r m n kids ht _ _ _ =>
    have hr : path? { s with root := s.root.setAt n slot.path, run := r } other = some p := (path?_run ht.way other).trans hp
    exact (path?_push_old (lt_of_path? hr) _).trans hr
  | requeued r e f ht _ => exact (path?_run ht.way other).trans hp

lemma Turn.tidy {slot : Slot} (hn : nested.Within Focus.Onward) (ht : s.Tidy) (hh : s.Held id slot.path)
    (h : Turn env nested deep s id slot u) : u.Tidy ∧ s.Spares u := by
  cases h.effect hn with
  | still r root hr hroot _ =>
    rcases hroot with rfl | ⟨n, rfl⟩
    · exact ⟨ht.run hr.way, Spares.run hr.way⟩
    · have hs := ht.setAt_spares hh n
      exact ⟨(ht.setAt hh n).run hr.way, hs.trans (Spares.run hr.way) fun _ ho => ho⟩
  | grown r m n kids hr hm hk _ =>
    have hg := (ht.run hr.way).grow (hh.run hr.way) hk (by rw [hm]; rfl)
    exact ⟨hg.1, (Spares.run hr.way).trans hg.2 fun _ ho => ho⟩
  | requeued r e f hr hj =>
    have hat : (s.root.setAt f.node slot.path).at? slot.path = some f.node := by
      rw [Node.at?_setAt, hj.entity, Option.map_some]
    have hs : s.Spares { s with root := s.root.setAt f.node slot.path, queue := s.queue ++ [id] } :=
      ht.setAt_spares hh f.node
    refine ⟨((ht.setAt hh f.node).requeue (hh.setAt f.node) hat).run hr.way, ?_⟩
    exact hs.trans (Spares.run hr.way) fun _ ho => List.mem_append_left [id] ho

end Turn

section Step

variable {env : Setting} {nested : Nested} {deep : Bool} {s t : State}

lemma Next.turn (hn : nested.Within Focus.Onward) (ht : s.Tidy) (h : s.Next env nested deep t) :
    ∃ id queue slot u, s.run.error = none ∧ s.queue = id :: queue ∧ s.run.slots[id]? = some slot ∧
      (s.pop id queue).Tidy ∧ (s.pop id queue).Held id slot.path ∧
      Turn env nested deep (s.pop id queue) id slot u ∧ t = u.measured := by
  obtain ⟨he, id, queue, u, hq, hu, rfl⟩ := h
  obtain ⟨hpop, p, hh⟩ := ht.pop hq
  obtain ⟨slot, hs, rfl⟩ := Option.map_eq_some_iff.mp hh.path
  exact ⟨id, queue, slot, u, he, hq, hs, hpop, hh, turn_of_attend hn hs hu, rfl⟩

lemma Tidy.measured (ht : s.Tidy) : s.measured.Tidy := ⟨ht.paths, ht.queue, ht.known, ht.lowest, ht.parents⟩

lemma Tidy.next (hn : nested.Within Focus.Onward) (ht : s.Tidy) (h : s.Next env nested deep t) : t.Tidy := by
  obtain ⟨id, queue, slot, u, _, _, _, hpop, hh, hturn, rfl⟩ := Next.turn hn ht h
  exact (Turn.tidy hn hpop hh hturn).1.measured

section Start

variable {tree : Node} {block : Option String} {visits : Nat} {journal : Journal} {id : Nat}

lemma path?_start {p : Path} (h : (State.start env tree block visits journal).path? id = some p) : id = 0 ∧ p = [] := by
  have hlt := lt_of_path? h
  obtain rfl : id = 0 := by
    simp only [State.start, State.push, List.nil_append, List.length_singleton] at hlt
    omega
  exact ⟨rfl, (Option.some.inj h).symm⟩

lemma mem_queue_start (h : id ∈ (State.start env tree block visits journal).queue) : id = 0 := by
  simpa [State.start, State.push] using h

end Start

lemma Tidy.start (env : Setting) (tree : Node) (block : Option String) (visits : Nat) (journal : Journal) :
    (State.start env tree block visits journal).Tidy where
  paths i j p hi hj := by
    obtain ⟨rfl, _⟩ := path?_start hi
    obtain ⟨rfl, _⟩ := path?_start hj
    rfl
  queue := List.nodup_singleton 0
  known id h := by
    obtain rfl := mem_queue_start h
    exact ⟨[], tree, rfl, rfl⟩
  lowest id _ other p q hp hq _ := by
    obtain ⟨rfl, _⟩ := path?_start hp
    obtain ⟨rfl, _⟩ := path?_start hq
    rfl
  parents id slot p hs hp := by
    cases id with
    | zero =>
      cases hs
      cases hp
    | succ id => cases hs

lemma Tidy.reaches (hn : nested.Within Focus.Onward) (ht : s.Tidy) (h : s.Reaches env nested deep t) : t.Tidy := by
  induction h with
  | refl => exact ht
  | tail _ hs ih => exact ih.next hn hs

end Step

end State

end Bemjson
