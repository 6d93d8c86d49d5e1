import Bemjson.Proofs.Verdicts

/-! An expansion misses no entity of its result: each has one slot, and the last verdict on it was to keep it. -/

namespace Bemjson.State

variable {env : Setting} {nested : Nested} {deep : Bool} {first s t u : State} {id : Nat}

def Settled (env : Setting) (nested : Nested) (deep : Bool) (first s : State) (id : Nat) (e : Entity) : Prop :=
  ∃ d, LastVerdict env nested deep first id .kept (.entity d) s ∧ e.shell = d.shell

structure Covered (env : Setting) (nested : Nested) (deep : Bool) (first s : State) : Prop where
  entities : s.run.error = none → ∀ p e, s.root.at? p = some (.entity e) → p.Visible deep →
    (∃ id ∈ s.queue, ∃ q, s.path? id = some q ∧ q <+: p) ∨
      ∃ id, id ∉ s.queue ∧ s.path? id = some p ∧ Settled env nested deep first s id e
  visible : ∀ id p, s.path? id = some p → p.Visible deep

lemma Settled.tail {e : Entity} (h : Settled env nested deep first s id e) (hs : s.Next env nested deep t)
    (hid : id ∉ s.queue) : Settled env nested deep first t id e := by
  obtain ⟨d, hd, he⟩ := h
  refine ⟨d, hd.tail hs ?_, he⟩
  intro hq
  exact hid (List.mem_of_mem_head? hq)

lemma Settled.shell {e d : Entity} (h : Settled env nested deep first s id e) (hs : d.shell = e.shell) :
    Settled env nested deep first s id d := by
  obtain ⟨c, hc, he⟩ := h
  exact ⟨c, hc, hs.trans he⟩

lemma Turn.mem_queue (hn : nested.Within Focus.Onward) {slot : Slot} (h : Turn env nested deep s id slot u) {other : Nat}
    (ho : other ∈ s.queue) : other ∈ u.queue := by
  cases h.effect hn with
  | still r root _ _ _ => exact ho
  | grown r m n kids _ _ _ _ => exact mem_push_queue.mpr (Or.inl ho)
  | requeued r e f _ _ => exact List.mem_append_left [id] ho

lemma not_mem_grow {r : Run} (hr : s.Touched id r) (path : Path) (sprout : Node × List Slot) {other : Nat} {p : Path}
    (hp : s.path? other = some p) (ho : other ∉ s.queue) : other ∉ (grow { s with run := r } id path sprout).queue := by
  intro hmem
  have hlt := lt_of_path? hp
  have hlen := hr.length
  rcases mem_push_queue.mp hmem with hmem | ⟨j, _, rfl⟩
  · exact ho hmem
  · change r.slots.length + j < s.run.slots.length at hlt
    omega

lemma Turn.not_mem_queue (hn : nested.Within Focus.Onward) {slot : Slot} (h : Turn env nested deep s id slot u)
    {other : Nat} {p : Path} (hp : s.path? other = some p) (hne : other ≠ id) (ho : other ∉ s.queue) :
    other ∉ u.queue := by
  cases h.effect hn with
  | still r root _ _ _ => exact ho
  | grown r m n kids hr _ _ _ => exact not_mem_grow hr _ _ hp ho
  | requeued r e f _ _ =>
    intro hmem
    rcases List.mem_append.mp hmem with hmem | hmem
    · exact ho hmem
    · exact hne (List.mem_singleton.mp hmem)

lemma Turn.covers (hn : nested.Within Focus.Onward) {slot : Slot} {m : Node} (h : Turn env nested deep s id slot u)
    (hh : s.Held id slot.path) (hm : s.root.at? slot.path = some m) (he : u.run.error = none) {r : Path} {e : Entity}
    (hp : u.root.at? (slot.path ++ r) = some (.entity e)) (hv : r.Visible deep) :
    (∃ other ∈ u.queue, ∃ q, u.path? other = some q ∧ q <+: slot.path ++ r) ∨
      r = [] ∧ id ∉ u.queue ∧
        ∃ d c f, Judged env nested s id slot .kept d f ∧ f.node = .entity c ∧ e.shell = c.shell := by
  cases h.effect hn with
  | still run root _ _ hover =>
    rcases hover with herr | hnone
    · have he : run.error = none := he
      rw [he] at herr
      cases herr
    · cases hm.symm.trans hnone
  | grown run k n kids ht _ hk hkept =>
    have hr : n.at? r = some (.entity e) := by
      have hat := Node.at?_setAt_append s.root n slot.path r
      rw [hm, Option.bind_some] at hat
      exact hat.symm.trans hp
    by_cases hnil : r = []
    · subst hnil
      obtain ⟨d, c, f, hj, hc, hs⟩ := hkept e (Option.some.inj hr)
      exact Or.inr ⟨rfl, not_mem_grow ht _ _ hh.path hh.absent, d, c, f, hj, hc, hs⟩
    · obtain ⟨k, hmem, hpre⟩ := hk.covers r e hr hv hnil
      obtain ⟨j, hj, hget⟩ := List.mem_iff_getElem.mp hmem
      refine Or.inl ⟨run.slots.length + j, ?_, slot.path ++ k.path, ?_, ?_⟩
      · exact mem_push_queue.mpr (Or.inr ⟨j, by simpa using hj, rfl⟩)
      · refine (path?_push_kid { s with root := s.root.setAt n slot.path, run } id slot.path kids j).trans ?_
        rw [List.getElem?_eq_getElem hj, hget, Option.map_some]
      · exact (List.prefix_append_right_inj slot.path).mpr hpre
  | requeued run d f _ _ =>
    refine Or.inl ⟨id, ?_, slot.path, h.path?_old hn hh.path, List.prefix_append _ _⟩
    exact List.mem_append_right s.queue (List.mem_singleton_self id)

lemma Turn.root (hn : nested.Within Focus.Onward) {slot : Slot} {m : Node} (h : Turn env nested deep s id slot u)
    (hm : s.root.at? slot.path = some m) : ∃ n, u.root = s.root.setAt n slot.path := by
  cases h.effect hn with
  | still r root _ hroot _ =>
    rcases hroot with rfl | hroot
    · exact ⟨m, (Node.setAt_self _ _ _ hm).symm⟩
    · exact hroot
  | grown r k n kids _ _ _ _ => exact ⟨n, rfl⟩
  | requeued r e f _ _ => exact ⟨f.node, rfl⟩

lemma Turn.visible (hn : nested.Within Focus.Onward) {slot : Slot} (h : Turn env nested deep s id slot u)
    (hv : ∀ j q, s.path? j = some q → q.Visible deep) (hh : s.Held id slot.path) {j : Nat} {q : Path}
    (hq : u.path? j = some q) : q.Visible deep := by
  cases h.effect hn with
  | still r root hr _ _ => exact hv j q ((path?_run hr.way j).symm.trans hq)
  | grown r m n kids hr _ hk _ =>
    rcases path?_push_cases hq with ⟨_, hq⟩ | ⟨i, k, _, hi, rfl⟩
    · exact hv j q ((path?_run hr.way j).symm.trans hq)
    · exact (hv id _ hh.path).append (hk.visible k (List.mem_of_getElem? hi))
  | requeued r e f hr _ => exact hv j q ((path?_run hr.way j).symm.trans hq)

lemma Covered.next (hn : nested.Within Focus.Onward) (ht : s.Tidy) (hr : first.Reaches env nested deep s)
    (hc : Covered env nested deep first s) (h : s.Next env nested deep t) : Covered env nested deep first t := by
  obtain ⟨id, queue, slot, u, herr, hq, hslot, hpop, hh, hturn, rfl⟩ := Next.turn hn ht h
  have hid : id ∈ s.queue := by simp [hq]
  obtain ⟨_, m, hpath, hm⟩ := ht.known id hid
  obtain rfl := Option.some.inj (hpath.symm.trans hh.path)
  have hkeep : ∀ other ∈ s.queue, other ≠ id → other ∈ u.queue := by
    intro other ho hne
    rw [hq] at ho
    exact hturn.mem_queue hn ((List.mem_cons.mp ho).resolve_left hne)
  -- A settled slot does not wait, so the turn is not its own.
  have hsettle : ∀ other p e, other ∉ s.queue → s.path? other = some p → Settled env nested deep first s other e →
      other ∉ u.queue ∧ u.path? other = some p ∧ Settled env nested deep first u.measured other e := by
    intro other p e ho hp hs
    have hne : other ≠ id := fun heq => ho (heq ▸ hid)
    have hoq : other ∉ queue := fun hmem => ho (by rw [hq]; exact List.mem_cons_of_mem id hmem)
    exact ⟨hturn.not_mem_queue hn hp hne hoq, hturn.path?_old hn hp, hs.tail h ho⟩
  refine ⟨?_, fun j q hj => hturn.visible hn hc.visible hh hj⟩
  intro he p e hp hv
  obtain ⟨n, hroot⟩ := hturn.root hn hm
  have hp : u.root.at? p = some (.entity e) := hp
  by_cases hbelow : slot.path <+: p
  · obtain ⟨r, rfl⟩ := hbelow
    rcases hturn.covers hn hh hm he hp hv.of_append with hcov | ⟨rfl, hout, d, c, f, hj, hf, hs⟩
    · exact Or.inl hcov
    · rw [List.append_nil] at hp ⊢
      have hlast := LastVerdict.of_judged hr h hq hslot hj
      rw [hf] at hlast
      exact Or.inr ⟨id, hout, hturn.path?_old hn hh.path, c, hlast, hs⟩
  · -- What was there before the turn has changed at most in its content.
    obtain ⟨d, hd, hs⟩ : ∃ d, s.root.at? p = some (.entity d) ∧ e.shell = d.shell := by
      rw [hroot] at hp
      by_cases habove : p <+: slot.path
      · obtain ⟨r, hr⟩ := habove
        have hne : r ≠ [] := by
          rintro rfl
          rw [List.append_nil] at hr
          exact hbelow (hr ▸ List.prefix_refl p)
        rw [← hr, Node.at?_setAt_above] at hp
        obtain ⟨k, hk, hset⟩ := Option.map_eq_some_iff.mp hp
        obtain ⟨d, rfl, hs⟩ := Node.entity_of_setAt_entity hne hset
        exact ⟨d, hk, hs⟩
      · exact ⟨e, (Node.at?_setAt_of_apart _ _ ⟨hbelow, habove⟩).symm.trans hp, rfl⟩
    rcases hc.entities herr p d hd hv with ⟨other, ho, q, hoq, hpre⟩ | ⟨other, ho, hoq, hset⟩
    · have hne : other ≠ id := by
        rintro rfl
        exact hbelow (Option.some.inj (hoq.symm.trans hh.path) ▸ hpre)
      exact Or.inl ⟨other, hkeep other ho hne, q, hturn.path?_old hn hoq, hpre⟩
    · obtain ⟨hu, hup, hus⟩ := hsettle other p d ho hoq hset
      exact Or.inr ⟨other, hu, hup, hus.shell hs⟩

lemma Covered.start (env : Setting) (nested : Nested) (deep : Bool) (tree : Node) (block : Option String)
    (visits : Nat) (journal : Journal) :
    Covered env nested deep (.start env tree block visits journal) (.start env tree block visits journal) where
  entities _ p _ _ _ := Or.inl ⟨0, List.mem_singleton_self 0, [], rfl, List.nil_prefix⟩
  visible id p hp := by
    obtain ⟨rfl, rfl⟩ := path?_start hp
    exact Or.inr (by simp)

lemma Covered.reaches (hn : nested.Within Focus.Onward) (ht : first.Tidy) (hc : Covered env nested deep first first)
    (h : first.Reaches env nested deep s) : Covered env nested deep first s := by
  induction h with
  | refl => exact hc
  | tail hr hs ih => exact ih.next hn (ht.reaches hn hr) hr hs

/-- Each entity of a finished tree has one slot, and was kept when that slot was last taken. No slot is below a content
that was to be left alone. -/
theorem expanded_once {fuel steps : Nat} {tree : Node} {block : Option String} {visits : Nat} {journal : Journal}
    (h : drain env (.ofFuel env fuel) deep steps (.start env tree block visits journal) = some s)
    (he : s.run.error = none) :
    (∀ p e, s.root.at? p = some (.entity e) → p.Visible deep →
      ∃ id, s.path? id = some p ∧ (∀ other, s.path? other = some p → other = id) ∧
        ∃ d, LastVerdict env (.ofFuel env fuel) deep (.start env tree block visits journal) id .kept (.entity d) s ∧
          e.shell = d.shell) ∧
      ∀ id p, s.path? id = some p → p.Visible deep := by
  have hn := ofFuel_within env fuel
  have hstart := Tidy.start env tree block visits journal
  obtain ⟨hr, hover⟩ := drain_iff_run.mp ⟨steps, h⟩
  have ht := hstart.reaches hn hr
  have hc := Covered.reaches hn hstart (Covered.start env _ deep tree block visits journal) hr
  have hq : s.queue = [] := hover.resolve_left (by rw [he]; exact Bool.false_ne_true)
  refine ⟨?_, hc.visible⟩
  intro p e hp hv
  rcases hc.entities he p e hp hv with ⟨id, hid, _⟩ | ⟨id, _, hid, hs⟩
  · rw [hq] at hid
    cases hid
  · exact ⟨id, hid, fun other ho => ht.paths other id p ho hid, hs⟩

theorem expanded_once_content : ∃ s : State,
    drain {} (.ofFuel {} 0) true 4
      (.start {} (.list [.entity { block := some "a", content := some (.entity { elem := some "b" }) }]) none 0 {}) = some s ∧
    s.run.error = none ∧ ∃ id, s.path? id = some [.item 0, .content] ∧
      ∀ other, s.path? other = some [.item 0, .content] → other = id := by
  obtain ⟨s, hs, he, e, hp⟩ : ∃ s : State,
      drain {} (.ofFuel {} 0) true 4
        (.start {} (.list [.entity { block := some "a", content := some (.entity { elem := some "b" }) }]) none 0 {}) =
          some s ∧
      s.run.error = none ∧ ∃ e, s.root.at? [.item 0, .content] = some (.entity e) :=
    ⟨_, rfl, rfl, _, rfl⟩
  obtain ⟨id, hid, hone, _⟩ := (expanded_once hs he).1 _ e hp (Or.inl rfl)
  exact ⟨s, hs, he, id, hid, hone⟩

end Bemjson.State
