import Bemjson.Proofs.Slots

namespace Bemjson.State

section Verdicts

variable (env : Setting) (nested : Nested) (deep : Bool)

/-- In the step from `s` to `t` the rules are tried on the entity of a slot, and leave `n` in its place. -/
def Verdict (s : State) (id : Nat) (fate : Fate) (n : Node) (t : State) : Prop :=
  s.Next env nested deep t ∧ ∃ queue slot e f, s.queue = id :: queue ∧ s.run.slots[id]? = some slot ∧
    Judged env nested (s.pop id queue) id slot fate e f ∧ f.node = n

def Past (id : Nat) : State → State → Prop :=
  Relation.ReflTransGen fun s t => s.Next env nested deep t ∧ s.queue.head? ≠ some id

def LastVerdict (first : State) (id : Nat) (fate : Fate) (n : Node) (s : State) : Prop :=
  ∃ a b, first.Reaches env nested deep a ∧ a.Verdict env nested deep id fate n b ∧ Past env nested deep id b s

variable {env nested deep} {first s t u : State} {id : Nat}

lemma LastVerdict.tail {fate : Fate} {n : Node} (h : LastVerdict env nested deep first id fate n s)
    (hs : s.Next env nested deep t) (hid : s.queue.head? ≠ some id) : LastVerdict env nested deep first id fate n t := by
  obtain ⟨a, b, hr, hv, hp⟩ := h
  exact ⟨a, b, hr, hv, hp.tail ⟨hs, hid⟩⟩

lemma LastVerdict.of_judged {fate : Fate} {queue : List Nat} {slot : Slot} {e : Entity} {f : Focus}
    (hr : first.Reaches env nested deep s) (hs : s.Next env nested deep t) (hq : s.queue = id :: queue)
    (hslot : s.run.slots[id]? = some slot) (hj : Judged env nested (s.pop id queue) id slot fate e f) :
    LastVerdict env nested deep first id fate f.node t :=
  ⟨s, t, hr, ⟨hs, queue, slot, e, f, hq, hslot, hj, rfl⟩, .refl⟩

end Verdicts

section Waiting

variable {env : Setting} {nested : Nested} {deep : Bool} {s t u : State} {id : Nat}

lemma Turn.waiting (hn : nested.Within Focus.Onward) {slot : Slot} (h : Turn env nested deep s id slot u)
    (hp : u.path? id = some slot.path) {other : Nat} (ho : other ∈ u.queue) :
    other ∈ s.queue ∨ (∃ e, u.designated other = some (.entity e)) ∨
      ∃ e f, other = id ∧ Judged env nested s id slot .replaced e f ∧ u.designated id = some f.node := by
  cases h.effect hn with
  | still r root _ _ _ => exact Or.inl ho
  | grown r m n kids _ hm hk _ =>
    rcases mem_push_queue.mp ho with ho | ⟨j, hj, rfl⟩
    · exact Or.inl ho
    · rw [List.length_map] at hj
      exact Or.inr (Or.inl (designated_kid (s := { s with run := r }) hk hm hj))
  | requeued r e f _ hj =>
    rcases List.mem_append.mp ho with ho | ho
    · exact Or.inl ho
    · refine Or.inr (Or.inr ⟨e, f, List.mem_singleton.mp ho, hj, ?_⟩)
      rw [designated_of_path? hp]
      exact (Node.at?_setAt s.root f.node slot.path).trans (by rw [hj.entity, Option.map_some])

/-- What stands at a slot that waits is an entity, or was last put there by a rule. Only an expansion that has not
begun can have something else to start from. -/
def Accounted (env : Setting) (nested : Nested) (deep : Bool) (first s : State) : Prop :=
  ∀ id ∈ s.queue, ∃ n, s.designated id = some n ∧
    ((∃ e, n = .entity e) ∨ LastVerdict env nested deep first id .replaced n s ∨ s = first)

lemma Next.spares (hn : nested.Within Focus.Onward) (ht : s.Tidy) (h : s.Next env nested deep t) :
    ∀ id ∈ s.queue, s.queue.head? ≠ some id → t.path? id = s.path? id ∧ t.designated id = s.designated id := by
  obtain ⟨id, queue, slot, u, _, hq, _, hpop, hh, hturn, rfl⟩ := Next.turn hn ht h
  intro other ho hne
  rw [hq] at ho
  rcases List.mem_cons.mp ho with rfl | ho
  · exact absurd (by rw [hq, List.head?_cons]) hne
  · exact (Turn.tidy hn hpop hh hturn).2 other ho

lemma Accounted.next {first : State} (hn : nested.Within Focus.Onward) (hf : first.queue.length ≤ 1) (ht : s.Tidy)
    (hr : first.Reaches env nested deep s) (ha : Accounted env nested deep first s) (h : s.Next env nested deep t) :
    Accounted env nested deep first t := by
  obtain ⟨id, queue, slot, u, _, hq, hslot, hpop, hh, hturn, rfl⟩ := Next.turn hn ht h
  have hup : u.path? id = some slot.path := hturn.path?_old hn hh.path
  intro other ho
  rcases hturn.waiting hn hup ho with ho | ⟨e, he⟩ | ⟨e, f, rfl, hj, hd⟩
  · have hos : other ∈ s.queue := by
      rw [hq]
      exact List.mem_cons_of_mem id ho
    have hne : s.queue.head? ≠ some other := by
      rw [hq, List.head?_cons]
      intro heq
      obtain rfl := Option.some.inj heq
      exact hh.absent ho
    obtain ⟨m, hd, hcase⟩ := ha other hos
    refine ⟨m, ((Next.spares hn ht h other hos hne).2).trans hd, ?_⟩
    rcases hcase with hs | hl | rfl
    · exact Or.inl hs
    · exact Or.inr (Or.inl (hl.tail h hne))
    · -- At the start nothing but the root waits.
      have ho' : other ∈ queue := ho
      rw [hq, List.length_cons] at hf
      rw [List.length_eq_zero_iff.mp (Nat.le_zero.mp (Nat.le_of_succ_le_succ hf))] at ho'
      cases ho'
  · exact ⟨.entity e, he, Or.inl ⟨e, rfl⟩⟩
  · exact ⟨f.node, hd, Or.inr (Or.inl (LastVerdict.of_judged hr h hq hslot hj))⟩

lemma Accounted.start (env : Setting) (nested : Nested) (deep : Bool) (tree : Node) (block : Option String)
    (visits : Nat) (journal : Journal) :
    Accounted env nested deep (.start env tree block visits journal) (.start env tree block visits journal) := by
  intro id hid
  obtain rfl := mem_queue_start hid
  exact ⟨tree, rfl, Or.inr (Or.inr rfl)⟩

lemma Accounted.reaches {first : State} (hn : nested.Within Focus.Onward) (hf : first.queue.length ≤ 1)
    (ht : first.Tidy) (ha : Accounted env nested deep first first) (h : first.Reaches env nested deep s) :
    Accounted env nested deep first s := by
  induction h with
  | refl => exact ha
  | tail hr hs ih => exact ih.next hn hf (ht.reaches hn hr) hr hs

/-- All slots stand at places of their own, no two of those that wait below one another, and what stands at a slot
that waits is there and stays there until the slot is taken. -/
theorem waiting_slots {fuel : Nat} {tree : Node} {block : Option String} {visits : Nat} {journal : Journal}
    (h : (State.start env tree block visits journal).Reaches env (.ofFuel env fuel) deep s) :
    (∀ i j p, s.path? i = some p → s.path? j = some p → i = j) ∧ s.queue.Nodup ∧
      (∀ i ∈ s.queue, ∀ j ∈ s.queue, ∀ p q, s.path? i = some p → s.path? j = some q → p <+: q → i = j) ∧
      (∀ id ∈ s.queue, ∃ n, s.designated id = some n ∧
        ((∃ e, n = .entity e) ∨
          LastVerdict env (.ofFuel env fuel) deep (.start env tree block visits journal) id .replaced n s ∨
          s = .start env tree block visits journal ∧ n = tree)) ∧
      ∀ t, s.Next env (.ofFuel env fuel) deep t → ∀ id ∈ s.queue, s.queue.head? ≠ some id →
        t.path? id = s.path? id ∧ t.designated id = s.designated id := by
  have hn := ofFuel_within env fuel
  have hstart := Tidy.start env tree block visits journal
  have ht := hstart.reaches hn h
  have hf : (State.start env tree block visits journal).queue.length ≤ 1 := Nat.le_refl 1
  have ha := Accounted.reaches hn hf hstart (Accounted.start env _ deep tree block visits journal) h
  refine ⟨ht.paths, ht.queue, ?_, ?_, fun t hs => Next.spares hn ht hs⟩
  · intro i hi j _ p q hp hq hpq
    exact (ht.lowest i hi j p q hp hq hpq).symm
  · intro id hid
    obtain ⟨n, hd, hcase⟩ := ha id hid
    refine ⟨n, hd, hcase.imp_right (Or.imp_right ?_)⟩
    rintro rfl
    obtain rfl := mem_queue_start hid
    exact ⟨rfl, (Option.some.inj hd).symm⟩

theorem waiting_slots_of_two : ∃ s : State,
    (State.start {} (.list [.entity { block := some "a" }, .entity { block := some "b" }]) none 0 {}).Reaches {}
      (.ofFuel {} 0) true s ∧ s.queue = [1, 2] ∧ s.queue.Nodup ∧ s.path? 1 ≠ s.path? 2 := by
  obtain ⟨s, hs, hq, hp⟩ : ∃ s : State,
      (State.start {} (.list [.entity { block := some "a" }, .entity { block := some "b" }]) none 0 {}).Reaches {}
        (.ofFuel {} 0) true s ∧ s.queue = [1, 2] ∧ s.path? 1 = some [.item 0] :=
    ⟨_, .single ⟨rfl, 0, [], _, rfl, rfl, rfl⟩, rfl, rfl⟩
  refine ⟨s, hs, hq, (waiting_slots hs).2.1, ?_⟩
  intro h
  have hij := (waiting_slots hs).1 1 2 [.item 0] hp (h ▸ hp)
  exact absurd hij (by decide)

end Waiting

end Bemjson.State
