import Bemjson.Proofs.Frame
import Bemjson.Proofs.Sprout
import Mathlib.Logic.Relation

/-! One slot after the other: what a step of an expansion can do, and runs of such steps. -/

namespace Bemjson

namespace State

def pop (s : State) (id : Nat) (queue : List Nat) : State := { s with queue, run := s.run.note (.popped id) }

def look (s : State) (id : Nat) (slot : Slot) (e : Entity) : Focus :=
  { node := .entity (e.adopt slot.around), slot := id, run := s.run.countVisit id }

def grow (s : State) (id : Nat) (path : Path) (sprout : Node × List Slot) : State :=
  { s with root := s.root.setAt sprout.1 path }.push (sprout.2.map (Slot.under id path))

def measured (s : State) : State := { s with maxQueue := max s.maxQueue s.queue.length }

def Over (s : State) : Prop := s.run.error.isSome ∨ s.queue = []

lemma result_eq_ok {s : State} {n : Node} : s.result = .ok n ↔ s.run.error = none ∧ s.root = n := by
  rw [result]
  cases s.run.error <;> simp

lemma result_eq_error {s : State} {err : LoopError} : s.result = .error err ↔ s.run.error = some err := by
  rw [result]
  cases s.run.error <;> simp

lemma push_nil (s : State) : s.push [] = s := by simp [push]

lemma pushItems_eq_grow (deep : Bool) (s : State) (id : Nat) (path : Path) (around : Ambient) (items : List Node) :
    s.pushItems id path around items = s.grow id path ((Node.list items).sprout deep around) := by
  have hk := itemSlots_under id path [] around (Node.flatten items)
  rw [List.append_nil] at hk
  rw [pushItems, hk]
  rfl

lemma grow_simple (deep : Bool) (s : State) (id : Nat) (path : Path) (around : Ambient) {n : Node}
    (hn : s.root.at? path = some n) (hs : n.isStructured = false) : s.grow id path (n.sprout deep around) = s := by
  have hp : n.sprout deep around = (n, []) := by
    cases n with
    | list items => cases hs
    | entity e => cases hs
    | _ => rfl
  rw [grow, hp, Node.setAt_self _ _ _ hn, List.map_nil, push_nil]

lemma descend_eq_grow (deep : Bool) (s : State) (id : Nat) (path : Path) (around : Ambient) (d : Entity) :
    descend deep id path around (.entity d) { s with root := s.root.setAt (.entity d) path } =
      s.grow id path ((Node.entity d).sprout deep around) := by
  cases deep with
  | false => exact (push_nil _).symm
  | true =>
    simp only [descend, Node.sprout]
    cases hc : d.content with
    | none => exact (push_nil _).symm
    | some c =>
      cases c with
      | list items =>
        simp only [pushContent, pushItems, Node.setAt_setAt_append, grow, itemSlots_under]
        rw [Node.setAt, hc]
        rfl
      | entity c => rfl
      | _ => exact (push_nil _).symm

end State

def judge (env : Setting) (nested : Nested) (f : Focus) : Option (Fate × Focus) :=
  if f.isOpen then tryAll env nested f else some (.kept, f)

structure Judged (env : Setting) (nested : Nested) (s : State) (id : Nat) (slot : Slot) (fate : Fate) (e : Entity)
    (f : Focus) : Prop where
  entity : s.root.at? slot.path = some (.entity e)
  allowed : overrun env (s.look id slot e).run id (e.adopt slot.around) = none
  judge : judge env nested (s.look id slot e) = some (fate, f)
  sound : f.run.error = none

/-- What becomes of a slot that has just left the queue. -/
inductive State.Turn (env : Setting) (nested : Nested) (deep : Bool) (s : State) (id : Nat) (slot : Slot) : State → Prop
  | missing : s.root.at? slot.path = none → Turn env nested deep s id slot s
  | plain (n : Node) : s.root.at? slot.path = some n → n.entity? = none →
      Turn env nested deep s id slot (s.grow id slot.path (n.sprout deep slot.around))
  | overrun (e : Entity) (err : LoopError) : s.root.at? slot.path = some (.entity e) →
      overrun env (s.look id slot e).run id (e.adopt slot.around) = some err →
      Turn env nested deep s id slot { s with run := (s.look id slot e).run.fail err }
  | failed (e : Entity) (fate : Fate) (f : Focus) (err : LoopError) : s.root.at? slot.path = some (.entity e) →
      overrun env (s.look id slot e).run id (e.adopt slot.around) = none →
      judge env nested (s.look id slot e) = some (fate, f) → f.run.error = some err →
      Turn env nested deep s id slot { s with root := s.root.setAt f.node slot.path, run := f.run }
  | kept (e d : Entity) (f : Focus) : Judged env nested s id slot .kept e f → f.node = .entity d →
      Turn env nested deep s id slot (State.grow { s with run := f.run } id slot.path
        ((Node.entity d).sprout deep ((e.adopt slot.around).aroundContent slot.around)))
  | replaced (e : Entity) (f : Focus) : Judged env nested s id slot .replaced e f →
      Turn env nested deep s id slot { s with
        root := s.root.setAt f.node slot.path
        queue := s.queue ++ [id]
        run := f.run.countReplacement id ((e.adopt slot.around).aroundContent slot.around) }

section Inversion

variable {env : Setting} {nested : Nested}

lemma judge_onward (hn : nested.Within Focus.Onward) {f g : Focus} {fate : Fate}
    (h : judge env nested f = some (fate, g)) : f.Onward g := by
  unfold judge at h
  split at h
  · exact tryAll_onward hn h
  · cases h
    exact (Focus.Onward.closed env).refl f

lemma judge_replaced {f g : Focus} {fate : Fate} (hf : f.replaced = false)
    (h : judge env nested f = some (fate, g)) : g.replaced = true ↔ fate = .replaced := by
  unfold judge at h
  split at h
  · exact tryAll_replaced hf h
  · cases h
    simp [hf]

lemma judge_kept_entity (hn : nested.Within Focus.Onward) {s : State} {id : Nat} {slot : Slot} {e : Entity} {f : Focus}
    (h : judge env nested (s.look id slot e) = some (.kept, f)) : ∃ d, f.node = .entity d := by
  have hr : f.replaced = false := by
    have := judge_replaced rfl h
    simpa using this
  have he := (judge_onward hn h).entity hr
  cases hf : f.node with
  | entity d => exact ⟨d, rfl⟩
  | _ => simp [hf, Node.entity?, State.look] at he

lemma judge_look (s : State) (id : Nat) (slot : Slot) (e : Entity) :
    judge env nested (s.look id slot e) =
      if (e.adopt slot.around).stopped then some (.kept, s.look id slot e) else tryAll env nested (s.look id slot e) := by
  cases h : (e.adopt slot.around).stopped <;> simp [judge, State.look, Focus.isOpen, Node.entity?, h]

lemma visit_eq_judge (deep : Bool) (id : Nat) (slot : Slot) (e : Entity) (s : State) :
    visit env nested deep id slot e s =
      match overrun env (s.look id slot e).run id (e.adopt slot.around) with
      | some err => some { s with run := (s.look id slot e).run.fail err }
      | none => (judge env nested (s.look id slot e)).map fun r =>
        settle deep id slot.path ((e.adopt slot.around).aroundContent slot.around) s r.1 r.2 := by
  rw [judge_look]
  simp only [visit]
  split
  · rename_i err h
    simp only [State.look, h]
  · rename_i h
    simp only [State.look, h]
    split <;> rfl

lemma turn_of_visit (hn : nested.Within Focus.Onward) {deep : Bool} {id : Nat} {s u : State} {slot : Slot} {e : Entity}
    (hm : s.root.at? slot.path = some (.entity e)) (h : visit env nested deep id slot e s = some u) :
    State.Turn env nested deep s id slot u := by
  rw [visit_eq_judge] at h
  cases ho : overrun env (s.look id slot e).run id (e.adopt slot.around) with
  | some err =>
    simp only [ho] at h
    cases h
    exact State.Turn.overrun e err hm ho
  | none =>
    simp only [ho] at h
    obtain ⟨⟨fate, f⟩, hj, rfl⟩ := Option.map_eq_some_iff.mp h
    cases he : f.run.error with
    | some err =>
      simp only [settle, he]
      exact State.Turn.failed e fate f err hm ho hj he
    | none =>
      cases fate with
      | kept =>
        obtain ⟨d, hd⟩ := judge_kept_entity hn hj
        simp only [settle, he, hd]
        rw [State.descend_eq_grow deep { s with run := f.run }]
        exact State.Turn.kept e d f ⟨hm, ho, hj, he⟩ hd
      | replaced =>
        simp only [settle, he]
        exact State.Turn.replaced e f ⟨hm, ho, hj, he⟩

lemma turn_of_attend (hn : nested.Within Focus.Onward) {deep : Bool} {id : Nat} {queue : List Nat} {s u : State}
    {slot : Slot} (hs : s.run.slots[id]? = some slot) (h : attend env nested deep id { s with queue } = some u) :
    State.Turn env nested deep (s.pop id queue) id slot u := by
  have hslot : (s.run.note (.popped id)).slots[id]? = some slot := hs
  simp only [attend, hslot] at h
  cases hn' : s.root.at? slot.path with
  | none =>
    simp only [hn'] at h
    cases h
    exact State.Turn.missing hn'
  | some n =>
    cases n with
    | list items =>
      simp only [hn'] at h
      cases h
      rw [State.pushItems_eq_grow deep]
      exact State.Turn.plain _ hn' rfl
    | entity e =>
      simp only [hn'] at h
      exact turn_of_visit (s := s.pop id queue) hn hn' h
    | _ =>
      simp only [hn'] at h
      cases h
      have ht : State.Turn env nested deep (s.pop id queue) id slot ((s.pop id queue).grow id slot.path _) :=
        State.Turn.plain _ hn' rfl
      rwa [State.grow_simple deep (s.pop id queue) id slot.path slot.around hn' rfl] at ht

end Inversion

section Runs

variable (env : Setting) (nested : Nested) (deep : Bool)

def State.Next (s t : State) : Prop :=
  s.run.error = none ∧ ∃ id queue u, s.queue = id :: queue ∧ attend env nested deep id { s with queue } = some u ∧
    t = u.measured

abbrev State.Reaches : State → State → Prop := Relation.ReflTransGen (State.Next env nested deep)

variable {env nested deep}

lemma State.Next.before {s t : State} (hn : nested.Within Focus.Onward) (h : s.Next env nested deep t) :
    s.run.Before t.run := by
  obtain ⟨_, id, queue, u, _, hu, rfl⟩ := h
  have hbefore : ({ s with queue } : State).run.Before u.run := attend_before hn hu
  exact hbefore

lemma drain_over {s : State} (h : s.Over) (steps : Nat) : drain env nested deep (steps + 1) s = some s := by
  rcases h with h | h
  · obtain ⟨err, he⟩ := Option.isSome_iff_exists.mp h
    simp only [drain, he]
  · cases he : s.run.error <;> simp only [drain, he, h]

lemma drain_step {s t : State} (h : s.Next env nested deep t) (steps : Nat) :
    drain env nested deep (steps + 1) s = drain env nested deep steps t := by
  obtain ⟨he, id, queue, u, hq, hu, rfl⟩ := h
  simp only [drain, he, hq, hu, Option.bind_some]
  rfl

lemma exists_step {s : State} {id : Nat} {queue : List Nat} (he : s.run.error = none) (hq : s.queue = id :: queue)
    (hj : ∀ slot e, s.run.slots[id]? = some slot → s.root.at? slot.path = some (.entity e) →
      overrun env ((s.pop id queue).look id slot e).run id (e.adopt slot.around) = none →
      ∃ r, judge env nested ((s.pop id queue).look id slot e) = some r) : ∃ t, s.Next env nested deep t := by
  have hu : ∃ u, attend env nested deep id { s with queue } = some u := by
    simp only [attend]
    split
    · exact ⟨_, rfl⟩
    · rename_i slot hslot
      split
      · exact ⟨_, rfl⟩
      · rename_i e hentity
        change ∃ u, visit env nested deep id slot e (s.pop id queue) = some u
        rw [visit_eq_judge]
        split
        · exact ⟨_, rfl⟩
        · rename_i ho
          obtain ⟨r, hr⟩ := hj slot e hslot hentity ho
          exact ⟨_, by rw [hr, Option.map_some]⟩
      · exact ⟨_, rfl⟩
  obtain ⟨u, hu⟩ := hu
  exact ⟨u.measured, he, id, queue, u, hq, hu, rfl⟩

lemma drain_iff_run {s t : State} :
    (∃ steps, drain env nested deep steps s = some t) ↔ s.Reaches env nested deep t ∧ t.Over := by
  constructor
  · rintro ⟨steps, h⟩
    induction steps generalizing s with
    | zero => cases h
    | succ steps ih =>
      cases he : s.run.error with
      | some err =>
        have ho : s.Over := Or.inl (by rw [he]; rfl)
        rw [drain_over ho] at h
        cases h
        exact ⟨.refl, ho⟩
      | none =>
        cases hq : s.queue with
        | nil =>
          have ho : s.Over := Or.inr hq
          rw [drain_over ho] at h
          cases h
          exact ⟨.refl, ho⟩
        | cons id queue =>
          have hd := h
          simp only [drain, he, hq] at hd
          obtain ⟨u, hu, _⟩ := Option.bind_eq_some_iff.mp hd
          have hs : s.Next env nested deep u.measured := ⟨he, id, queue, u, hq, hu, rfl⟩
          rw [drain_step hs] at h
          obtain ⟨hr, ho⟩ := ih h
          exact ⟨.head hs hr, ho⟩
  · rintro ⟨hr, ho⟩
    induction hr using Relation.ReflTransGen.head_induction_on with
    | refl => exact ⟨1, drain_over ho 0⟩
    | head hs _ ih =>
      obtain ⟨steps, h⟩ := ih
      exact ⟨steps + 1, (drain_step hs steps).trans h⟩

end Runs

end Bemjson
