import Bemjson.Proofs.Chronicle.Deeds
import Bemjson.Proofs.Invariant

/-! What holds of a run, its queue and all that has been done in it, from the start on and through every deed. -/

namespace Bemjson

/-- A property of runs that count their visits from a given number on, with the slots that wait, and the deeds. -/
structure Deed.Invariant (env : Setting) (P : Nat → List Deed → List Nat → Run → Prop) : Prop where
  start : ∀ tree block visits journal, P visits [] [0] (State.start env tree block visits journal).run
  pass : ∀ n deeds id queue r, P n deeds (id :: queue) r → id < r.slots.length →
    P n (deeds ++ [.take id]) queue (r.note (.popped id))
  visit : ∀ n deeds id queue r, P n deeds (id :: queue) r → id < r.slots.length →
    P n (deeds ++ [.take id, .visit id]) queue ((r.note (.popped id)).countVisit id)
  refuse : ∀ n deeds id queue r err, P n deeds queue r → P n (deeds ++ [.refuse id err]) queue (r.fail err)
  act : ∀ n deeds id queue r a, P n deeds queue r → id < r.slots.length → (∀ tree, a ≠ .call (.expand tree)) →
    P n (deeds ++ [.act id a]) queue (a.effect env id r)
  expand : ∀ n deeds within queue inside (f : Focus) tree (u : State), P n deeds queue f.run →
    f.slot < f.run.slots.length → P f.run.visits within inside u.run →
    P n (deeds ++ [.expand f.slot tree within]) queue (f.absorb u).2.run
  sprout : ∀ n deeds queue r (kids : List Slot), P n deeds queue r → (∀ k ∈ kids, k.visits = 0 ∧ k.kept = []) →
    P n deeds (queue ++ List.range' r.slots.length kids.length) { r with slots := r.slots ++ kids }
  requeue : ∀ n deeds id queue r around, P n deeds queue r → id < r.slots.length →
    P n (deeds ++ [.requeue id]) (queue ++ [id]) (r.countReplacement id around)

namespace State

section Outcomes

variable (env : Setting) (deep : Bool) (s : State) (id : Nat) (queue : List Nat) (slot : Slot)

inductive Passes : List Deed → State → Prop
  | pass (n : Node) : s.root.at? slot.path = some n → n.entity? = none →
      Passes [.take id] ((s.pop id queue).grow id slot.path (n.sprout deep slot.around))
  | refuse (e : Entity) (err : LoopError) : s.root.at? slot.path = some (.entity e) →
      Passes [.take id, .visit id, .refuse id err]
        { s.pop id queue with run := ((s.pop id queue).look id slot e).run.fail err }
  | closed (e : Entity) : s.root.at? slot.path = some (.entity e) →
      Passes [.take id, .visit id] (grow { s.pop id queue with run := ((s.pop id queue).look id slot e).run } id
        slot.path ((Node.entity (e.adopt slot.around)).sprout deep ((e.adopt slot.around).aroundContent slot.around)))

inductive Settles (g : Focus) : State → Prop
  | failed (err : LoopError) : g.run.error = some err →
      Settles g { s.pop id queue with root := s.root.setAt g.node slot.path, run := g.run }
  | kept (d : Entity) (around : Ambient) : g.run.error = none → g.replaced = false → g.node = .entity d →
      Settles g (grow { s.pop id queue with run := g.run } id slot.path ((Node.entity d).sprout deep around))
  | replaced (around : Ambient) : g.run.error = none → g.replaced = true →
      Settles g { s.pop id queue with
        root := s.root.setAt g.node slot.path
        queue := queue ++ [id]
        run := g.run.countReplacement id around }

end Outcomes

section Inversion

variable {env : Setting} {deep : Bool} {s t : State} {id : Nat} {queue : List Nat} {slot : Slot} {e : Entity}

lemma attend_entity (nested : Nested) (hslot : s.run.slots[id]? = some slot)
    (hm : s.root.at? slot.path = some (.entity e)) :
    attend env nested deep id { s with queue } = visit env nested deep id slot e (s.pop id queue) := by
  have hs : (s.run.note (.popped id)).slots[id]? = some slot := hslot
  simp only [attend, hs, hm]
  rfl

lemma attend_plain (nested : Nested) {n : Node} (hslot : s.run.slots[id]? = some slot)
    (hm : s.root.at? slot.path = some n) (hn : n.entity? = none) :
    attend env nested deep id { s with queue } =
      some ((s.pop id queue).grow id slot.path (n.sprout deep slot.around)) := by
  have hs : (s.run.note (.popped id)).slots[id]? = some slot := hslot
  simp only [attend, hs, hm]
  cases n with
  | list items => exact congrArg some (pushItems_eq_grow deep (s.pop id queue) id slot.path slot.around items)
  | entity e => cases hn
  | _ => exact congrArg some (grow_simple deep (s.pop id queue) id slot.path slot.around hm rfl).symm

lemma Next.attends (h : s.Next env (.unbounded env) deep t) (hq : s.queue = id :: queue) :
    s.run.error = none ∧ ∃ u, attend env (.unbounded env) deep id { s with queue } = some u ∧ t = u.measured := by
  obtain ⟨he, id', queue', u, hq', hu, rfl⟩ := h
  obtain ⟨rfl, rfl⟩ := List.cons.inj (hq.symm.trans hq')
  exact ⟨he, u, hu, rfl⟩

lemma settle_kept {f : Focus} {d : Entity} (he : f.run.error = none) (hd : f.node = .entity d) (around : Ambient) :
    settle deep id slot.path around (s.pop id queue) .kept f =
      grow { s.pop id queue with run := f.run } id slot.path ((Node.entity d).sprout deep around) := by
  simp only [settle, he, hd]
  exact descend_eq_grow deep { s.pop id queue with run := f.run } id slot.path around d

lemma Meets.passes (ht : s.Tidy) {told : List Deed} (h : s.Meets env told) (hs : s.Next env (.unbounded env) deep t) :
    ∃ id queue slot u, s.queue = id :: queue ∧ s.run.slots[id]? = some slot ∧ s.Passes deep id queue slot told u ∧
      t = u.measured := by
  cases h with
  | pass id queue hq hplain =>
    obtain ⟨_, u, hu, rfl⟩ := hs.attends hq
    obtain ⟨p, n, hp, hm⟩ := ht.known id (by simp [hq])
    rw [designated_of_path? hp, hm, Option.bind_some] at hplain
    obtain ⟨slot, hslot, rfl⟩ := Option.map_eq_some_iff.mp hp
    rw [attend_plain _ hslot hm hplain] at hu
    obtain rfl := Option.some.inj hu
    exact ⟨id, queue, slot, _, hq, hslot, .pass n hm hplain, rfl⟩
  | refuse id queue slot e err hq hslot hm ho =>
    obtain ⟨_, u, hu, rfl⟩ := hs.attends hq
    rw [attend_entity _ hslot hm, visit_eq_judge, ho] at hu
    obtain rfl := Option.some.inj hu
    exact ⟨id, queue, slot, _, hq, hslot, .refuse e err hm, rfl⟩
  | closed id queue slot e hq hslot hm ho hstop =>
    obtain ⟨he, u, hu, rfl⟩ := hs.attends hq
    have hstopped : (e.adopt slot.around).stopped = true := (e.stopped_adopt slot.around).trans hstop
    rw [attend_entity _ hslot hm, visit_eq_judge, ho, judge_look, if_pos hstopped, Option.map_some] at hu
    obtain rfl := Option.some.inj hu
    have hsound : ((s.pop id queue).look id slot e).run.error = none := he
    refine ⟨id, queue, slot, _, hq, hslot, ?_, rfl⟩
    rw [settle_kept hsound rfl]
    exact .closed e hm

lemma Visits.settles {f g : Focus} {acts : List Act} (hf : s.Visits env f)
    (hd : (f.trial env).Does env acts ⟨g, []⟩) (hs : s.Next env (.unbounded env) deep t) :
    ∃ queue slot u, s.queue = g.slot :: queue ∧ s.run.slots[g.slot]? = some slot ∧
      s.Settles deep g.slot queue slot g u ∧ t = u.measured := by
  have hn := unbounded_within env
  obtain ⟨fate, hj⟩ := (Point.tryAll_iff_does f g).mpr ⟨acts, hd⟩
  obtain ⟨_, id, queue, slot, e, hq, hslot, hm, ho, rfl, hopen⟩ := hf
  have hjudge : judge env (.unbounded env) ((s.pop id queue).look id slot e) = some (fate, g) := by
    rw [judge, if_pos hopen, hj]
  obtain rfl : g.slot = id := (judge_slots hn hjudge).1
  obtain ⟨_, u, hu, rfl⟩ := hs.attends hq
  rw [attend_entity _ hslot hm, visit_eq_judge, ho, hjudge, Option.map_some] at hu
  obtain rfl := Option.some.inj hu
  refine ⟨queue, slot, _, hq, hslot, ?_, rfl⟩
  cases he : g.run.error with
  | some err =>
    simp only [settle, he]
    exact .failed err he
  | none =>
    have hreplaced := judge_replaced rfl hjudge
    cases fate with
    | kept =>
      obtain ⟨d, hd⟩ := judge_kept_entity hn hjudge
      rw [settle_kept he hd]
      exact .kept d _ he (by simpa using hreplaced) hd
    | replaced =>
      simp only [settle, he]
      exact .replaced _ he (by simpa using hreplaced)

lemma Visits.known {f : Focus} (hf : s.Visits env f) :
    f.slot < s.run.slots.length ∧ f.run.slots.length = s.run.slots.length := by
  obtain ⟨_, id, queue, slot, e, _, hslot, _, _, rfl, _⟩ := hf
  refine ⟨(List.getElem?_eq_some_iff.mp hslot).1, ?_⟩
  exact List.length_modify _ _ _

lemma Visits.does_known {f : Focus} {acts : List Act} {x : Point} (hf : s.Visits env f)
    (h : (f.trial env).Does env acts x) :
    x.focus.slot = f.slot ∧ x.focus.slot < s.run.slots.length ∧ x.focus.run.slots.length = s.run.slots.length := by
  obtain ⟨hlt, hlen⟩ := hf.known
  have hslot : x.focus.slot = f.slot := h.onward.slot
  obtain ⟨kept, hkept⟩ := h.onward.slots
  have hsame := congrArg List.length hkept
  rw [List.length_modify] at hsame
  exact ⟨hslot, hslot ▸ hlt, hsame.trans hlen⟩

lemma Visits.does_map {α : Type} (view : Slot → α) (hvisits : ∀ slot n, view { slot with visits := n } = view slot)
    (hkept : ∀ slot kept, view { slot with kept } = view slot) {f : Focus} {acts : List Act} {x : Point}
    (hf : s.Visits env f) (h : (f.trial env).Does env acts x) :
    x.focus.run.slots.map view = s.run.slots.map view := by
  obtain ⟨kept, hslots⟩ := h.onward.slots
  obtain ⟨_, id, queue, slot, e, _, _, _, _, rfl, _⟩ := hf
  have hlook := map_modify_of_eq view s.run.slots id (fun slot => { slot with visits := slot.visits + 1 })
    fun slot => hvisits slot (slot.visits + 1)
  rw [hslots]
  exact (map_modify_of_eq view _ id (fun slot => { slot with kept }) fun slot => hkept slot kept).trans hlook

lemma Visits.does_way {f : Focus} {acts : List Act} {x : Point} (hf : s.Visits env f)
    (h : (f.trial env).Does env acts x) : x.focus.run.slots.map Slot.way = s.run.slots.map Slot.way :=
  hf.does_map Slot.way (fun _ _ => rfl) (fun _ _ => rfl) h

lemma Settles.waits (ht : s.Tidy) {g : Focus} {u : State} (h : s.Settles deep id queue slot g u)
    (hq : s.queue = id :: queue) (hlt : id < g.run.slots.length) :
    id ∈ u.queue ↔ g.run.error = none ∧ g.replaced = true := by
  have hnot : id ∉ queue := by
    have hn := ht.queue
    rw [hq, List.nodup_cons] at hn
    exact hn.1
  cases h with
  | failed err he =>
    refine ⟨fun hmem => absurd hmem hnot, fun hg => ?_⟩
    rw [he] at hg
    exact absurd hg.1 (Option.some_ne_none err)
  | kept d around _ hr _ =>
    refine ⟨fun hmem => ?_, fun hg => ?_⟩
    · rcases mem_push_queue.mp hmem with hmem | ⟨i, _, hi⟩
      · exact absurd hmem hnot
      · change id = g.run.slots.length + i at hi
        omega
    · rw [hr] at hg
      exact absurd hg.2 Bool.false_ne_true
  | replaced around he hr => exact ⟨fun _ => ⟨he, hr⟩, fun _ => List.mem_append_right _ (List.mem_singleton_self id)⟩

end Inversion

end State

namespace Deed.Invariant

open State

variable {env : Setting} {P : Nat → List Deed → List Nat → Run → Prop} (hP : Deed.Invariant env P)

include hP

lemma grow {n : Nat} {deeds : List Deed} {s : State} (h : P n deeds s.queue s.run) (id : Nat) (path : Path)
    (deep : Bool) (around : Ambient) (m : Node) :
    P n deeds (s.grow id path (m.sprout deep around)).queue (s.grow id path (m.sprout deep around)).run := by
  apply hP.sprout n deeds s.queue s.run _ h
  intro k hk
  obtain ⟨kid, hkid, rfl⟩ := List.mem_map.mp hk
  exact sprout_fresh deep around m kid hkid

lemma passes {n : Nat} {deep : Bool} {deeds told : List Deed} {s u : State} {id : Nat} {queue : List Nat} {slot : Slot}
    (h : P n deeds s.queue s.run) (hq : s.queue = id :: queue) (hlt : id < s.run.slots.length)
    (hu : s.Passes deep id queue slot told u) : P n (deeds ++ told) u.queue u.run := by
  rw [hq] at h
  have hvisit := hP.visit n deeds id queue s.run h hlt
  cases hu with
  | pass m _ _ => exact hP.grow (s := s.pop id queue) (hP.pass n deeds id queue s.run h hlt) _ _ _ _ _
  | refuse e err _ =>
    have hrefuse := hP.refuse n _ id queue _ err hvisit
    rwa [List.append_assoc] at hrefuse
  | closed e _ => exact hP.grow (s := { s.pop id queue with run := _ }) hvisit _ _ _ _ _

lemma tells {deep : Bool} {first : State} {deeds : List Deed} {site : Site} (h : first.Tells env deep deeds site)
    (hf : first.Begins env) : P first.run.visits deeds site.queue site.run := by
  induction h with
  | start deep first =>
    obtain ⟨tree, block, visits, journal, rfl⟩ := hf
    exact hP.start tree block visits journal
  | meet deep first s t deeds told hs hm hstep ih =>
    obtain ⟨id, queue, slot, u, hq, hslot, hu, rfl⟩ := hm.passes (hf.tidy hs.reached) hstep
    have hlt : id < s.run.slots.length := (List.getElem?_eq_some_iff.mp hslot).1
    have hall := hP.passes (ih hf) hq hlt hu
    exact hall
  | visit deep first s deeds f _ hv ih =>
    have hlt := hv.known.1
    obtain ⟨_, id, queue, slot, e, hq, _, _, _, rfl, _⟩ := hv
    have hs := ih hf
    simp only [Site.queue, hq, List.tail_cons] at hs ⊢
    exact hP.visit _ deeds id queue s.run hs hlt
  | act deep first s deeds x y a hs ha hstep ih =>
    obtain ⟨_, f, acts, hv, hd⟩ := hs.reached
    obtain ⟨_, hlt, hlen⟩ := hv.does_known hd
    have hx := hP.act _ deeds x.focus.slot _ x.focus.run a (ih hf) (hlen ▸ hlt) ha
    rw [← hstep.effect ha] at hx
    exact hx
  | expand deep first s u deeds within x y tree hs hstep _ _ hy ih ihw =>
    obtain ⟨_, f, acts, hv, hd⟩ := hs.reached
    obtain ⟨_, hlt, hlen⟩ := hv.does_known hd
    have hx := hP.expand _ deeds within _ _ x.focus tree u (ih hf) (hlen ▸ hlt) (ihw ⟨tree, _, _, _, rfl⟩)
    rw [← hy] at hx
    exact hx
  | keep deep first s t deeds g hs hstep hout ih =>
    obtain ⟨hr, f, acts, hv, hd⟩ := hs.reached
    obtain ⟨_, hlt, hlen⟩ := hv.does_known hd
    obtain ⟨queue, slot, u, hq, hslot, hu, rfl⟩ := hv.settles hd hstep
    have hg := ih hf
    simp only [Site.queue, hq, List.tail_cons] at hg
    cases hu with
    | failed err _ => exact hg
    | kept d around _ _ _ => exact hP.grow (s := { s.pop g.slot queue with run := g.run }) hg _ _ _ _ _
    | replaced around _ _ => exact absurd (List.mem_append_right _ (List.mem_singleton_self _)) hout
  | requeue deep first s t deeds g hs hstep hin ih =>
    obtain ⟨hr, f, acts, hv, hd⟩ := hs.reached
    obtain ⟨_, hlt, hlen⟩ := hv.does_known hd
    obtain ⟨queue, slot, u, hq, hslot, hu, rfl⟩ := hv.settles hd hstep
    have hg := ih hf
    simp only [Site.queue, hq, List.tail_cons] at hg
    have hlt' : g.slot < g.run.slots.length := hlen ▸ hlt
    obtain ⟨he, hr'⟩ := (hu.waits (hf.tidy hr) hq hlt').mp hin
    cases hu with
    | failed err herr => exact absurd (herr.symm.trans he) (Option.some_ne_none err)
    | kept d around _ hkept _ => exact absurd (hkept.symm.trans hr') Bool.false_ne_true
    | replaced around _ _ => exact hP.requeue _ deeds g.slot queue g.run around hg hlt'

end Deed.Invariant

end Bemjson
