import Bemjson.Proofs.LoopGuard.Calls
import Bemjson.Proofs.Runs

/-! What holds of a run at its start, and is kept by all that rules do and by every step. -/

namespace Bemjson

/-- A property of the runs that count their visits from a given number on. -/
structure Run.Invariant (env : Setting) (P : Nat → Run → Prop) : Prop where
  start : ∀ tree block visits journal, P visits (State.start env tree block visits journal).run
  keep : ∀ n r id key value force, P n r → P n (r.keep id key value force)
  issue : ∀ n r, P n r → P n (r.issueId env.idStart).2
  write : ∀ n r entry, P n r → P n (r.write entry)
  count : ∀ n r rule id, P n r → P n (r.countFire rule id)
  pop : ∀ n r id, P n r → P n (r.note (.popped id))
  push : ∀ n r (kids : List Slot), (∀ k ∈ kids, k.visits = 0) → P n r → P n { r with slots := r.slots ++ kids }
  visit : ∀ n r id e, P n r → r.error = none → id < r.slots.length → overrun env (r.countVisit id) id e = none →
    P n (r.countVisit id)
  fail : ∀ n r id e err, P n r → r.error = none → id < r.slots.length →
    overrun env (r.countVisit id) id e = some err → P n ((r.countVisit id).fail err)
  replace : ∀ n r id around, P n r → P n (r.countReplacement id around)
  absorb : ∀ n (f : Focus) (s : State), P n f.run → P f.run.visits s.run → P n (f.absorb s).2.run

lemma sprout_fresh (deep : Bool) (around : Ambient) (n : Node) :
    ∀ k ∈ (n.sprout deep around).2, k.visits = 0 ∧ k.kept = [] := by
  have hitems : ∀ path around items, ∀ k ∈ itemSlots 0 path around items, k.visits = 0 ∧ k.kept = [] := by
    intro path around items k hk
    rw [itemSlots_eq] at hk
    obtain ⟨p, _, rfl⟩ := List.mem_map.mp hk
    exact ⟨rfl, rfl⟩
  cases n with
  | list items => exact hitems _ _ _
  | entity e =>
    simp only [Node.sprout]
    split
    · exact hitems _ _ _
    · simp
    · simp
  | _ => simp [Node.sprout]

lemma sprout_visits (deep : Bool) (around : Ambient) (n : Node) : ∀ k ∈ (n.sprout deep around).2, k.visits = 0 :=
  fun k hk => (sprout_fresh deep around n k hk).1

/-- Two such properties in turn: `P` between two steps, and `Q` while rules are at work on the node of a slot. -/
structure Run.Phases (env : Setting) (P Q : Nat → Run → Prop) : Prop where
  start : ∀ tree block visits journal, P visits (State.start env tree block visits journal).run
  pop : ∀ n r id, P n r → P n (r.note (.popped id))
  push : ∀ n r (kids : List Slot), (∀ k ∈ kids, k.visits = 0) → P n r → P n { r with slots := r.slots ++ kids }
  replace : ∀ n r id around, P n r → P n (r.countReplacement id around)
  fail : ∀ n r id e err, P n r → r.error = none → id < r.slots.length →
    overrun env (r.countVisit id) id e = some err → P n ((r.countVisit id).fail err)
  visit : ∀ n r id e, P n r → r.error = none → id < r.slots.length → overrun env (r.countVisit id) id e = none →
    Q n (r.countVisit id)
  keep : ∀ n r id key value force, Q n r → Q n (r.keep id key value force)
  issue : ∀ n r, Q n r → Q n (r.issueId env.idStart).2
  write : ∀ n r entry, Q n r → Q n (r.write entry)
  count : ∀ n r rule id, Q n r → Q n (r.countFire rule id)
  absorb : ∀ n (f : Focus) (s : State), Q n f.run → P f.run.visits s.run → Q n (f.absorb s).2.run
  settle : ∀ n r, Q n r → P n r

def Run.Invariant.Keeps (P : Nat → Run → Prop) (f g : Focus) : Prop := ∀ n, P n f.run → P n g.run

open Run.Invariant (Keeps)

namespace Run.Phases

variable {env : Setting} {nested : Nested} {P Q : Nat → Run → Prop} (hP : Run.Phases env P Q)

include hP

lemma closed : Focus.Closed env (Keeps Q) where
  refl _ _ h := h
  trans _ _ _ hfg hgh n h := hgh n (hfg n h)
  change _ _ _ h := h
  keep f key value force n h := hP.keep n f.run f.slot key value force h
  issue f n h := hP.issue n f.run h
  write f entry n h := hP.write n f.run entry h
  count f id n h := hP.count n f.run id f.slot h
  replace _ _ _ h := h

lemma grow {n : Nat} {s : State} (h : P n s.run) (id : Nat) (path : Path) (deep : Bool) (around : Ambient) (m : Node) :
    P n (s.grow id path (m.sprout deep around)).run := by
  apply hP.push n s.run _ _ h
  intro k hk
  obtain ⟨kid, hkid, rfl⟩ := List.mem_map.mp hk
  exact sprout_visits deep around m kid hkid

variable (hn : nested.Within (Keeps Q))
include hn

lemma judge {n : Nat} {f g : Focus} {fate : Fate} (hf : Q n f.run) (h : judge env nested f = some (fate, g)) :
    Q n g.run := by
  unfold Bemjson.judge at h
  split at h
  · exact tryAll_within hP.closed hn f g fate h n hf
  · cases h
    exact hf

lemma turn {n : Nat} {deep : Bool} {s u : State} {id : Nat} {slot : Slot} (hs : P n s.run) (he : s.run.error = none)
    (hslot : s.run.slots[id]? = some slot) (h : State.Turn env nested deep s id slot u) : P n u.run := by
  have hlt : id < s.run.slots.length := (List.getElem?_eq_some_iff.mp hslot).1
  have hlook : ∀ e, overrun env (s.look id slot e).run id (e.adopt slot.around) = none → Q n (s.look id slot e).run :=
    fun e ha => hP.visit n s.run id _ hs he hlt ha
  cases h with
  | missing _ => exact hs
  | plain m _ _ => exact hP.grow hs _ _ _ _ _
  | overrun e err _ ha => exact hP.fail n s.run id _ err hs he hlt ha
  | failed e fate f err _ ha hj _ => exact hP.settle n _ (hP.judge hn (hlook e ha) hj)
  | kept e d f hj _ =>
    have hf : P n f.run := hP.settle n _ (hP.judge hn (hlook e hj.allowed) hj.judge)
    exact hP.grow (s := { s with run := f.run }) hf _ _ _ _ _
  | replaced e f hj => exact hP.replace n f.run id _ (hP.settle n _ (hP.judge hn (hlook e hj.allowed) hj.judge))

variable (ho : nested.Within Focus.Onward)
include ho

lemma next {n : Nat} {deep : Bool} {s t : State} (hs : P n s.run) (h : s.Next env nested deep t) : P n t.run := by
  obtain ⟨he, id, queue, u, _, hu, rfl⟩ := h
  have hpop : P n (s.pop id queue).run := hP.pop n s.run id hs
  change P n u.run
  cases hslot : s.run.slots[id]? with
  | some slot => exact hP.turn hn hpop he hslot (turn_of_attend ho hslot hu)
  | none =>
    have hnone : (s.run.note (.popped id)).slots[id]? = none := hslot
    simp only [attend, hnone] at hu
    cases hu
    exact hpop

lemma reaches {n : Nat} {deep : Bool} {s t : State} (hs : P n s.run) (h : s.Reaches env nested deep t) : P n t.run := by
  induction h with
  | refl => exact hs
  | tail _ hstep ih => exact hP.next hn ho ih hstep

omit ho hn

lemma ofFuel (fuel : Nat) : (Nested.ofFuel env fuel).Within (Keeps Q) := by
  apply ofFuel_within_of fun _ hn => tryAll_within hP.closed hn
  intro fuel hn f tree s hs n hf
  obtain ⟨hr, _⟩ := drain_iff_run.mp ⟨fuel, hs⟩
  exact hP.absorb n f s hf (hP.reaches hn (ofFuel_within env fuel) (hP.start _ _ _ _) hr)

lemma expand {fuel : Nat} {deep : Bool} {tree : Node} {block : Option String} {journal : Journal} {s : State}
    (h : expand env fuel deep tree block journal = some s) : P 0 s.run := by
  obtain ⟨hr, _⟩ := drain_iff_run.mp ⟨fuel, h⟩
  exact hP.reaches (hP.ofFuel fuel) (ofFuel_within env fuel) (hP.start tree block 0 journal) hr

end Run.Phases

namespace Run.Invariant

variable {env : Setting} {nested : Nested} {P : Nat → Run → Prop} (hP : Run.Invariant env P)

include hP

lemma phases : Run.Phases env P P where
  start := hP.start
  pop := hP.pop
  push := hP.push
  replace := hP.replace
  fail := hP.fail
  visit := hP.visit
  keep := hP.keep
  issue := hP.issue
  write := hP.write
  count := hP.count
  absorb := hP.absorb
  settle _ _ h := h

lemma closed : Focus.Closed env (Keeps P) := hP.phases.closed

lemma reaches (hn : nested.Within (Keeps P)) (ho : nested.Within Focus.Onward) {n : Nat} {deep : Bool} {s t : State}
    (hs : P n s.run) (h : s.Reaches env nested deep t) : P n t.run :=
  hP.phases.reaches hn ho hs h

lemma ofFuel (fuel : Nat) : (Nested.ofFuel env fuel).Within (Keeps P) := hP.phases.ofFuel fuel

lemma unbounded : (Nested.unbounded env).Within (Keeps P) := unbounded_within_of hP.ofFuel

lemma expand {fuel : Nat} {deep : Bool} {tree : Node} {block : Option String} {journal : Journal} {s : State}
    (h : expand env fuel deep tree block journal = some s) : P 0 s.run :=
  hP.phases.expand h

end Run.Invariant

end Bemjson
