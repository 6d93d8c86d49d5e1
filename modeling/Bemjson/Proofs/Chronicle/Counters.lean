import Bemjson.Engine
import Bemjson.Proofs.Chronicle.Invariant
import Bemjson.Proofs.LoopGuard.Tally
import Bemjson.Proofs.Scan
import Mathlib.Data.List.Count
import Mathlib.Data.List.Nodup

namespace Bemjson

namespace Deed

def taken? : Deed → Option Nat
  | take id => some id
  | _ => none

def visited? : Deed → Option Nat
  | visit id => some id
  | _ => none

def requeued? : Deed → Option Nat
  | requeue id => some id
  | _ => none

def fired? : Deed → Option Nat
  | act _ (.fire rule) => some rule
  | _ => none

mutual

def dispatches : Deed → Nat
  | visit _ => 1
  | expand _ _ within => dispatchesOf within
  | _ => 0

def dispatchesOf : List Deed → Nat
  | [] => 0
  | d :: deeds => d.dispatches + dispatchesOf deeds

end

lemma dispatchesOf_append (deeds later : List Deed) :
    dispatchesOf (deeds ++ later) = dispatchesOf deeds + dispatchesOf later := by
  induction deeds with
  | nil => simp [dispatchesOf]
  | cons d deeds ih => simp only [List.cons_append, dispatchesOf, ih, Nat.add_assoc]

end Deed

open Deed

section Queueing

/-- Every slot has been put into the queue when it was made, and again each time its node was replaced. -/
structure Run.Balanced (deeds : List Deed) (queue : List Nat) (r : Run) : Prop where
  turns : (deeds.filterMap taken? ++ queue).Perm (deeds.filterMap requeued? ++ List.range r.slots.length)
  visits : (deeds.filterMap visited?).Sublist (deeds.filterMap taken?)
  requeues : (deeds.filterMap requeued?).length = r.replacements

lemma Act.effect_counts (env : Setting) (id : Nat) (r : Run) (a : Act) :
    (a.effect env id r).slots.length = r.slots.length ∧ (a.effect env id r).replacements = r.replacements ∧
      (a.effect env id r).visits = r.visits ∧ (a.effect env id r).error = r.error := by
  cases a with
  | call c =>
    cases c with
    | keep key value force => exact ⟨List.length_modify _ _ _, rfl, rfl, rfl⟩
    | _ => exact ⟨rfl, rfl, rfl, rfl⟩
  | _ => exact ⟨rfl, rfl, rfl, rfl⟩

lemma absorb_counts (f : Focus) (u : State) : (f.absorb u).2.run.slots = f.run.slots ∧
    (f.absorb u).2.run.replacements = f.run.replacements ∧ (f.absorb u).2.run.fired = f.run.fired := by
  cases he : u.run.error <;> simp [Focus.absorb, he, Run.note]

namespace Run.Balanced

lemma quiet {deeds : List Deed} {queue : List Nat} {r later : Run} (h : r.Balanced deeds queue) {d : Deed}
    (ht : d.taken? = none) (hv : d.visited? = none) (hr : d.requeued? = none)
    (hslots : later.slots.length = r.slots.length) (hreplaced : later.replacements = r.replacements) :
    later.Balanced (deeds ++ [d]) queue where
  turns := by
    rw [List.filterMap_append, List.filterMap_append, List.filterMap_cons_none ht, List.filterMap_cons_none hr, hslots]
    simpa using h.turns
  visits := by
    rw [List.filterMap_append, List.filterMap_append, List.filterMap_cons_none ht, List.filterMap_cons_none hv]
    simpa using h.visits
  requeues := by
    rw [List.filterMap_append, List.filterMap_cons_none hr, hreplaced]
    simpa using h.requeues

lemma requeue {deeds : List Deed} {queue : List Nat} {r : Run} (h : r.Balanced deeds queue) (id : Nat)
    (around : Ambient) : (r.countReplacement id around).Balanced (deeds ++ [.requeue id]) (queue ++ [id]) where
  turns := by
    have hlen : (r.countReplacement id around).slots.length = r.slots.length := List.length_modify _ _ _
    have hswap : (List.range r.slots.length ++ [id]).Perm ([id] ++ List.range r.slots.length) := List.perm_append_comm
    have hall := h.turns.append_right [id]
    rw [List.append_assoc, List.append_assoc] at hall
    simpa [List.filterMap_cons, taken?, requeued?, hlen] using hall.trans (hswap.append_left _)
  visits := by simpa [List.filterMap_cons, taken?, visited?] using h.visits
  requeues := by
    have hone : (r.countReplacement id around).replacements = r.replacements + 1 := rfl
    simpa [List.filterMap_cons, requeued?, hone] using h.requeues

lemma invariant (env : Setting) : Deed.Invariant env fun _ deeds queue r => r.Balanced deeds queue where
  start tree block visits journal := ⟨.refl _, .refl _, rfl⟩
  pass n deeds id queue r h _ := by
    refine ⟨?_, ?_, ?_⟩
    · simpa [List.filterMap_cons, taken?, requeued?, Run.note] using h.turns
    · simpa [List.filterMap_cons, taken?, visited?] using h.visits.trans (List.sublist_append_left _ [id])
    · simpa [List.filterMap_cons, requeued?, Run.note] using h.requeues
  visit n deeds id queue r h _ := by
    refine ⟨?_, ?_, ?_⟩
    · simpa [List.filterMap_cons, taken?, requeued?, Run.countVisit, Run.modifySlot, Run.note] using h.turns
    · simpa [List.filterMap_cons, taken?, visited?] using h.visits
    · simpa [List.filterMap_cons, requeued?, Run.countVisit, Run.modifySlot, Run.note] using h.requeues
  refuse n deeds id queue r err h := h.quiet rfl rfl rfl rfl rfl
  act n deeds id queue r a h _ _ := by
    obtain ⟨hslots, hreplaced, _⟩ := a.effect_counts env id r
    exact h.quiet rfl rfl rfl hslots hreplaced
  expand n deeds within queue inside f tree u h _ _ := by
    obtain ⟨hslots, hreplaced, _⟩ := absorb_counts f u
    exact h.quiet rfl rfl rfl (congrArg List.length hslots) hreplaced
  sprout n deeds queue r kids h _ := by
    refine ⟨?_, h.visits, h.requeues⟩
    have hrange : List.range (r.slots ++ kids).length =
        List.range r.slots.length ++ List.range' r.slots.length kids.length := by
      rw [List.length_append, List.range_eq_range', List.range_eq_range', ← List.range'_append_1, Nat.zero_add]
    rw [hrange, ← List.append_assoc, ← List.append_assoc]
    exact h.turns.append_right _
  requeue n deeds id queue r around h _ := h.requeue id around

end Run.Balanced

end Queueing

section Visiting

structure Run.Dispatched (start : Nat) (deeds : List Deed) (r : Run) : Prop where
  slots : ∀ id, (deeds.filterMap visited?).count id = r.visitsAt id
  total : r.error = none → r.visits = start + dispatchesOf deeds

namespace Run.Dispatched

variable {start : Nat} {deeds : List Deed} {r later : Run}

lemma quiet (h : r.Dispatched start deeds) {d : Deed} (hv : d.visited? = none) (hd : d.dispatches = 0)
    (hslots : ∀ id, later.visitsAt id = r.visitsAt id) (hvisits : later.visits = r.visits)
    (he : later.error = r.error) : later.Dispatched start (deeds ++ [d]) where
  slots id := by
    rw [List.filterMap_append, List.filterMap_cons_none hv, hslots]
    simpa using h.slots id
  total hn := by
    rw [dispatchesOf_append, dispatchesOf, hd, hvisits, h.total (he.symm.trans hn)]
    rfl

lemma visit (h : r.Dispatched start deeds) {id : Nat} (hlt : id < r.slots.length) :
    (r.countVisit id).Dispatched start (deeds ++ [.visit id]) where
  slots other := by
    rw [visitsAt_countVisit r id other hlt, ← h.slots other]
    simp [visited?, List.count_singleton]
  total hn := by
    rw [dispatchesOf_append]
    change r.visits + 1 = start + (dispatchesOf deeds + (1 + 0))
    rw [h.total hn]
    omega

lemma absorb {f : Focus} (h : f.run.Dispatched start deeds) {u : State} {within : List Deed}
    (hu : u.run.Dispatched f.run.visits within) (tree : Node) :
    (f.absorb u).2.run.Dispatched start (deeds ++ [.expand f.slot tree within]) where
  slots id := by
    have hsame : (f.absorb u).2.run.visitsAt id = f.run.visitsAt id := by
      rw [Run.visitsAt, (absorb_counts f u).1, Run.visitsAt]
    rw [hsame, ← h.slots id]
    simp [List.filterMap_cons, visited?]
  total hn := by
    rw [dispatchesOf_append, dispatchesOf, dispatches, dispatchesOf]
    cases he : u.run.error with
    | some err => simp [Focus.absorb, he] at hn
    | none =>
      have hf : f.run.error = none := by simpa [Focus.absorb, he, Run.note] using hn
      have hv : (f.absorb u).2.run.visits = u.run.visits := by simp [Focus.absorb, he]
      rw [hv, hu.total he, h.total hf]
      omega

lemma invariant (env : Setting) : Deed.Invariant env fun n deeds _ r => r.Dispatched n deeds where
  start tree block visits journal := by
    refine ⟨fun id => ?_, fun _ => rfl⟩
    cases id <;> rfl
  pass n deeds id queue r h _ := h.quiet rfl rfl (fun _ => rfl) rfl rfl
  visit n deeds id queue r h hlt := by
    have htaken : (r.note (.popped id)).Dispatched n (deeds ++ [.take id]) := h.quiet rfl rfl (fun _ => rfl) rfl rfl
    simpa using htaken.visit hlt
  refuse n deeds id queue r err h := by
    refine ⟨fun other => ?_, fun hn => nomatch hn⟩
    have hsame : (r.fail err).visitsAt other = r.visitsAt other := rfl
    rw [hsame, ← h.slots other]
    simp [List.filterMap_cons, visited?]
  act n deeds id queue r a h _ ha := by
    obtain ⟨_, _, hvisits, he⟩ := a.effect_counts env id r
    refine h.quiet rfl rfl (fun other => ?_) hvisits he
    cases a with
    | call c =>
      cases c with
      | keep key value force => exact visitsAt_modifySlot r id other _ fun _ => rfl
      | _ => rfl
    | _ => rfl
  expand n deeds within queue inside f tree u h _ hu := h.absorb hu tree
  sprout n deeds queue r kids h hk := by
    refine ⟨fun id => ?_, h.total⟩
    rw [visitsAt_push r kids fun k hkid => (hk k hkid).1]
    exact h.slots id
  requeue n deeds id queue r around h _ :=
    h.quiet rfl rfl (fun other => visitsAt_modifySlot _ id other _ fun _ => rfl) rfl rfl

end Run.Dispatched

end Visiting

section Firing

def Run.Fired (rules : Nat) (deeds : List Deed) (r : Run) : Prop :=
  r.fired = (List.range rules).map fun rule => (deeds.filterMap fired?).count rule

namespace Run.Fired

variable {rules : Nat} {deeds : List Deed} {r later : Run}

lemma quiet (h : r.Fired rules deeds) (hf : later.fired = r.fired) {told : List Deed}
    (ht : told.filterMap fired? = []) : later.Fired rules (deeds ++ told) := by
  rw [Run.Fired, hf, List.filterMap_append, ht, List.append_nil]
  exact h

lemma fire (h : r.Fired rules deeds) (rule id : Nat) :
    (r.countFire rule id).Fired rules (deeds ++ [.act id (.fire rule)]) := by
  have hone : [Deed.act id (.fire rule)].filterMap fired? = [rule] := rfl
  have hfired : (r.countFire rule id).fired = r.fired.modify rule (· + 1) := rfl
  rw [Run.Fired, hfired, h, List.filterMap_append, hone]
  apply List.ext_getElem?
  intro i
  rw [List.getElem?_modify, List.getElem?_map, List.getElem?_map]
  by_cases hi : i < rules
  · by_cases hr : rule = i <;> simp [List.getElem?_range hi, List.count_append, List.count_singleton, hr]
  · rw [List.getElem?_eq_none (by simpa using hi)]
    rfl

lemma effect (h : r.Fired rules deeds) (env : Setting) (id : Nat) (a : Act) :
    (a.effect env id r).Fired rules (deeds ++ [.act id a]) := by
  cases a with
  | fire rule => exact h.fire rule id
  | call c => cases c <;> exact h.quiet rfl rfl
  | _ => exact h.quiet rfl rfl

lemma invariant (env : Setting) :
    Deed.Invariant env fun _ deeds _ r => r.Fired env.index.rules.length deeds where
  start tree block visits journal := by
    change env.index.rules.map (fun _ => 0) = _
    simp [List.map_const']
  pass n deeds id queue r h _ := h.quiet rfl rfl
  visit n deeds id queue r h _ := h.quiet rfl rfl
  refuse n deeds id queue r err h := h.quiet rfl rfl
  act n deeds id queue r a h _ _ := h.effect env id a
  expand n deeds within queue inside f tree u h _ _ := h.quiet (absorb_counts f u).2.2 rfl
  sprout n deeds queue r kids h _ := h
  requeue n deeds id queue r around h _ := h.quiet rfl rfl

lemma counts_fired {s : State} {rules : List Rule} (h : s.run.Fired rules.length deeds) :
    (s.counts rules).fired =
      (rules.zipIdx.map fun p => (p.1.label, (deeds.filterMap fired?).count p.2)).filter fun p => p.2 != 0 := by
  change ((rules.map Rule.label).zip s.run.fired).filter (fun p => p.2 != 0) = _
  rw [h, List.zip_map, List.zipIdx_eq_zip_range', List.range_eq_range']
  rfl

end Run.Fired

end Firing

lemma State.reached_of_drain {env : Setting} {deep : Bool} {fuel steps : Nat} {first s : State}
    (h : drain env (.ofFuel env fuel) deep steps first = some s) :
    first.Reaches env (.unbounded env) deep s ∧ s.Over :=
  drain_iff_run.mp ⟨steps, (drain_finitary env deep steps first).mono _ _ s (ofFuel_le env fuel) h⟩

theorem counters_conserved {env : Setting} {rules : List Rule} {order : RuleOrder} (hindex : env.index = .build rules order)
    {deep : Bool} {fuel steps : Nat} {tree : Node} {block : Option String} {visits : Nat} {journal : Journal} {s : State}
    (h : drain env (.ofFuel env fuel) deep steps (.start env tree block visits journal) = some s)
    (he : s.run.error = none) :
    (∃ deeds, (State.start env tree block visits journal).Tells env deep deeds (.between s)) ∧
      ∀ deeds, (State.start env tree block visits journal).Tells env deep deeds (.between s) →
        (deeds.filterMap taken?).length = s.run.slots.length + s.run.replacements ∧
        (∀ id, (deeds.filterMap visited?).count id = s.run.visitsAt id ∧
          (deeds.filterMap visited?).count id ≤ (deeds.filterMap requeued?).count id + 1) ∧
        s.run.visits = visits + dispatchesOf deeds ∧
        s.run.replacements = (deeds.filterMap requeued?).length ∧
        (s.counts rules).fired =
          (rules.zipIdx.map fun p => (p.1.label, (deeds.filterMap fired?).count p.2)).filter fun p => p.2 != 0 := by
  obtain ⟨hr, hover⟩ := State.reached_of_drain h
  refine ⟨(State.reached_iff_tells (State.Tidy.start env tree block visits journal)).mp hr, fun deeds hd => ?_⟩
  have hq : s.queue = [] := hover.resolve_left (by rw [he]; exact Bool.false_ne_true)
  have hfirst : (State.start env tree block visits journal).Begins env := ⟨tree, block, visits, journal, rfl⟩
  have hbalanced : s.run.Balanced deeds s.queue := (Run.Balanced.invariant env).tells hd hfirst
  have hdispatched : s.run.Dispatched visits deeds := (Run.Dispatched.invariant env).tells hd hfirst
  have hfired : s.run.Fired env.index.rules.length deeds := (Run.Fired.invariant env).tells hd hfirst
  have hturns := hbalanced.turns
  rw [hq, List.append_nil] at hturns
  refine ⟨?_, fun id => ⟨hdispatched.slots id, ?_⟩, hdispatched.total he, hbalanced.requeues.symm, ?_⟩
  · have hlen := hturns.length_eq
    rw [List.length_append, List.length_range, hbalanced.requeues] at hlen
    omega
  · have hcount := hturns.count_eq id
    rw [List.count_append] at hcount
    have hone := List.nodup_iff_count_le_one.mp (List.nodup_range (n := s.run.slots.length)) id
    have hvisits := hbalanced.visits.count_le id
    omega
  · rw [hindex, RuleIndex.rules_build] at hfired
    exact hfired.counts_fired

section Counted

def onBlock (block : String) (body : Body) : Rule := ⟨.selector { block := { name := block, cond := none }, elem := none }, body⟩

def counted : Engine where
  rules := [onBlock "a" (.call .tryRest fun _ => .done (some (.entity { block := some "b" }))),
    onBlock "a" (.done none),
    onBlock "b" (.call (.expand (.entity { block := some "c" })) fun _ => .done none)]

theorem counters_conserved_counted : ∃ s deeds,
    drain counted.setting (.ofFuel counted.setting 9) true 9
      (.start counted.setting (.entity { block := some "a" }) none 0 {}) = some s ∧
    s.run.error = none ∧
    (State.start counted.setting (.entity { block := some "a" }) none 0 {}).Tells counted.setting true deeds
      (.between s) ∧
    (deeds.filterMap taken?).length = 2 ∧ (deeds.filterMap visited?).count 0 ≤ (deeds.filterMap requeued?).count 0 + 1 ∧
    dispatchesOf deeds = 3 ∧ (deeds.filterMap requeued?).length = 1 ∧
    (s.counts counted.rules).fired = [("a", 1), ("a", 1), ("b", 1)] := by
  obtain ⟨s, hs, he, hslots, hreplaced, hvisits, hfired⟩ : ∃ s,
      drain counted.setting (.ofFuel counted.setting 9) true 9
        (.start counted.setting (.entity { block := some "a" }) none 0 {}) = some s ∧
      s.run.error = none ∧ s.run.slots.length = 1 ∧ s.run.replacements = 1 ∧ s.run.visits = 3 ∧
      (s.counts counted.rules).fired = [("a", 1), ("a", 1), ("b", 1)] :=
    ⟨_, rfl, rfl, rfl, rfl, rfl, rfl⟩
  have hindex : counted.setting.index = .build counted.rules counted.options.ruleOrder := rfl
  obtain ⟨⟨deeds, hd⟩, hall⟩ := counters_conserved hindex hs he
  obtain ⟨htaken, hslot, hdispatched, hrequeued, _⟩ := hall deeds hd
  refine ⟨s, deeds, hs, he, hd, ?_, (hslot 0).2, ?_, ?_, hfired⟩
  · rw [htaken, hslots, hreplaced]
  · rw [hvisits, Nat.zero_add] at hdispatched
    exact hdispatched.symm
  · rw [← hrequeued, hreplaced]

end Counted

end Bemjson
