import Bemjson.Proofs.LoopGuard.Budget

/-! The errors of a run and of those inside it: each answers a visit that crosses a limit, and the first one is what the
run comes to. -/

namespace Bemjson

inductive Excess where
  | slot (visits : Nat)
  | total (visits : Nat)
  deriving DecidableEq

def LoopError.excess : LoopError → Excess
  | slot _ n => .slot n
  | total _ n => .total n

def excess? (slotVisits visits : Nat) : Option Excess :=
  if slotLimit < slotVisits then some (.slot slotVisits)
  else if totalLimit < visits then some (.total visits)
  else none

mutual

def Event.failures : Event → List LoopError
  | .failed e => [e]
  | .inner trace => failuresOf trace
  | _ => []

def failuresOf : List Event → List LoopError
  | [] => []
  | e :: trace => e.failures ++ failuresOf trace

end

mutual

def Event.spent : Event → Nat
  | .visited _ => 1
  | .inner trace => if failuresOf trace = [] then spentOf trace else 0
  | _ => 0

/-- The visits that count for a run. One inside that fails does not hand its own back. -/
def spentOf : List Event → Nat
  | [] => 0
  | e :: trace => e.spent + spentOf trace

end

mutual

def Event.excesses (visits : Nat) (trace : List Event) : Event → List Excess
  | .visited id => (excess? (visitsOf id trace + 1) (visits + 1)).toList
  | .inner inside => excessesOf visits inside
  | _ => []

def excessesOf (start : Nat) : List Event → List Excess
  | [] => []
  | e :: trace => e.excesses (start + spentOf trace) trace ++ excessesOf start trace

end

lemma overrun_excess {env : Setting} (hloops : env.options.detectLoops = true) (r : Run) (id : Nat) (e : Entity) :
    (overrun env r id e).map LoopError.excess = excess? (r.visitsAt id) r.visits := by
  have hv : (r.slots[id]?.map Slot.visits).getD 0 = r.visitsAt id := rfl
  by_cases hslot : slotLimit < r.visitsAt id <;> by_cases htotal : totalLimit < r.visits <;>
    simp [overrun, excess?, hloops, hv, hslot, htotal, LoopError.excess]

lemma overrun_of_unguarded {env : Setting} (hloops : env.options.detectLoops = false) (r : Run) (id : Nat) (e : Entity) :
    overrun env r id e = none := by
  simp [overrun, hloops]

structure Run.Accounted (env : Setting) (start : Nat) (r : Run) : Prop where
  slots : ∀ id, visitsOf id r.trace = r.visitsAt id
  error : r.error = (failuresOf r.trace).getLast?
  visits : r.visits = start + spentOf r.trace
  answered : (failuresOf r.trace).map LoopError.excess =
    if env.options.detectLoops then excessesOf start r.trace else []

namespace Run.Accounted

variable {env : Setting} {start : Nat} {r : Run}

lemma of_same (h : r.Accounted env start) {later : Run} (ht : later.trace = r.trace)
    (hs : ∀ id, later.visitsAt id = r.visitsAt id) (he : later.error = r.error) (hv : later.visits = r.visits) :
    later.Accounted env start := by
  refine ⟨fun id => ?_, ?_, ?_, ?_⟩
  · rw [ht, hs, h.slots]
  · rw [he, ht, h.error]
  · rw [hv, ht, h.visits]
  · rw [ht, h.answered]

lemma quiet (h : r.Accounted env start) (e : Event) (hv : ∀ id, e.isVisit id = false) (hf : e.failures = [])
    (hs : e.spent = 0) (hx : ∀ visits trace, e.excesses visits trace = []) : (r.note e).Accounted env start := by
  have hfailures : failuresOf (e :: r.trace) = failuresOf r.trace := by rw [failuresOf, hf, List.nil_append]
  have hspent : spentOf (e :: r.trace) = spentOf r.trace := by rw [spentOf, hs, Nat.zero_add]
  have hexcesses : excessesOf start (e :: r.trace) = excessesOf start r.trace := by
    rw [excessesOf, hx, List.nil_append]
  refine ⟨fun id => ?_, ?_, ?_, ?_⟩
  · change visitsOf id (e :: r.trace) = r.visitsAt id
    rw [visitsOf, List.countP_cons_of_neg (by simp [hv id]), ← h.slots, visitsOf]
  · exact h.error.trans (by rw [Run.note, hfailures])
  · exact h.visits.trans (by rw [Run.note, hspent])
  · rw [Run.note, hfailures, hexcesses]
    exact h.answered

lemma excesses_visited (h : r.Accounted env start) (hloops : env.options.detectLoops = true) {id : Nat} {e : Entity}
    (hlt : id < r.slots.length) :
    excessesOf start (.visited id :: r.trace) =
      ((overrun env (r.countVisit id) id e).map LoopError.excess).toList ++ excessesOf start r.trace := by
  rw [overrun_excess hloops, visitsAt_countVisit r id id hlt, if_pos rfl, ← h.slots, excessesOf, Event.excesses,
    ← h.visits]
  rfl

lemma countVisit (h : r.Accounted env start) {id : Nat} {e : Entity} (hlt : id < r.slots.length)
    (ho : overrun env (r.countVisit id) id e = none) : (r.countVisit id).Accounted env start := by
  refine ⟨fun other => ?_, h.error, ?_, ?_⟩
  · change visitsOf other (.visited id :: r.trace) = _
    rw [visitsAt_countVisit r id other hlt, ← h.slots, visitsOf, List.countP_cons]
    simp only [Event.isVisit, beq_iff_eq]
    rfl
  · change r.visits + 1 = start + (1 + spentOf r.trace)
    rw [h.visits]
    omega
  · change (failuresOf r.trace).map LoopError.excess = if _ then excessesOf start (.visited id :: r.trace) else []
    rw [h.answered]
    cases hloops : env.options.detectLoops with
    | false => rfl
    | true => rw [if_pos rfl, if_pos rfl, h.excesses_visited hloops (e := e) hlt, ho]; rfl

lemma fail (h : r.Accounted env start) {id : Nat} {e : Entity} {err : LoopError} (hlt : id < r.slots.length)
    (hn : r.error = none) (ho : overrun env (r.countVisit id) id e = some err) :
    ((r.countVisit id).fail err).Accounted env start := by
  have hloops : env.options.detectLoops = true := by
    cases hloops : env.options.detectLoops with
    | true => rfl
    | false => simp [overrun_of_unguarded hloops] at ho
  have hnone : failuresOf r.trace = [] := List.getLast?_eq_none_iff.mp (h.error.symm.trans hn)
  refine ⟨fun other => ?_, ?_, ?_, ?_⟩
  · change visitsOf other (.failed err :: .visited id :: r.trace) = (r.countVisit id).visitsAt other
    rw [visitsAt_countVisit r id other hlt, ← h.slots, visitsOf, List.countP_cons_of_neg (by simp [Event.isVisit]),
      List.countP_cons]
    simp only [Event.isVisit, beq_iff_eq]
    rfl
  · change some (r.error.getD err) = (err :: failuresOf r.trace).getLast?
    rw [hn, hnone]
    rfl
  · change r.visits + 1 = start + (0 + (1 + spentOf r.trace))
    rw [h.visits]
    omega
  · have hx := h.excesses_visited hloops (e := e) hlt
    change err.excess :: (failuresOf r.trace).map LoopError.excess = if _ then excessesOf start (.visited id :: r.trace) else []
    rw [hx, ho, h.answered, hloops]
    rfl

lemma absorb {f : Focus} (h : f.run.Accounted env start) {s : State} (hs : s.run.Accounted env f.run.visits) :
    (f.absorb s).2.run.Accounted env start := by
  have hslots : ∀ id, visitsOf id (.inner s.run.trace :: f.run.trace) = f.run.visitsAt id := by
    intro id
    rw [visitsOf, List.countP_cons_of_neg (by simp [Event.isVisit]), ← h.slots, visitsOf]
  have hanswered : (failuresOf (.inner s.run.trace :: f.run.trace)).map LoopError.excess =
      if env.options.detectLoops then excessesOf start (.inner s.run.trace :: f.run.trace) else [] := by
    rw [failuresOf, Event.failures, List.map_append, hs.answered, h.answered, excessesOf, Event.excesses, ← h.visits]
    split <;> rfl
  cases he : s.run.error with
  | some err =>
    have hsome : failuresOf s.run.trace ≠ [] := fun hnil => by
      rw [hs.error, hnil] at he
      cases he
    rw [Focus.absorb, he]
    refine ⟨hslots, ?_, ?_, hanswered⟩
    · change some (f.run.error.getD err) = (failuresOf s.run.trace ++ failuresOf f.run.trace).getLast?
      rw [List.getLast?_append, ← h.error, ← hs.error, he]
      cases f.run.error <;> rfl
    · change f.run.visits = start + ((if failuresOf s.run.trace = [] then _ else 0) + spentOf f.run.trace)
      rw [if_neg hsome, Nat.zero_add, h.visits]
  | none =>
    have hnone : failuresOf s.run.trace = [] := List.getLast?_eq_none_iff.mp (hs.error.symm.trans he)
    rw [Focus.absorb, he]
    refine ⟨hslots, ?_, ?_, hanswered⟩
    · change f.run.error = (failuresOf s.run.trace ++ failuresOf f.run.trace).getLast?
      rw [hnone, List.nil_append, h.error]
    · change s.run.visits = start + ((if failuresOf s.run.trace = [] then spentOf s.run.trace else 0) + spentOf f.run.trace)
      rw [if_pos hnone, hs.visits, h.visits]
      omega

lemma invariant (env : Setting) : Run.Invariant env (Run.Accounted env) where
  start tree block visits journal := by
    refine ⟨fun id => ?_, rfl, rfl, ?_⟩
    · cases id <;> rfl
    · cases env.options.detectLoops <;> rfl
  keep n r id key value force h := h.of_same rfl (fun _ => visitsAt_modifySlot r id _ _ fun _ => rfl) rfl rfl
  issue n r h := h.of_same rfl (fun _ => rfl) rfl rfl
  write n r entry h := h.of_same rfl (fun _ => rfl) rfl rfl
  count n r rule id h := (h.quiet (.fired rule id) (fun _ => rfl) rfl rfl fun _ _ => rfl).of_same rfl (fun _ => rfl) rfl rfl
  pop n r id h := h.quiet (.popped id) (fun _ => rfl) rfl rfl fun _ _ => rfl
  push n r kids hk h := h.of_same rfl (visitsAt_push r kids hk) rfl rfl
  visit n r id e h _ hlt ho := h.countVisit hlt ho
  fail n r id e err h hn hlt ho := h.fail hlt hn ho
  replace n r id around h :=
    (h.quiet (.replaced id) (fun _ => rfl) rfl rfl fun _ _ => rfl).of_same rfl
      (fun _ => visitsAt_modifySlot _ id _ _ fun _ => rfl) rfl rfl
  absorb n f s h hs := h.absorb hs

end Run.Accounted

structure Run.Within (r : Run) : Prop where
  slots : ∀ id, r.visitsAt id ≤ slotLimit
  total : r.visits ≤ totalLimit

def Run.Exact (r : Run) : Prop :=
  ∀ e ∈ failuresOf r.trace, e.excess = .slot (slotLimit + 1) ∨ e.excess = .total (totalLimit + 1)

section Exact

variable {env : Setting} {start : Nat} {r later : Run}

lemma Run.Within.of_same (h : r.Within) (hs : ∀ id, later.visitsAt id = r.visitsAt id) (hv : later.visits = r.visits) :
    later.Within where
  slots id := (hs id).trans_le (h.slots id)
  total := hv.trans_le h.total

lemma Run.Within.excess (h : r.Within) (hloops : env.options.detectLoops = true) {id : Nat} {e : Entity}
    {err : LoopError} (hlt : id < r.slots.length) (ho : overrun env (r.countVisit id) id e = some err) :
    err.excess = .slot (slotLimit + 1) ∨ err.excess = .total (totalLimit + 1) := by
  have hx := overrun_excess hloops (r.countVisit id) id e
  rw [ho, visitsAt_countVisit r id id hlt, if_pos rfl] at hx
  have hslot := h.slots id
  have htotal : (r.countVisit id).visits ≤ totalLimit + 1 := Nat.succ_le_succ h.total
  unfold excess? at hx
  split at hx
  · rename_i hover
    exact Or.inl ((Option.some.inj hx).trans (congrArg Excess.slot (Nat.le_antisymm (Nat.succ_le_succ hslot) hover)))
  · split at hx
    · rename_i hover
      exact Or.inr ((Option.some.inj hx).trans (congrArg Excess.total (Nat.le_antisymm htotal hover)))
    · cases hx

lemma Run.Within.countVisit (h : r.Within) (hloops : env.options.detectLoops = true) {id : Nat} {e : Entity}
    (hlt : id < r.slots.length) (ho : overrun env (r.countVisit id) id e = none) : (r.countVisit id).Within where
  slots other := by
    by_cases hid : id = other
    · subst hid
      exact visitsAt_le_of_allowed hloops ho
    · rw [visitsAt_countVisit r id other hlt, if_neg hid]
      exact h.slots other
  total := State.visits_le_of_allowed hloops ho

end Exact

structure Run.Settled (env : Setting) (start : Nat) (r : Run) : Prop where
  accounted : r.Accounted env start
  exact : start ≤ totalLimit → r.Exact
  within : start ≤ totalLimit → r.error = none → r.Within

structure Run.Engaged (env : Setting) (start : Nat) (r : Run) : Prop where
  accounted : r.Accounted env start
  exact : start ≤ totalLimit → r.Exact
  within : start ≤ totalLimit → r.Within

namespace Run.Engaged

variable {env : Setting} {start : Nat} {r : Run}

lemma of_same (h : r.Engaged env start) {later : Run} (hl : later.Accounted env start)
    (hf : failuresOf later.trace = failuresOf r.trace) (hs : ∀ id, later.visitsAt id = r.visitsAt id)
    (hv : later.visits = r.visits) : later.Engaged env start := by
  refine ⟨hl, fun hstart e he => ?_, fun hstart => (h.within hstart).of_same hs hv⟩
  rw [hf] at he
  exact h.exact hstart e he

lemma absorb {f : Focus} (h : f.run.Engaged env start) {s : State} (hs : s.run.Settled env f.run.visits) :
    (f.absorb s).2.run.Engaged env start := by
  refine ⟨h.accounted.absorb hs.accounted, fun hstart e he => ?_, fun hstart => ?_⟩
  · rw [trace_absorb] at he
    rcases List.mem_append.mp he with he | he
    · exact hs.exact (h.within hstart).total e he
    · exact h.exact hstart e he
  · have hf := h.within hstart
    cases he : s.run.error with
    | some err =>
      rw [Focus.absorb, he]
      exact hf.of_same (fun _ => rfl) rfl
    | none =>
      rw [Focus.absorb, he]
      exact ⟨hf.slots, (hs.within hf.total he).total⟩

end Run.Engaged

namespace Run.Settled

variable {env : Setting} {start : Nat} {r : Run}

lemma of_same (h : r.Settled env start) {later : Run} (hl : later.Accounted env start)
    (hf : failuresOf later.trace = failuresOf r.trace) (hs : ∀ id, later.visitsAt id = r.visitsAt id)
    (he : later.error = r.error) (hv : later.visits = r.visits) : later.Settled env start := by
  refine ⟨hl, fun hstart e hm => ?_, fun hstart hn => (h.within hstart (he.symm.trans hn)).of_same hs hv⟩
  rw [hf] at hm
  exact h.exact hstart e hm

lemma phases (hloops : env.options.detectLoops = true) : Run.Phases env (Run.Settled env) (Run.Engaged env) where
  start tree block visits journal := by
    refine ⟨(Run.Accounted.invariant env).start tree block visits journal, fun _ => nofun, fun hs _ => ⟨fun id => ?_, hs⟩⟩
    cases id <;> exact Nat.zero_le _
  pop n r id h := h.of_same ((Run.Accounted.invariant env).pop n r id h.accounted) rfl (fun _ => rfl) rfl rfl
  push n r kids hk h :=
    h.of_same ((Run.Accounted.invariant env).push n r kids hk h.accounted) rfl (visitsAt_push r kids hk) rfl rfl
  replace n r id around h := h.of_same ((Run.Accounted.invariant env).replace n r id around h.accounted) rfl
    (fun _ => visitsAt_modifySlot _ id _ _ fun _ => rfl) rfl rfl
  fail n r id e err h hn hlt ho := by
    refine ⟨h.accounted.fail hlt hn ho, fun hstart x hx => ?_, fun _ => nofun⟩
    rcases List.mem_cons.mp hx with rfl | hx
    · exact (h.within hstart hn).excess hloops hlt ho
    · exact h.exact hstart x hx
  visit n r id e h hn hlt ho :=
    ⟨h.accounted.countVisit hlt ho, h.exact, fun hstart => (h.within hstart hn).countVisit hloops hlt ho⟩
  keep n r id key value force h := h.of_same ((Run.Accounted.invariant env).keep n r id key value force h.accounted) rfl
    (fun _ => visitsAt_modifySlot r id _ _ fun _ => rfl) rfl
  issue n r h := h.of_same ((Run.Accounted.invariant env).issue n r h.accounted) rfl (fun _ => rfl) rfl
  write n r entry h := h.of_same ((Run.Accounted.invariant env).write n r entry h.accounted) rfl (fun _ => rfl) rfl
  count n r rule id h := h.of_same ((Run.Accounted.invariant env).count n r rule id h.accounted) rfl (fun _ => rfl) rfl
  absorb n f s h hs := h.absorb hs
  settle n r h := ⟨h.accounted, h.exact, fun hstart _ => h.within hstart⟩

end Run.Settled

/-- What an expansion comes to is the first error that was raised in it or in one inside it, and its tree if there is
none. Without loop detection there is none. With it, one is raised by every visit that crosses a limit, and by no
other, and each is raised at the first visit too many. -/
theorem Engine.result_eq_first_failure (engine : Engine) (tree : Node) (block : Option String) (deep : Bool)
    (journal : Journal) (fuel : Nat) (s : State) (h : engine.expand fuel tree block deep journal = some s) :
    (∀ e, s.result = .error e ↔ (failuresOf s.run.trace).getLast? = some e) ∧
    (∀ e, engine.report s = .error e ↔ (failuresOf s.run.trace).getLast? = some e) ∧
    (failuresOf s.run.trace = [] → s.result = .ok s.root) ∧
    (engine.options.detectLoops = false → failuresOf s.run.trace = []) ∧
    (engine.options.detectLoops = true → (failuresOf s.run.trace).map LoopError.excess = excessesOf 0 s.run.trace ∧
      ∀ e ∈ failuresOf s.run.trace, e.excess = .slot 101 ∨ e.excess = .total 1001) := by
  have ha : s.run.Accounted engine.setting 0 := (Run.Accounted.invariant engine.setting).expand h
  have hanswered : (failuresOf s.run.trace).map LoopError.excess =
      if engine.options.detectLoops then excessesOf 0 s.run.trace else [] := ha.answered
  refine ⟨fun e => ?_, fun e => ?_, fun hnil => ?_, fun hoff => ?_, fun hon => ⟨?_, ?_⟩⟩
  · rw [← ha.error, State.result]
    cases s.run.error <;> simp
  · rw [← ha.error, Engine.report, State.result]
    cases s.run.error <;> simp [Except.map]
  · rw [State.result, ha.error, hnil]
    rfl
  · rw [hoff] at hanswered
    exact List.map_eq_nil_iff.mp hanswered
  · rwa [hon] at hanswered
  · have hs : s.run.Settled engine.setting 0 := (Run.Settled.phases hon).expand h
    exact hs.exact (Nat.zero_le _)

theorem first_failure_of_spin_twice : ∃ s,
    (spinning 2).expand 110 (.entity { block := some "outer" }) none true {} = some s ∧
    failuresOf s.run.trace = [.slot "spin" 101, .slot "spin" 101] ∧ s.result = .error (.slot "spin" 101) := by
  have hrun : ((spinning 2).expand 110 (.entity { block := some "outer" }) none true {}).map
      (fun s => failuresOf s.run.trace) = some [.slot "spin" 101, .slot "spin" 101] := by decide +kernel
  obtain ⟨s, hs, hf⟩ := Option.map_eq_some_iff.mp hrun
  obtain ⟨hresult, _⟩ := (spinning 2).result_eq_first_failure _ none true {} 110 s hs
  exact ⟨s, hs, hf, (hresult _).mpr (by rw [hf]; rfl)⟩

end Bemjson
