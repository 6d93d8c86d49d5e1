import Bemjson.Proofs.LoopGuard.Ends
import Bemjson.Proofs.LoopGuard.Tally

/-! With loop detection, one budget of visits is shared by an expansion and those inside it, until one is aborted. -/

namespace Bemjson

variable {env : Setting} {deep : Bool}

/-- A trace that an expansion has left at some moment, between two steps or while rules are at work, with the trace so
far of the expansion inside that is at work then. -/
inductive State.Moment (env : Setting) : Bool → State → List Event → Prop
  | between (deep : Bool) (first s : State) : first.Reaches env (.unbounded env) deep s →
      Moment env deep first s.run.trace
  | call (deep : Bool) (first s : State) (f g h : Focus) (c : Call) : first.Reaches env (.unbounded env) deep s →
      s.Visits env f → Relation.ReflTransGen (Focus.Reenters env) f g → g.Asks env c h → Moment env deep first h.run.trace
  | inner (deep : Bool) (first s : State) (f g h : Focus) (tree : Node) (trace : List Event) :
      first.Reaches env (.unbounded env) deep s → s.Visits env f → Relation.ReflTransGen (Focus.Reenters env) f g →
      g.Asks env (.expand tree) h → Moment env true (h.inner env tree) trace →
      Moment env deep first (.inner trace :: h.run.trace)

lemma visitsAt_le_of_allowed (hloops : env.options.detectLoops = true) {r : Run} {id : Nat} {e : Entity}
    (h : overrun env r id e = none) : r.visitsAt id ≤ slotLimit := by
  simp only [overrun, hloops, Bool.not_true, Bool.false_eq_true, if_false] at h
  split at h
  · cases h
  · rename_i hslot
    exact Nat.le_of_not_lt hslot

structure Run.Guarded (start : Nat) (r : Run) : Prop where
  tallied : r.Tallied start
  sound : start ≤ totalLimit → r.error = none → Calm r.trace ∧ r.visits ≤ totalLimit
  budget : start ≤ totalLimit → restarted r.trace = true ∨ start + totalOf r.trace ≤ totalLimit + 1

namespace Run.Guarded

variable {start : Nat} {r : Run}

lemma of_same (h : r.Guarded start) {later : Run} (hl : later.Tallied start) (ht : later.trace = r.trace)
    (he : later.error = r.error) (hv : later.visits = r.visits) : later.Guarded start where
  tallied := hl
  sound hs hn := by
    rw [ht, hv]
    exact h.sound hs (he.symm.trans hn)
  budget hs := by
    rw [ht]
    exact h.budget hs

lemma quiet (h : r.Guarded start) (e : Event) (hv : ∀ id, e.isVisit id = false) (ht : e.total = 0)
    (ha : e.aborts = false) (hi : e.isInner = false) : (r.note e).Guarded start where
  tallied := h.tallied.quiet e hv ht ha
  sound hs hn := by
    obtain ⟨hcalm, hle⟩ := h.sound hs hn
    refine ⟨hcalm.cons_quiet e hv ?_, hle⟩
    rintro inside rfl
    cases hi
  budget hs := by
    change restarted (e :: r.trace) = true ∨ start + (e.total + totalOf r.trace) ≤ _
    rw [ht, Nat.zero_add, restarted, Bool.or_eq_true]
    exact (h.budget hs).imp_left Or.inr

lemma spent (h : r.Guarded start) (hs : start ≤ totalLimit) (hn : r.error = none) :
    start + totalOf r.trace ≤ totalLimit := by
  rw [← h.tallied.total hn]
  exact (h.sound hs hn).2

lemma countVisit (hloops : env.options.detectLoops = true) (h : r.Guarded start) {id : Nat} {e : Entity}
    (hlt : id < r.slots.length) (hn : r.error = none) (ho : overrun env (r.countVisit id) id e = none) :
    (r.countVisit id).Guarded start where
  tallied := h.tallied.countVisit hlt
  sound hs _ := by
    refine ⟨?_, State.visits_le_of_allowed hloops ho⟩
    apply (h.sound hs hn).1.cons (.visited id) _ nofun
    intro other
    by_cases hid : id = other
    · subst hid
      exact ((h.tallied.countVisit hlt).slots id).trans_le (visitsAt_le_of_allowed hloops ho)
    · rw [visitsOf, List.countP_cons_of_neg (by simpa [Event.isVisit] using hid)]
      exact (h.sound hs hn).1.slots other
  budget hs := by
    refine Or.inr ?_
    change start + (1 + totalOf r.trace) ≤ _
    have := h.spent hs hn
    omega

lemma fail (h : r.Guarded start) {id : Nat} (hlt : id < r.slots.length) (hn : r.error = none) (err : LoopError) :
    ((r.countVisit id).fail err).Guarded start where
  tallied := (h.tallied.countVisit hlt).fail err
  sound _ hn := nomatch hn
  budget hs := by
    refine Or.inr ?_
    change start + (0 + (1 + totalOf r.trace)) ≤ _
    have := h.spent hs hn
    omega

lemma inner (h : r.Guarded start) (hs : start ≤ totalLimit) {trace : List Event}
    (ht : r.visits ≤ totalLimit → restarted trace = true ∨ r.visits + totalOf trace ≤ totalLimit + 1) :
    restarted (.inner trace :: r.trace) = true ∨ start + totalOf (.inner trace :: r.trace) ≤ totalLimit + 1 := by
  cases he : r.error with
  | some e =>
    -- An error that has not ended the run comes from an abort inside it, so the run inside now is a restart.
    have habort : aborted r.trace = true := by rw [← h.tallied.error, he, Option.isSome_some]
    exact Or.inl (by simp [restarted, Event.isInner, habort])
  | none =>
    rcases ht (h.sound hs he).2 with hr | hle
    · exact Or.inl (by simp [restarted, Event.restarts, hr])
    · refine Or.inr ?_
      have htotal := h.tallied.total he
      change start + (totalOf trace + totalOf r.trace) ≤ _
      omega

lemma absorb {f : Focus} (h : f.run.Guarded start) {s : State} (hs : s.run.Guarded f.run.visits) :
    (f.absorb s).2.run.Guarded start where
  tallied := h.tallied.absorb hs.tallied
  sound hstart := by
    cases he : s.run.error with
    | some e =>
      rw [Focus.absorb, he]
      exact fun hn => absurd hn (Option.some_ne_none _)
    | none =>
      rw [Focus.absorb, he]
      intro hn
      obtain ⟨hcalm, hle⟩ := h.sound hstart hn
      obtain ⟨hinside, hspent⟩ := hs.sound hle he
      refine ⟨hcalm.cons_quiet _ (fun _ => rfl) ?_, hspent⟩
      rintro inside ⟨⟩
      exact hinside
  budget hstart := by
    rw [trace_absorb]
    exact h.inner hstart hs.budget

lemma invariant (hloops : env.options.detectLoops = true) : Run.Invariant env Run.Guarded where
  start tree block visits journal := by
    refine ⟨(Run.Tallied.invariant env).start tree block visits journal, fun hs _ => ⟨.nil, hs⟩, fun hs => Or.inr ?_⟩
    exact Nat.le_succ_of_le hs
  keep n r id key value force h := h.of_same ((Run.Tallied.invariant env).keep n r id key value force h.tallied) rfl rfl rfl
  issue n r h := h.of_same ((Run.Tallied.invariant env).issue n r h.tallied) rfl rfl rfl
  write n r entry h := h.of_same ((Run.Tallied.invariant env).write n r entry h.tallied) rfl rfl rfl
  count n r rule id h := (h.quiet (.fired rule id) (fun _ => rfl) rfl rfl rfl).of_same
    ((Run.Tallied.invariant env).count n r rule id h.tallied) rfl rfl rfl
  pop n r id h := h.quiet (.popped id) (fun _ => rfl) rfl rfl rfl
  push n r kids hk h := h.of_same ((Run.Tallied.invariant env).push n r kids hk h.tallied) rfl rfl rfl
  visit n r id e h hn hlt ho := h.countVisit hloops hlt hn ho
  fail n r id e err h hn hlt _ := h.fail hlt hn err
  replace n r id around h := (h.quiet (.replaced id) (fun _ => rfl) rfl rfl rfl).of_same
    ((Run.Tallied.invariant env).replace n r id around h.tallied) rfl rfl rfl
  absorb n f s h hs := h.absorb hs

end Run.Guarded

section Moments

variable {P : Nat → Run → Prop}

lemma Run.Invariant.visits (hP : Run.Invariant env P) {n : Nat} {s : State} {f : Focus} (hs : P n s.run)
    (hf : s.Visits env f) : P n f.run := by
  obtain ⟨he, id, queue, slot, e, _, hslot, _, ho, rfl, _⟩ := hf
  exact hP.visit n _ id _ (hP.pop n s.run id hs) he (List.getElem?_eq_some_iff.mp hslot).1 ho

lemma Run.Invariant.asks (hP : Run.Invariant env P) {n : Nat} {f g h : Focus} {c : Call} (hf : P n f.run)
    (hfg : Relation.ReflTransGen (Focus.Reenters env) f g) (hasks : g.Asks env c h) : P n h.run := by
  have hreenters : ∀ g, Relation.ReflTransGen (Focus.Reenters env) f g → P n g.run := by
    intro g hfg
    induction hfg with
    | refl => exact hf
    | tail _ hre ih => exact Focus.Asks.within hP.unbounded hP.closed hre n ih
  exact hasks.within hP.unbounded hP.closed n (hreenters g hfg)

lemma State.Moment.budget (hloops : env.options.detectLoops = true) {first : State} {trace : List Event}
    (h : first.Moment env deep trace) {n : Nat} (hn : n ≤ totalLimit) (hfirst : first.run.Guarded n) :
    restarted trace = true ∨ n + totalOf trace ≤ totalLimit + 1 := by
  have hP := Run.Guarded.invariant hloops
  have hreaches : ∀ {deep n first s}, State.Reaches env (.unbounded env) deep first s → first.run.Guarded n →
      s.run.Guarded n := fun hr hf => hP.reaches hP.unbounded (unbounded_within env) hf hr
  induction h generalizing n with
  | between deep first s hr => exact (hreaches hr hfirst).budget hn
  | call deep first s f g h c hr hf hfg hasks =>
    exact (hP.asks (hP.visits (hreaches hr hfirst) hf) hfg hasks).budget hn
  | inner deep first s f g h tree trace hr hf hfg hasks _ ih =>
    have hh : h.run.Guarded n := hP.asks (hP.visits (hreaches hr hfirst) hf) hfg hasks
    exact hh.inner hn fun hle => ih hle (hP.start _ _ _ _)

end Moments

/-- With loop detection no more than the allowed visits, and one, are ever made in an expansion and all those inside
it, also while it goes on, unless a rule has a tree expanded after an expansion inside the same one was aborted. An
expansion that comes to a tree keeps within the limit in any case. -/
theorem total_le_or_restarted (engine : Engine) (hloops : engine.options.detectLoops = true) (tree : Node)
    (block : Option String) (deep : Bool) (journal : Journal) :
    (∀ trace, (State.start engine.setting tree block 0 journal).Moment engine.setting deep trace →
      restarted trace = true ∨ totalOf trace ≤ totalLimit + 1) ∧
    ∀ fuel s, engine.expand fuel tree block deep journal = some s →
      (restarted s.run.trace = true ∨ totalOf s.run.trace ≤ totalLimit + 1) ∧
        (s.run.error = none → totalOf s.run.trace ≤ totalLimit) := by
  have hP : Run.Invariant engine.setting Run.Guarded := Run.Guarded.invariant hloops
  refine ⟨fun trace h => ?_, fun fuel s h => ?_⟩
  · simpa using h.budget hloops (Nat.zero_le _) (hP.start tree block 0 journal)
  · have hs : s.run.Guarded 0 := hP.expand h
    refine ⟨by simpa using hs.budget (Nat.zero_le _), fun he => ?_⟩
    simpa using hs.spent (Nat.zero_le _) he

section Spinning

def spin : Node := .entity { block := some "spin" }

def expandings : Nat → Body
  | 0 => .done none
  | n + 1 => .call (.expand spin) fun reply => .call (.edit (.content reply) true) fun _ => expandings n

def spinning (n : Nat) : Engine where
  rules := [⟨.selector { block := { name := "outer", cond := none }, elem := none }, expandings n⟩,
    ⟨.selector { block := { name := "spin", cond := none }, elem := none },
      .call (.log (.number (.int 1))) fun _ => .done (some spin)⟩]
  options := { detectLoops := true }

def spinTrace (n : Nat) : Option (List Event) :=
  ((spinning n).expand 110 (.entity { block := some "outer" }) none true {}).map fun s => s.run.trace

theorem total_le_of_spin_once : (spinning 1).options.detectLoops = true ∧
    ∃ trace, spinTrace 1 = some trace ∧ aborted trace = true ∧ totalOf trace ≤ totalLimit + 1 := by
  have habort : (spinTrace 1).map (fun trace => (aborted trace, restarted trace)) = some (true, false) := by
    decide +kernel
  obtain ⟨trace, htrace, he⟩ := Option.map_eq_some_iff.mp habort
  obtain ⟨s, hs, rfl⟩ := Option.map_eq_some_iff.mp htrace
  have hrestarted : restarted s.run.trace = false := congrArg Prod.snd he
  refine ⟨rfl, s.run.trace, htrace, congrArg Prod.fst he, ?_⟩
  obtain ⟨hbudget, _⟩ :=
    (total_le_or_restarted (spinning 1) rfl (.entity { block := some "outer" }) none true {}).2 110 s hs
  exact hbudget.resolve_left (by simp [hrestarted])

theorem total_gt_of_spin_ten : (spinning 10).options.detectLoops = true ∧
    ∃ trace, spinTrace 10 = some trace ∧ totalOf trace = 1011 ∧ totalLimit + 1 < totalOf trace := by
  have htotal : (spinTrace 10).map totalOf = some 1011 := by decide +kernel
  obtain ⟨trace, htrace, he⟩ := Option.map_eq_some_iff.mp htotal
  exact ⟨rfl, trace, htrace, he, by rw [he]; decide⟩

end Spinning

end Bemjson
