import Bemjson.Proofs.Fuel

/-! What rules leave as it is while they run on the node of a slot. -/

namespace Bemjson

structure Focus.Closed (env : Setting) (R : Focus → Focus → Prop) : Prop where
  refl : ∀ f, R f f
  trans : ∀ f g h, R f g → R g h → R f h
  change : ∀ f c, R f (f.mapEntity c)
  keep : ∀ f key value force, R f (f.mapRun fun r => r.keep f.slot key value force)
  issue : ∀ f, R f { f with run := (f.run.issueId env.idStart).2 }
  write : ∀ f entry, R f (f.mapRun fun r => r.write entry)
  count : ∀ f id, R f (f.mapRun fun r => r.countFire id f.slot)
  replace : ∀ f n, R f (f.replace n)

/-- What the calls of a body do by themselves, without the rules that they run in turn. -/
structure Focus.Carried (env : Setting) (R : Focus → Focus → Prop) : Prop where
  refl : ∀ f, R f f
  trans : ∀ f g h, R f g → R g h → R f h
  edit : ∀ f change force, R f (f.mapEntity fun e => e.edit force change)
  stop : ∀ f, R f (f.mapEntity fun e => { e with stopped := true })
  keep : ∀ f key value force, R f (f.mapRun fun r => r.keep f.slot key value force)
  issue : ∀ f, R f { f with run := (f.run.issueId env.idStart).2 }
  write : ∀ f entry, R f (f.mapRun fun r => r.write entry)

lemma Focus.Closed.carried {env : Setting} {R : Focus → Focus → Prop} (hR : Focus.Closed env R) : Focus.Carried env R :=
  ⟨hR.refl, hR.trans, fun f _ _ => hR.change f _, fun f => hR.change f _, hR.keep, hR.issue, hR.write⟩

structure Nested.Within (nested : Nested) (R : Focus → Focus → Prop) : Prop where
  tryRest : ∀ f g, nested.tryRest f = some g → R f g
  expand : ∀ tree f n g, nested.expand tree f = some (n, g) → R f g

def RuleIndex.Lists (index : RuleIndex) (c : Candidate) : Prop :=
  c ∈ index.before ∨ (∃ block elem, c ∈ index.candidates block elem) ∨ c ∈ index.after

section Closure

variable {env : Setting} {nested : Nested} {R : Focus → Focus → Prop}

lemma perform_within (hR : Focus.Carried env R) (hn : nested.Within R) (f g : Focus) (c : Call) (reply : c.Reply)
    (h : c.perform env nested f = some (reply, g)) : R f g := by
  cases c with
  | edit change force =>
    cases h
    exact hR.edit f change force
  | keep key value force =>
    cases h
    exact hR.keep f key value force
  | stop =>
    cases h
    exact hR.stop f
  | tryRest =>
    obtain ⟨g', hg, he⟩ := Option.map_eq_some_iff.mp h
    cases he
    exact hn.tryRest f g hg
  | expand tree => exact hn.expand tree f reply g h
  | freshId =>
    cases h
    exact hR.issue f
  | log entry =>
    cases h
    exact hR.write f entry
  | _ =>
    cases h
    exact hR.refl _

lemma exec_within (hR : Focus.Carried env R) (hn : nested.Within R) {α : Type} (p : Program α) (f g : Focus) (a : α)
    (h : p.exec env nested f = some (a, g)) : R f g := by
  induction p generalizing f with
  | done b =>
    cases h
    exact hR.refl _
  | call c next ih =>
    obtain ⟨⟨reply, f'⟩, hc, hp⟩ := Option.bind_eq_some_iff.mp h
    exact hR.trans f f' g (perform_within hR hn f f' c reply hc) (ih reply f' hp)

section Trials

variable (hrefl : ∀ f, R f f) (htrans : ∀ f g h, R f g → R g h → R f h)
include hrefl htrans

lemma tryRules_of_fire (cs : List Candidate)
    (hfire : ∀ c ∈ cs, ∀ f g b, f.node.entity?.any c.accepts → fire env nested c.id f = some (b, g) → R f g)
    (f g : Focus) (ended : Option Fate) (h : tryRules env nested cs f = some (ended, g)) : R f g := by
  induction cs generalizing f with
  | nil =>
    cases h
    exact hrefl _
  | cons c cs ih =>
    have hrest := ih fun d hd => hfire d (List.mem_cons_of_mem c hd)
    simp only [tryRules] at h
    split at h
    · rename_i haccepts
      obtain ⟨⟨b, f'⟩, hf, he⟩ := Option.bind_eq_some_iff.mp h
      have hb := hfire c List.mem_cons_self f f' b haccepts hf
      cases b with
      | true =>
        cases he
        exact hb
      | false =>
        simp only at he
        split at he
        · exact htrans f f' g hb (hrest f' he)
        · cases he
          exact hb
    · exact hrest f h

lemma tryAll_of_fire
    (hfire : ∀ c, env.index.Lists c → ∀ f g b, f.node.entity?.any c.accepts → fire env nested c.id f = some (b, g) → R f g)
    (f g : Focus) (fate : Fate) (h : tryAll env nested f = some (fate, g)) : R f g := by
  obtain ⟨⟨ended, f'⟩, hf, he⟩ := Option.bind_eq_some_iff.mp h
  have hb := tryRules_of_fire hrefl htrans _ (fun c hc => hfire c (Or.inl hc)) f f' ended hf
  cases ended with
  | some fate' =>
    cases he
    exact hb
  | none =>
    simp only at he
    split at he
    · cases he
      exact hb
    · obtain ⟨⟨ended', g'⟩, hg, heq⟩ := Option.map_eq_some_iff.mp he
      cases heq
      refine htrans _ _ _ hb (tryRules_of_fire hrefl htrans _ (fun c hc => hfire c (Or.inr ?_)) _ _ _ hg)
      exact (List.mem_append.mp hc).imp_left fun hc => ⟨_, _, hc⟩

end Trials

lemma fire_within (hR : Focus.Closed env R) (hn : nested.Within R) (id : Nat) (f g : Focus) (b : Bool)
    (h : fire env nested id f = some (b, g)) : R f g := by
  have hs := hR.trans _ _ _ (hR.change f fun e => e.fire id) (hR.count (f.mapEntity fun e => e.fire id) id)
  simp only [fire] at h
  split at h
  · cases h
    exact hs
  · obtain ⟨⟨ending, f'⟩, hp, he⟩ := Option.map_eq_some_iff.mp h
    have hb := hR.trans _ _ _ hs (exec_within hR.carried hn _ _ f' ending hp)
    cases ending with
    | none =>
      cases he
      exact hb
    | some n =>
      cases he
      exact hR.trans _ _ _ hb (hR.replace f' n)

lemma tryRules_within (hR : Focus.Closed env R) (hn : nested.Within R) (cs : List Candidate) (f g : Focus)
    (ended : Option Fate) (h : tryRules env nested cs f = some (ended, g)) : R f g :=
  tryRules_of_fire hR.refl hR.trans cs (fun c _ f g b _ h => fire_within hR hn c.id f g b h) f g ended h

lemma tryAll_within (hR : Focus.Closed env R) (hn : nested.Within R) (f g : Focus) (fate : Fate)
    (h : tryAll env nested f = some (fate, g)) : R f g :=
  tryAll_of_fire hR.refl hR.trans (fun c _ f g b _ h => fire_within hR hn c.id f g b h) f g fate h

end Closure

section Fate

variable {env : Setting} {nested : Nested}

lemma fire_replaced {id : Nat} {f g : Focus} {b : Bool} (h : fire env nested id f = some (b, g)) :
    g.replaced = b := by
  simp only [fire] at h
  split at h
  · cases h
    exact rfl
  · obtain ⟨⟨ending, f'⟩, _, he⟩ := Option.map_eq_some_iff.mp h
    cases ending <;> cases he <;> rfl

lemma tryRules_replaced {cs : List Candidate} {f g : Focus} {ended : Option Fate} (hf : f.replaced = false)
    (h : tryRules env nested cs f = some (ended, g)) : g.replaced = true ↔ ended = some .replaced := by
  induction cs generalizing f with
  | nil =>
    cases h
    simp [hf]
  | cons c cs ih =>
    simp only [tryRules] at h
    split at h
    · obtain ⟨⟨b, f'⟩, hb, he⟩ := Option.bind_eq_some_iff.mp h
      have hr := fire_replaced hb
      cases b with
      | true =>
        cases he
        simp [hr]
      | false =>
        simp only at he
        split at he
        · exact ih hr he
        · cases he
          simp [hr]
    · exact ih hf h

lemma tryAll_replaced {f g : Focus} {fate : Fate} (hf : f.replaced = false)
    (h : tryAll env nested f = some (fate, g)) : g.replaced = true ↔ fate = .replaced := by
  obtain ⟨⟨ended, f'⟩, hb, he⟩ := Option.bind_eq_some_iff.mp h
  have hr := tryRules_replaced hf hb
  cases ended with
  | some fate' =>
    cases he
    simpa using hr
  | none =>
    have hf' : f'.replaced = false := by simpa using hr
    simp only at he
    split at he
    · cases he
      simp [hf']
    · obtain ⟨⟨ended', g'⟩, hg, heq⟩ := Option.map_eq_some_iff.mp he
      cases heq
      have hg' := tryRules_replaced hf' hg
      cases ended' with
      | none => simpa using hg'
      | some fate' => simpa using hg'

end Fate

section Absorb

lemma node_absorb (f : Focus) (s : State) : (f.absorb s).2.node = f.node := by
  cases h : s.run.error <;> simp [Focus.absorb, h]

lemma trace_absorb (f : Focus) (s : State) : (f.absorb s).2.run.trace = .inner s.run.trace :: f.run.trace := by
  cases h : s.run.error <;> simp [Focus.absorb, h, Run.note]

end Absorb

structure Run.Before (r later : Run) : Prop where
  visits : r.visits ≤ later.visits
  sound : later.error = none → r.error = none
  trace : r.trace <:+ later.trace

namespace Run.Before

variable {r later : Run}

lemma refl (r : Run) : r.Before r := ⟨Nat.le_refl _, fun h => h, List.suffix_refl _⟩

lemma trans {last : Run} (h : r.Before later) (hl : later.Before last) : r.Before last :=
  ⟨Nat.le_trans h.visits hl.visits, h.sound ∘ hl.sound, h.trace.trans hl.trace⟩

lemma of_eq (hv : later.visits = r.visits) (he : later.error = r.error) (ht : later.trace = r.trace) :
    r.Before later :=
  ⟨Nat.le_of_eq hv.symm, he.symm.trans, ht ▸ List.suffix_refl _⟩

lemma note (r : Run) (e : Event) : r.Before (r.note e) := ⟨Nat.le_refl _, fun h => h, List.suffix_cons e r.trace⟩

lemma countVisit (r : Run) (id : Nat) : r.Before (r.countVisit id) :=
  ⟨Nat.le_succ _, fun h => h, List.suffix_cons _ r.trace⟩

lemma fail (r : Run) (e : LoopError) : r.Before (r.fail e) := ⟨Nat.le_refl _, nofun, List.suffix_cons _ r.trace⟩

lemma countReplacement (r : Run) (id : Nat) (around : Ambient) : r.Before (r.countReplacement id around) :=
  ⟨Nat.le_refl _, fun h => h, List.suffix_cons _ r.trace⟩

lemma absorb (f : Focus) (s : State) (h : f.run.visits ≤ s.run.visits) : f.run.Before (f.absorb s).2.run := by
  cases he : s.run.error with
  | some e =>
    rw [Focus.absorb, he]
    exact ⟨Nat.le_refl _, nofun, List.suffix_cons _ f.run.trace⟩
  | none =>
    rw [Focus.absorb, he]
    exact ⟨h, fun h => h, List.suffix_cons _ f.run.trace⟩

end Run.Before

structure Focus.Onward (f g : Focus) : Prop where
  slot : g.slot = f.slot
  slots : ∃ kept, g.run.slots = f.run.slots.modify f.slot fun s => { s with kept }
  replacements : g.run.replacements = f.run.replacements
  run : f.run.Before g.run
  entity : g.replaced = false → g.node.entity?.isSome = f.node.entity?.isSome
  replaced : f.replaced = true → g.replaced = true

lemma modify_kept_self (slots : List Slot) (id : Nat) :
    ∃ kept, slots = slots.modify id fun s => { s with kept } := by
  refine ⟨(slots[id]?.map Slot.kept).getD [], ?_⟩
  apply List.ext_getElem?
  intro j
  rw [List.getElem?_modify]
  by_cases hj : id = j
  · subst hj
    cases slots[id]? <;> simp
  · simp [hj]

namespace Focus.Onward

lemma of_slots {f g : Focus} (hs : g.slot = f.slot) (hl : g.run.slots = f.run.slots)
    (hr : g.run.replacements = f.run.replacements) (hb : f.run.Before g.run)
    (he : g.node.entity?.isSome = f.node.entity?.isSome) (hp : g.replaced = f.replaced) : f.Onward g where
  slot := hs
  slots := by
    rw [hl]
    exact modify_kept_self _ _
  replacements := hr
  run := hb
  entity _ := he
  replaced h := hp.trans h

lemma closed (env : Setting) : Focus.Closed env Focus.Onward where
  refl f := of_slots rfl rfl rfl (.refl _) rfl rfl
  trans f g h hfg hgh := by
    obtain ⟨a, ha⟩ := hfg.slots
    obtain ⟨b, hb⟩ := hgh.slots
    refine ⟨hgh.slot.trans hfg.slot, ⟨b, ?_⟩, hgh.replacements.trans hfg.replacements,
      hfg.run.trans hgh.run, ?_, fun hf => hgh.replaced (hfg.replaced hf)⟩
    · rw [hb, ha, hfg.slot, List.modify_modify_eq]
      rfl
    · intro hr
      have hg : g.replaced = false := by
        cases hg : g.replaced with
        | false => rfl
        | true => exact absurd (hgh.replaced hg) (by simp [hr])
      exact (hgh.entity hr).trans (hfg.entity hg)
  change f c := by
    refine of_slots rfl rfl rfl (.refl _) ?_ rfl
    cases h : f.node <;> simp [Focus.mapEntity, Node.mapEntity, Node.entity?, h]
  keep f key value force := by
    refine ⟨rfl, ⟨((f.run.slots[f.slot]?.map Slot.kept).getD []).put force key value, ?_⟩, rfl, .of_eq rfl rfl rfl,
      fun _ => rfl, id⟩
    apply List.ext_getElem?
    intro j
    simp only [Focus.mapRun, Run.keep, Run.modifySlot, List.getElem?_modify]
    by_cases hj : f.slot = j
    · subst hj
      cases f.run.slots[f.slot]? <;> simp
    · simp [hj]
  issue f := of_slots rfl rfl rfl (.of_eq rfl rfl rfl) rfl rfl
  write f entry := of_slots rfl rfl rfl (.of_eq rfl rfl rfl) rfl rfl
  count f id := of_slots rfl rfl rfl ⟨Nat.le_refl _, fun h => h, List.suffix_cons _ f.run.trace⟩ rfl rfl
  replace f n := by
    refine ⟨rfl, modify_kept_self _ _, rfl, .refl _, ?_, fun _ => rfl⟩
    intro hr
    cases hr

lemma absorb (f : Focus) (s : State) (h : f.run.visits ≤ s.run.visits) : f.Onward (f.absorb s).2 := by
  have hb := Run.Before.absorb f s h
  cases he : s.run.error with
  | some e =>
    rw [Focus.absorb, he] at hb ⊢
    exact of_slots rfl rfl rfl hb rfl rfl
  | none =>
    rw [Focus.absorb, he] at hb ⊢
    exact of_slots rfl rfl rfl hb rfl rfl

end Focus.Onward

section Later

variable {env : Setting} {nested : Nested}

lemma tryAll_onward (hn : nested.Within Focus.Onward) {f g : Focus} {fate : Fate}
    (h : tryAll env nested f = some (fate, g)) : f.Onward g :=
  tryAll_within (Focus.Onward.closed env) hn f g fate h

lemma pushContent_before (s : State) (id : Nat) (path : Path) (around : Ambient) (content : Option Node) :
    s.run.Before (s.pushContent id path around content).run := by
  unfold State.pushContent
  split <;> exact .of_eq rfl rfl rfl

lemma descend_before (deep : Bool) (id : Nat) (path : Path) (around : Ambient) (n : Node) (s : State) :
    s.run.Before (descend deep id path around n s).run := by
  unfold descend
  split
  · exact pushContent_before _ _ _ _ _
  · exact .refl _

lemma settle_before (deep : Bool) (id : Nat) (path : Path) (around : Ambient) (s : State) (fate : Fate) (f : Focus) :
    f.run.Before (settle deep id path around s fate f).run := by
  unfold settle
  split
  · exact .refl _
  · exact descend_before deep id path around f.node { s with root := s.root.setAt f.node path, run := f.run }
  · exact .countReplacement f.run id around

lemma attend_before (hn : nested.Within Focus.Onward) {deep : Bool} {id : Nat} {s t : State}
    (h : attend env nested deep id s = some t) : s.run.Before t.run := by
  have hpop := Run.Before.note s.run (.popped id)
  have hvisit := hpop.trans (.countVisit _ id)
  simp only [attend] at h
  split at h
  · cases h
    exact hpop
  · split at h
    · cases h
      exact hpop.trans (.of_eq rfl rfl rfl)
    · simp only [visit] at h
      split at h
      · cases h
        exact hvisit.trans (.fail _ _)
      · split at h
        · cases h
          apply hvisit.trans
          exact settle_before deep id _ _ _ .kept
            { node := _, slot := id, run := (s.run.note (.popped id)).countVisit id }
        · obtain ⟨⟨fate, f⟩, hf, rfl⟩ := Option.map_eq_some_iff.mp h
          exact (hvisit.trans (tryAll_onward hn hf).run).trans (settle_before deep id _ _ _ fate f)
    · cases h
      exact hpop

lemma drain_before (hn : nested.Within Focus.Onward) {deep : Bool} {steps : Nat} {s t : State}
    (h : drain env nested deep steps s = some t) : s.run.Before t.run := by
  induction steps generalizing s with
  | zero => cases h
  | succ steps ih =>
    simp only [drain] at h
    split at h
    · cases h
      exact .refl _
    · cases h
      exact .refl _
    · obtain ⟨u, hu, ht⟩ := Option.bind_eq_some_iff.mp h
      have hs := attend_before hn hu
      have hr := ih ht
      exact hs.trans hr

lemma ofFuel_within_of {R : Focus → Focus → Prop}
    (htry : ∀ fuel, (Nested.ofFuel env fuel).Within R → ∀ f g fate,
      tryAll env (.ofFuel env fuel) f = some (fate, g) → R f g)
    (habsorb : ∀ fuel, (Nested.ofFuel env fuel).Within R → ∀ f tree s,
      drain env (.ofFuel env fuel) true fuel (f.inner env tree) = some s → R f (f.absorb s).2) (fuel : Nat) :
    (Nested.ofFuel env fuel).Within R := by
  induction fuel with
  | zero => exact ⟨fun f g h => (by cases h), fun tree f n g h => (by cases h)⟩
  | succ fuel ih =>
    constructor
    · intro f g h
      obtain ⟨⟨fate, g'⟩, hf, rfl⟩ := Option.map_eq_some_iff.mp h
      exact htry fuel ih f g' fate hf
    · intro tree f n g h
      obtain ⟨s, hs, hr⟩ := Option.map_eq_some_iff.mp h
      have hg := habsorb fuel ih f tree s hs
      rwa [hr] at hg

lemma unbounded_within_of {R : Focus → Focus → Prop} (h : ∀ fuel, (Nested.ofFuel env fuel).Within R) :
    (Nested.unbounded env).Within R := by
  constructor
  · intro f g hg
    obtain ⟨n, hn⟩ := (Nested.tryRest_sup (ofFuel_rising env) f g).mp hg
    exact (h n).tryRest f g hn
  · intro tree f n g hg
    obtain ⟨m, hm⟩ := (Nested.expand_sup (ofFuel_rising env) tree f (n, g)).mp hg
    exact (h m).expand tree f n g hm

lemma ofFuel_within (env : Setting) (fuel : Nat) : (Nested.ofFuel env fuel).Within Focus.Onward := by
  apply ofFuel_within_of fun _ hn => tryAll_within (Focus.Onward.closed env) hn
  intro fuel hn f tree s hs
  exact Focus.Onward.absorb f s (drain_before hn hs).visits

lemma unbounded_within (env : Setting) : (Nested.unbounded env).Within Focus.Onward :=
  unbounded_within_of (ofFuel_within env)

end Later

end Bemjson
