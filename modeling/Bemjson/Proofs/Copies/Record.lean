import Bemjson.Proofs.LoopGuard.Ends
import Bemjson.Proofs.LoopGuard.Tally
import Mathlib.Data.List.Perm.Subperm

namespace Bemjson

inductive Node.CopyOf (m : Node) : Node → Prop
  | node : CopyOf m m
  | entity : CopyOf m (.entity (m.entity?.getD {}))
  | write (e : Entity) (key : Key) (value : Json) (n : Node) : CopyOf m (.entity e) →
      CopyOf m (.entity (e.write key value n))

lemma Node.CopyOf.fired {m n : Node} (h : m.CopyOf n) {e : Entity} (hm : m = .entity e) :
    ∃ d, n = .entity d ∧ d.fired = e.fired := by
  induction h with
  | node => exact ⟨e, hm, rfl⟩
  | entity =>
    subst hm
    exact ⟨e, rfl, rfl⟩
  | write d key value n _ ih =>
    obtain ⟨d', hd, hfired⟩ := ih
    obtain rfl := Node.entity.inj hd
    exact ⟨_, rfl, (d.fired_write key value n).trans hfired⟩

/-- What the body puts in place of a node is a copy of it, as it is by then. -/
def Program.ReturnsCopies (env : Setting) (body : Body) : Prop :=
  ∀ f g n, body.exec env (.unbounded env) f = some (some n, g) → g.node.CopyOf n

lemma Program.ReturnsCopies.call {env : Setting} {c : Call} {next : c.Reply → Body}
    (h : ∀ r, (next r).ReturnsCopies env) : Program.ReturnsCopies env (.call c next) := by
  intro f g n hexec
  obtain ⟨⟨r, f'⟩, _, hnext⟩ := Option.bind_eq_some_iff.mp hexec
  exact h r f' g n hnext

lemma Program.ReturnsCopies.node {env : Setting} {copy : Node → Node} (h : ∀ m : Node, m.CopyOf (copy m)) :
    Program.ReturnsCopies env (.call .node fun m => .done (some (copy m))) := by
  intro f g n hexec
  cases hexec
  exact h f.node

section Traces

def Event.ruleOn (slot : Nat) : Event → Option Nat
  | .fired rule s => if s = slot then some rule else none
  | _ => none

def rulesOn (slot : Nat) (trace : List Event) : List Nat := trace.filterMap (Event.ruleOn slot)

def Event.Quiet (e : Event) : Prop := ∀ slot, e.ruleOn slot = none ∧ e.isVisit slot = false

variable {trace later : List Event} {e : Event} {slot rule : Nat}

lemma rulesOn_fired (slot rule : Nat) (trace : List Event) :
    rulesOn slot (.fired rule slot :: trace) = rule :: rulesOn slot trace :=
  List.filterMap_cons_some (if_pos rfl)

lemma rulesOn_cons (h : e.ruleOn slot = none) : rulesOn slot (e :: trace) = rulesOn slot trace :=
  List.filterMap_cons_none h

lemma visitsOf_cons (h : e.isVisit slot = false) : visitsOf slot (e :: trace) = visitsOf slot trace :=
  List.countP_cons_of_neg (by simp [h])

lemma visitsOf_visited (slot : Nat) (trace : List Event) :
    visitsOf slot (.visited slot :: trace) = visitsOf slot trace + 1 :=
  List.countP_cons_of_pos (by simp [Event.isVisit])

lemma rulesOn_fired_ne {other : Nat} (h : other ≠ slot) :
    rulesOn other (.fired rule slot :: trace) = rulesOn other trace :=
  rulesOn_cons (if_neg h.symm)

lemma visitsOf_visited_ne {other : Nat} (h : other ≠ slot) :
    visitsOf other (.visited slot :: trace) = visitsOf other trace :=
  visitsOf_cons (by simpa [Event.isVisit] using h.symm)

structure Frugal (bound : Nat) (trace : List Event) : Prop where
  once : ∀ slot, (rulesOn slot trace).Nodup
  known : ∀ slot, ∀ rule ∈ rulesOn slot trace, rule < bound
  visits : ∀ slot, visitsOf slot trace ≤ (rulesOn slot trace).length + 1

namespace Frugal

variable {bound : Nat}

lemma congr (h : Frugal bound trace) (hr : ∀ slot, rulesOn slot later = rulesOn slot trace)
    (hv : ∀ slot, visitsOf slot later = visitsOf slot trace) : Frugal bound later where
  once slot := by
    rw [hr]
    exact h.once slot
  known slot := by
    rw [hr]
    exact h.known slot
  visits slot := by
    rw [hr, hv]
    exact h.visits slot

lemma quiet (h : Frugal bound trace) (he : e.Quiet) : Frugal bound (e :: trace) :=
  h.congr (fun slot => rulesOn_cons (he slot).1) fun slot => visitsOf_cons (he slot).2

lemma fired (h : Frugal bound trace) (hr : rule ∉ rulesOn slot trace) (hb : rule < bound) :
    Frugal bound (.fired rule slot :: trace) where
  once other := by
    by_cases ho : other = slot
    · subst ho
      rw [rulesOn_fired]
      exact List.nodup_cons.mpr ⟨hr, h.once other⟩
    · rw [rulesOn_fired_ne ho]
      exact h.once other
  known other := by
    by_cases ho : other = slot
    · subst ho
      rw [rulesOn_fired]
      exact List.forall_mem_cons.mpr ⟨hb, h.known other⟩
    · rw [rulesOn_fired_ne ho]
      exact h.known other
  visits other := by
    have hv : visitsOf other (.fired rule slot :: trace) = visitsOf other trace := visitsOf_cons rfl
    rw [hv]
    refine Nat.le_trans (h.visits other) (Nat.succ_le_succ ?_)
    by_cases ho : other = slot
    · subst ho
      rw [rulesOn_fired]
      exact Nat.le_succ _
    · rw [rulesOn_fired_ne ho]

lemma visited (h : Frugal bound trace) (hs : visitsOf slot trace ≤ (rulesOn slot trace).length) :
    Frugal bound (.visited slot :: trace) where
  once other := h.once other
  known other := h.known other
  visits other := by
    have hr : rulesOn other (.visited slot :: trace) = rulesOn other trace := rulesOn_cons rfl
    rw [hr]
    by_cases ho : other = slot
    · subst ho
      rw [visitsOf_visited]
      exact Nat.succ_le_succ hs
    · rw [visitsOf_visited_ne ho]
      exact h.visits other

lemma length_le (h : Frugal bound trace) (slot : Nat) : (rulesOn slot trace).length ≤ bound := by
  have hsub : rulesOn slot trace ⊆ List.range bound := fun rule hr => List.mem_range.mpr (h.known slot rule hr)
  simpa using (List.subperm_of_subset (h.once slot) hsub).length_le

end Frugal

end Traces

section Trials

variable {env : Setting} {bound : Nat}

def Focus.Marked (bound : Nat) (f : Focus) : Prop :=
  Frugal bound f.run.trace ∧ ∃ e, f.node = .entity e ∧ rulesOn f.slot f.run.trace ⊆ e.fired

/-- Rules have been at work on the node: it has a record of all that were run by then, and it has been replaced only
if there are new ones. -/
structure Focus.Grows (bound : Nat) (f g : Focus) : Prop where
  slot : g.slot = f.slot
  rules : rulesOn f.slot f.run.trace <:+ rulesOn f.slot g.run.trace
  others : ∀ other, other ≠ f.slot → rulesOn other g.run.trace = rulesOn other f.run.trace
  visits : ∀ id, visitsOf id g.run.trace = visitsOf id f.run.trace
  marked : f.Marked bound → g.Marked bound
  replaced : f.replaced = false → g.replaced = true →
    (rulesOn f.slot f.run.trace).length < (rulesOn f.slot g.run.trace).length

namespace Focus.Grows

lemma still {f g : Focus} (hs : g.slot = f.slot) (hr : ∀ id, rulesOn id g.run.trace = rulesOn id f.run.trace)
    (hv : ∀ id, visitsOf id g.run.trace = visitsOf id f.run.trace)
    (hn : ∀ e, f.node = .entity e → ∃ d, g.node = .entity d ∧ d.fired = e.fired) (hp : g.replaced = f.replaced) :
    f.Grows bound g where
  slot := hs
  rules := ⟨[], (hr f.slot).symm⟩
  others other _ := hr other
  visits := hv
  marked := by
    rintro ⟨hf, e, he, hsub⟩
    obtain ⟨d, hd, hfired⟩ := hn e he
    refine ⟨hf.congr hr hv, d, hd, ?_⟩
    rw [hs, hr, hfired]
    exact hsub
  replaced hf hg := by
    rw [hp, hf] at hg
    cases hg

lemma refl (f : Focus) : f.Grows bound f := still rfl (fun _ => rfl) (fun _ => rfl) (fun e he => ⟨e, he, rfl⟩) rfl

lemma trans {f g h : Focus} (hfg : f.Grows bound g) (hgh : g.Grows bound h) : f.Grows bound h := by
  have hrules := hgh.rules
  have hlater := hgh.replaced
  rw [hfg.slot] at hrules hlater
  refine ⟨hgh.slot.trans hfg.slot, hfg.rules.trans hrules, ?_, fun id => (hgh.visits id).trans (hfg.visits id),
    fun hf => hgh.marked (hfg.marked hf), ?_⟩
  · intro other ho
    exact (hgh.others other (hfg.slot ▸ ho)).trans (hfg.others other ho)
  · intro hf hh
    cases hg : g.replaced with
    | false => exact Nat.lt_of_le_of_lt hfg.rules.length_le (hlater hg hh)
    | true => exact Nat.lt_of_lt_of_le (hfg.replaced hf hg) hrules.length_le

lemma mapEntity (f : Focus) {change : Entity → Entity} (h : ∀ e, (change e).fired = e.fired) :
    f.Grows bound (f.mapEntity change) := by
  refine still rfl (fun _ => rfl) (fun _ => rfl) (fun e he => ⟨change e, ?_, h e⟩) rfl
  rw [Focus.mapEntity, he, Node.mapEntity]

lemma carried (env : Setting) (bound : Nat) : Focus.Carried env (Focus.Grows bound) where
  refl := refl
  trans _ _ _ := trans
  edit f change force := mapEntity f fun e => e.fired_edit force change
  stop f := mapEntity f fun _ => rfl
  keep _ _ _ _ := still rfl (fun _ => rfl) (fun _ => rfl) (fun e he => ⟨e, he, rfl⟩) rfl
  issue _ := still rfl (fun _ => rfl) (fun _ => rfl) (fun e he => ⟨e, he, rfl⟩) rfl
  write _ _ := still rfl (fun _ => rfl) (fun _ => rfl) (fun e he => ⟨e, he, rfl⟩) rfl

lemma absorb (f : Focus) (s : State) : f.Grows bound (f.absorb s).2 := by
  have hquiet : (Event.inner s.run.trace).Quiet := fun _ => ⟨rfl, rfl⟩
  apply still
  · cases he : s.run.error <;> simp [Focus.absorb, he]
  · intro id
    rw [trace_absorb, rulesOn_cons (hquiet id).1]
  · intro id
    rw [trace_absorb, visitsOf_cons (hquiet id).2]
  · intro e he
    exact ⟨e, (node_absorb f s).trans he, rfl⟩
  · cases he : s.run.error <;> simp [Focus.absorb, he]

lemma started {f : Focus} {c : Candidate} (hc : f.node.entity?.any c.accepts) (hb : c.id < bound) :
    f.Grows bound (f.started c.id) where
  slot := rfl
  rules := by
    change _ <:+ rulesOn f.slot (.fired c.id f.slot :: f.run.trace)
    rw [rulesOn_fired]
    exact List.suffix_cons _ _
  others other ho := rulesOn_fired_ne ho
  visits id := visitsOf_cons rfl
  marked := by
    rintro ⟨hf, e, he, hsub⟩
    have hnew : c.id ∉ e.fired := by
      simp only [he, Node.entity?, Option.any_some, Candidate.accepts, Bool.and_eq_true, Bool.not_eq_true',
        List.contains_eq_mem, decide_eq_false_iff_not] at hc
      exact hc.1.1
    refine ⟨hf.fired (fun hr => hnew (hsub hr)) hb, e.fire c.id, ?_, ?_⟩
    · change f.node.mapEntity (fun e => e.fire c.id) = _
      rw [he, Node.mapEntity]
    · change rulesOn f.slot (.fired c.id f.slot :: f.run.trace) ⊆ c.id :: e.fired
      rw [rulesOn_fired]
      exact List.cons_subset_cons _ hsub
  replaced hf hg := by
    change f.replaced = true at hg
    rw [hf] at hg
    cases hg

lemma length_started (f : Focus) (id : Nat) : (rulesOn f.slot (f.started id).run.trace).length =
    (rulesOn f.slot f.run.trace).length + 1 :=
  congrArg List.length (rulesOn_fired f.slot id f.run.trace)

lemma replace {f g : Focus} (h : f.Grows bound g)
    (hlt : (rulesOn f.slot f.run.trace).length < (rulesOn f.slot g.run.trace).length) {n : Node}
    (hn : g.node.CopyOf n) : f.Grows bound (g.replace n) where
  slot := h.slot
  rules := h.rules
  others := h.others
  visits := h.visits
  marked hf := by
    obtain ⟨hg, e, he, hsub⟩ := h.marked hf
    obtain ⟨d, hd, hfired⟩ := hn.fired he
    exact ⟨hg, d, hd, by rwa [hfired]⟩
  replaced _ _ := hlt

end Focus.Grows

structure Setting.Copying (env : Setting) (bound : Nat) : Prop where
  listed : ∀ c, env.index.Lists c → c.id < bound
  bodies : ∀ rule ∈ env.index.rules, rule.body.ReturnsCopies env

variable (hc : env.Copying bound)
include hc

lemma fire_grows {nested : Nested} (hle : nested.Le (.unbounded env)) (hn : nested.Within (Focus.Grows bound))
    {c : Candidate} (hlist : env.index.Lists c) {f g : Focus} {b : Bool} (ha : f.node.entity?.any c.accepts)
    (h : fire env nested c.id f = some (b, g)) : f.Grows bound g := by
  have hs : f.Grows bound (f.started c.id) := .started ha (hc.listed c hlist)
  cases hrule : env.index.rules[c.id]? with
  | none =>
    simp only [fire, hrule] at h
    cases h
    exact hs
  | some rule =>
    rw [fire_eq env nested hrule] at h
    obtain ⟨⟨ending, f'⟩, hexec, he⟩ := Option.map_eq_some_iff.mp h
    have hb := exec_within (Focus.Grows.carried env bound) hn rule.body (f.started c.id) f' ending hexec
    cases ending with
    | none =>
      cases he
      exact hs.trans hb
    | some n =>
      cases he
      have hexec' := (exec_finitary env rule.body _).mono _ _ _ hle hexec
      have hlt := Nat.lt_of_succ_le ((Focus.Grows.length_started f c.id).symm.trans_le hb.rules.length_le)
      exact (hs.trans hb).replace hlt (hc.bodies rule (List.mem_of_getElem? hrule) _ f' n hexec')

lemma ofFuel_grows (fuel : Nat) : (Nested.ofFuel env fuel).Within (Focus.Grows bound) := by
  apply ofFuel_within_of
  · intro fuel hn f g fate h
    have hc' := Focus.Grows.carried env bound
    exact tryAll_of_fire hc'.refl hc'.trans (fun c hl f g b => fire_grows hc (ofFuel_le env fuel) hn hl) f g fate h
  · intro _ _ f _ s _
    exact Focus.Grows.absorb f s

lemma unbounded_grows : (Nested.unbounded env).Within (Focus.Grows bound) := unbounded_within_of (ofFuel_grows hc)

lemma fire_grows_unbounded (c : Candidate) (hl : env.index.Lists c) (f g : Focus) (b : Bool)
    (ha : f.node.entity?.any c.accepts) (h : fire env (.unbounded env) c.id f = some (b, g)) : f.Grows bound g :=
  fire_grows hc ⟨fun _ _ h => h, fun _ _ _ h => h⟩ (unbounded_grows hc) hl ha h

lemma tryAll_grows {f g : Focus} {fate : Fate} (h : tryAll env (.unbounded env) f = some (fate, g)) :
    f.Grows bound g :=
  have hc' := Focus.Grows.carried env bound
  tryAll_of_fire hc'.refl hc'.trans (fire_grows_unbounded hc) f g fate h

lemma judge_grows {f g : Focus} {fate : Fate} (h : judge env (.unbounded env) f = some (fate, g)) : f.Grows bound g := by
  unfold judge at h
  split at h
  · exact tryAll_grows hc h
  · cases h
    exact .refl f

lemma Focus.Asks.grows {f g : Focus} {d : Call} (h : f.Asks env d g) :
    f.Grows bound g ∧ (rulesOn f.slot f.run.trace).length < (rulesOn f.slot g.run.trace).length := by
  obtain ⟨c, hl, f', ha, hfirst, hlater⟩ :=
    h.started (unbounded_grows hc) (Focus.Grows.carried env bound) (fire_grows_unbounded hc)
  have hs : f'.Grows bound (f'.started c.id) := .started ha (hc.listed c hl)
  refine ⟨hfirst.trans (hs.trans hlater), ?_⟩
  have hlen := hlater.rules.length_le
  change (rulesOn f'.slot _).length ≤ (rulesOn f'.slot _).length at hlen
  rw [Focus.Grows.length_started f' c.id, hfirst.slot] at hlen
  exact Nat.lt_of_le_of_lt hfirst.rules.length_le hlen

lemma Focus.Reenters.grows {f g : Focus} (h : Relation.ReflTransGen (Focus.Reenters env) f g) : f.Grows bound g := by
  induction h with
  | refl => exact .refl f
  | tail _ hre ih => exact ih.trans (Focus.Asks.grows hc hre).1

end Trials

end Bemjson
