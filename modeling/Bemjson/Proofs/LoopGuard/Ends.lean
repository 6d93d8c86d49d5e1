import Bemjson.Engine
import Bemjson.Proofs.Slots
import Bemjson.Proofs.LoopGuard.Calls
import Mathlib.Order.WellFounded

/-! With loop detection, nothing keeps an expansion from its end but rules that try the remaining rules for ever. -/

namespace Bemjson

variable {env : Setting} {deep : Bool}

def State.Visits (env : Setting) (s : State) (f : Focus) : Prop :=
  s.run.error = none ∧ ∃ id queue slot e, s.queue = id :: queue ∧ s.run.slots[id]? = some slot ∧
    s.root.at? slot.path = some (.entity e) ∧
    overrun env ((s.pop id queue).look id slot e).run id (e.adopt slot.around) = none ∧
    f = (s.pop id queue).look id slot e ∧ f.isOpen = true

/-- In an expansion, or in one that a rule of it asks for, the rules are tried on the node of a focus. -/
inductive State.Tries (env : Setting) : Bool → State → Focus → Prop
  | visit (deep : Bool) (first s : State) (f : Focus) : first.Reaches env (.unbounded env) deep s → s.Visits env f →
      Tries env deep first f
  | again (deep : Bool) (first : State) (f g : Focus) : Tries env deep first f → f.Asks env .tryRest g →
      Tries env deep first g
  | inner (deep : Bool) (first : State) (f g h : Focus) (tree : Node) : Tries env deep first f →
      f.Asks env (.expand tree) g → Tries env true (g.inner env tree) h → Tries env deep first h

def Focus.Reenters (env : Setting) (f g : Focus) : Prop := f.Asks env .tryRest g

namespace State

def Ends (env : Setting) (deep : Bool) (s : State) : Prop := ∃ steps t, drain env (.unbounded env) deep steps s = some t

lemma ends_iff {s : State} : s.Ends env deep ↔ ∃ t, s.Reaches env (.unbounded env) deep t ∧ t.Over := by
  constructor
  · rintro ⟨steps, t, h⟩
    exact ⟨t, drain_iff_run.mp ⟨steps, h⟩⟩
  · rintro ⟨t, h⟩
    obtain ⟨steps, h⟩ := drain_iff_run.mpr h
    exact ⟨steps, t, h⟩

lemma ends_of_over {s : State} (h : s.Over) : s.Ends env deep := ends_iff.mpr ⟨s, .refl, h⟩

lemma ends_of_next {s t : State} (h : s.Next env (.unbounded env) deep t) (ht : t.Ends env deep) : s.Ends env deep := by
  obtain ⟨u, hr, hu⟩ := ends_iff.mp ht
  exact ends_iff.mpr ⟨u, .head h hr, hu⟩

lemma Next.unique {nested : Nested} {s t u : State} (ht : s.Next env nested deep t) (hu : s.Next env nested deep u) :
    t = u := by
  obtain ⟨_, id, queue, v, hq, hv, rfl⟩ := ht
  obtain ⟨_, id', queue', w, hq', hw, rfl⟩ := hu
  obtain ⟨rfl, rfl⟩ := List.cons.inj (hq.symm.trans hq')
  obtain rfl := Option.some.inj (hv.symm.trans hw)
  rfl

lemma not_next_of_over {nested : Nested} {s t : State} (h : s.Over) : ¬s.Next env nested deep t := by
  rintro ⟨he, id, queue, _, hq, _⟩
  rcases h with h | h
  · rw [he] at h
    cases h
  · rw [h] at hq
    cases hq

lemma ends_of_reaches {s t : State} (h : s.Reaches env (.unbounded env) deep t) (hs : s.Ends env deep) :
    t.Ends env deep := by
  induction h with
  | refl => exact hs
  | tail _ hstep ih =>
    obtain ⟨u, hr, hu⟩ := ends_iff.mp ih
    rcases Relation.ReflTransGen.cases_head hr with rfl | ⟨v, hv, hr⟩
    · exact absurd hstep (not_next_of_over hu)
    · obtain rfl := hstep.unique hv
      exact ends_iff.mpr ⟨u, hr, hu⟩

lemma Visits.ends {s : State} {f : Focus} (hf : s.Visits env f) (hs : s.Ends env deep) :
    ∃ r, tryAll env (.unbounded env) f = some r := by
  obtain ⟨he, id, queue, slot, e, hq, hslot, hm, ho, rfl, hopen⟩ := hf
  obtain ⟨u, hr, hu⟩ := ends_iff.mp hs
  rcases Relation.ReflTransGen.cases_head hr with rfl | ⟨v, ⟨_, id', queue', w, hq', hw, _⟩, _⟩
  · rcases hu with hu | hu
    · rw [he] at hu
      cases hu
    · rw [hu] at hq
      cases hq
  · obtain ⟨rfl, rfl⟩ := List.cons.inj (hq.symm.trans hq')
    have hturn := turn_of_attend (unbounded_within env) hslot hw
    have hm' : (s.pop id queue).root.at? slot.path = some (.entity e) := hm
    have hj : ∀ fate g, judge env (.unbounded env) ((s.pop id queue).look id slot e) = some (fate, g) →
        ∃ r, tryAll env (.unbounded env) ((s.pop id queue).look id slot e) = some r := by
      intro fate g h
      rw [judge, if_pos hopen] at h
      exact ⟨_, h⟩
    cases hturn with
    | missing hp => cases hm'.symm.trans hp
    | plain n hp hn =>
      obtain rfl := Option.some.inj (hm'.symm.trans hp)
      cases hn
    | overrun d err hp hd =>
      obtain rfl := Node.entity.inj (Option.some.inj (hm'.symm.trans hp))
      rw [ho] at hd
      cases hd
    | failed d fate g err hp _ h _ =>
      obtain rfl := Node.entity.inj (Option.some.inj (hm'.symm.trans hp))
      exact hj fate g h
    | kept d c g h _ =>
      obtain rfl := Node.entity.inj (Option.some.inj (hm'.symm.trans h.entity))
      exact hj _ g h.judge
    | replaced d g h =>
      obtain rfl := Node.entity.inj (Option.some.inj (hm'.symm.trans h.entity))
      exact hj _ g h.judge

lemma Tries.ends {first : State} {f : Focus} (h : first.Tries env deep f) (hs : first.Ends env deep) :
    ∃ r, tryAll env (.unbounded env) f = some r := by
  have hle : (Nested.unbounded env).Le (.unbounded env) := ⟨fun _ _ h => h, fun _ _ _ h => h⟩
  induction h with
  | visit deep first s f hr hf => exact hf.ends (ends_of_reaches hr hs)
  | again deep first f g _ hasks ih =>
    obtain ⟨r, hf⟩ := ih hs
    obtain ⟨a, ha⟩ := tryAll_answered hle hasks hf
    obtain ⟨g', hg, _⟩ := Option.map_eq_some_iff.mp ha
    obtain ⟨fate, hg⟩ := (tryRest_unbounded env g g').mp hg
    exact ⟨_, hg⟩
  | inner deep first f g h tree _ hasks _ ihf ihh =>
    obtain ⟨r, hf⟩ := ihf hs
    obtain ⟨a, ha⟩ := tryAll_answered hle hasks hf
    obtain ⟨steps, t, ht, _⟩ := (expand_unbounded env tree g a).mp ha
    exact ihh ⟨steps, t, ht⟩

end State

lemma acc_of_ends {f : Focus} {r : Fate × Focus} (h : tryAll env (.unbounded env) f = some r) :
    Acc (fun g f => Focus.Reenters env f g) f := by
  obtain ⟨fuel, hfuel⟩ := (unbounded_iff env (tryAll_finitary env f) r).mp h
  clear h
  induction fuel generalizing f r with
  | zero =>
    constructor
    intro g hg
    obtain ⟨a, ha⟩ := tryAll_answered (ofFuel_le env 0) hg hfuel
    cases ha
  | succ fuel ih =>
    constructor
    intro g hg
    obtain ⟨a, ha⟩ := tryAll_answered (ofFuel_le env _) hg hfuel
    obtain ⟨g', hg', _⟩ := Option.map_eq_some_iff.mp ha
    obtain ⟨r', hr', _⟩ := Option.map_eq_some_iff.mp hg'
    exact ih hr'

section Guard

namespace State

def pending (s : State) : Nat := s.queue.countP fun id => ((s.designated id).bind Node.entity?).isNone

lemma look_visits (s : State) (id : Nat) (slot : Slot) (e : Entity) : (s.look id slot e).run.visits = s.run.visits + 1 := rfl

lemma visits_le_of_allowed (hloops : env.options.detectLoops = true) {r : Run} {id : Nat} {e : Entity}
    (h : overrun env r id e = none) : r.visits ≤ totalLimit := by
  simp only [overrun, hloops, Bool.not_true, Bool.false_eq_true, if_false] at h
  split at h
  · cases h
  · split at h
    · cases h
    · omega

lemma reaches_visits {first s : State} (h : first.Reaches env (.unbounded env) deep s) :
    first.run.visits ≤ s.run.visits := by
  induction h with
  | refl => exact Nat.le_refl _
  | tail _ hstep ih => exact Nat.le_trans ih (hstep.before (unbounded_within env)).visits

lemma pending_cons {s : State} {id : Nat} {queue : List Nat} (hq : s.queue = id :: queue) {n : Node}
    (hn : s.designated id = some n) : s.pending = (s.pop id queue).pending + if n.entity?.isNone then 1 else 0 := by
  rw [pending, hq, List.countP_cons, hn]
  rfl

lemma Spares.pending {s u : State} (h : s.Spares u) (hq : u.queue = s.queue) : u.pending = s.pending := by
  rw [State.pending, hq]
  exact List.countP_congr fun other ho => by rw [(h other ho).2]

lemma pending_grow {s : State} {id : Nat} {path : Path} {n m : Node} {kids : List Slot} (ht : s.Tidy)
    (hh : s.Held id path) (hk : Sprouts deep n kids) (hm : s.root.at? path = some m) :
    (s.grow id path (n, kids)).pending = s.pending := by
  have hspares := (ht.grow hh hk (by rw [hm]; rfl)).2
  have hold : s.queue.countP (fun id' => (((s.grow id path (n, kids)).designated id').bind Node.entity?).isNone) =
      s.pending := by
    apply List.countP_congr
    intro other ho
    rw [(hspares other ho).2]
  have hnew : (List.range' s.run.slots.length kids.length).countP
      (fun id' => (((s.grow id path (n, kids)).designated id').bind Node.entity?).isNone) = 0 := by
    apply List.countP_eq_zero.mpr
    intro other ho
    obtain ⟨i, hi, rfl⟩ := List.mem_range'.mp ho
    obtain ⟨e, he⟩ := designated_kid hk hm hi
    rw [Nat.one_mul, he]
    exact Bool.false_ne_true
  have hqueue : (s.grow id path (n, kids)).queue = s.queue ++ List.range' s.run.slots.length kids.length := by
    simp [grow, push]
  rw [pending, hqueue, List.countP_append, hnew, Nat.add_zero]
  exact hold

lemma Next.progress (hloops : env.options.detectLoops = true) {s t : State} (ht : s.Tidy)
    (h : s.Next env (.unbounded env) deep t) : t.Over ∨
      (s.run.visits < totalLimit ∧ s.run.visits < t.run.visits) ∨
      t.run.visits = s.run.visits ∧ t.pending < s.pending := by
  have hn := unbounded_within env
  obtain ⟨id, queue, slot, u, _, hq, _, hpop, hh, hturn, rfl⟩ := Next.turn hn ht h
  obtain ⟨p, n, hp, hm⟩ := ht.known id (by simp [hq])
  obtain rfl := Option.some.inj (hp.symm.trans hh.path)
  have hvisit : ∀ e fate f, overrun env ((s.pop id queue).look id slot e).run id (e.adopt slot.around) = none →
      judge env (.unbounded env) ((s.pop id queue).look id slot e) = some (fate, f) →
      s.run.visits < totalLimit ∧ s.run.visits < f.run.visits := by
    intro e fate f ho hj
    have hlimit := visits_le_of_allowed hloops ho
    have hon := (judge_onward hn hj).run.visits
    rw [look_visits] at hlimit hon
    have hsame : (s.pop id queue).run.visits = s.run.visits := rfl
    omega
  cases hturn with
  | missing hnone => cases hm.symm.trans hnone
  | plain m hpm hplain =>
    obtain rfl := Option.some.inj (hm.symm.trans hpm)
    refine Or.inr (Or.inr ⟨rfl, ?_⟩)
    have hgrow := pending_grow hpop hh (sprout_sprouts deep slot.around n) hm
    have hhead := pending_cons hq ((designated_of_path? hp).trans hm)
    rw [hplain] at hhead
    change (grow (s.pop id queue) id slot.path (n.sprout deep slot.around)).pending < s.pending
    rw [hhead, hgrow]
    exact Nat.lt_succ_self _
  | overrun e err _ _ => exact Or.inl (Or.inl rfl)
  | failed e fate f err _ _ _ herr =>
    refine Or.inl (Or.inl ?_)
    change f.run.error.isSome
    rw [herr]
    rfl
  | kept e d f hj _ => exact Or.inr (Or.inl (hvisit e _ f hj.allowed hj.judge))
  | replaced e f hj => exact Or.inr (Or.inl (hvisit e _ f hj.allowed hj.judge))

lemma ends_of_visits (hloops : env.options.detectLoops = true) {first : State} (ht : first.Tidy)
    (hf : ∀ s f, first.Reaches env (.unbounded env) deep s → s.Visits env f →
      ∃ r, tryAll env (.unbounded env) f = some r) : first.Ends env deep := by
  suffices hall : ∀ left pending s, first.Reaches env (.unbounded env) deep s → totalLimit - s.run.visits = left →
      s.pending = pending → s.Ends env deep from hall _ _ first .refl rfl rfl
  intro left
  induction left using Nat.strongRecOn with
  | ind left ihl =>
    intro pending
    induction pending using Nat.strongRecOn with
    | ind pending ihp =>
      rintro s hr rfl rfl
      cases he : s.run.error with
      | some err => exact ends_of_over (Or.inl (by rw [he]; rfl))
      | none =>
        cases hq : s.queue with
        | nil => exact ends_of_over (Or.inr hq)
        | cons id queue =>
          obtain ⟨t, hstep⟩ : ∃ t, s.Next env (.unbounded env) deep t := by
            apply exists_step he hq
            intro slot e hslot hm ho
            by_cases hopen : ((s.pop id queue).look id slot e).isOpen = true
            · rw [judge, if_pos hopen]
              exact hf s _ hr ⟨he, id, queue, slot, e, hq, hslot, hm, ho, rfl, hopen⟩
            · rw [judge, if_neg hopen]
              exact ⟨_, rfl⟩
          have hrt := hr.tail hstep
          apply ends_of_next hstep
          rcases Next.progress hloops (ht.reaches (unbounded_within env) hr) hstep with hover | ⟨hlt, hup⟩ | ⟨hsame, hless⟩
          · exact ends_of_over hover
          · exact ihl _ (by omega) _ t hrt rfl rfl
          · exact ihp _ hless t hrt (by rw [hsame]) rfl

lemma ends_of_acc (hloops : env.options.detectLoops = true) (left : Nat) {first : State} (ht : first.Tidy)
    (hleft : totalLimit - first.run.visits = left)
    (hacc : ∀ f, first.Tries env deep f → Acc (fun g f => Focus.Reenters env f g) f) : first.Ends env deep := by
  induction left using Nat.strongRecOn generalizing first deep with
  | ind left ih =>
    apply ends_of_visits hloops ht
    intro s f hr hf
    have hfirst : first.run.visits < totalLimit ∧ first.run.visits < f.run.visits := by
      have hv := reaches_visits hr
      obtain ⟨_, id, queue, slot, e, _, _, _, ho, rfl, _⟩ := hf
      have hlimit := visits_le_of_allowed hloops ho
      rw [look_visits] at hlimit ⊢
      have hsame : (s.pop id queue).run.visits = s.run.visits := rfl
      omega
    have htries : first.Tries env deep f := .visit deep first s f hr hf
    -- What does not end has come to a call that does not end: to a nested trial, or to an expansion with fewer visits left.
    have hall : ∀ g, Acc (fun g f => Focus.Reenters env f g) g → first.Tries env deep g →
        first.run.visits < g.run.visits → ∃ r, tryAll env (.unbounded env) g = some r := by
      intro g hg
      induction hg with
      | intro g _ ihg =>
        intro htg hvg
        cases hnone : tryAll env (.unbounded env) g with
        | some r => exact ⟨r, rfl⟩
        | none =>
          obtain ⟨d, g', hasks, hd⟩ := tryAll_stuck hnone
          have hvg' : first.run.visits < g'.run.visits := Nat.lt_of_lt_of_le hvg hasks.onward.run.visits
          rcases perform_stuck hd with ⟨rfl, hrest⟩ | ⟨tree, rfl, hexpand⟩
          · obtain ⟨r, hr⟩ := ihg g' hasks (.again deep first g g' htg hasks) hvg'
            rw [hrest] at hr
            cases hr
          · have hends : (g'.inner env tree).Ends env true := by
              have hvisits : (g'.inner env tree).run.visits = g'.run.visits := rfl
              refine ih (totalLimit - g'.run.visits) (by omega) (Tidy.start env tree _ _ _) (by rw [hvisits]) ?_
              intro h hh
              exact hacc h (.inner deep first g g' h tree htg hasks hh)
            obtain ⟨steps, t, hd⟩ := hends
            have hsome := (expand_unbounded env tree g' _).mpr ⟨steps, t, hd, rfl⟩
            rw [hexpand] at hsome
            cases hsome
    exact hall f (hacc f htries) htries hfirst.2

end State

end Guard

/-- With loop detection, an expansion comes to an end, with a tree or with an error, unless rules try the remaining
rules for ever. Neither replacements nor expansions within rules can go on for ever without that. -/
theorem expand_ends_iff (engine : Engine) (hloops : engine.options.detectLoops = true) (tree : Node)
    (block : Option String) (deep : Bool) (journal : Journal) :
    (∃ fuel s, engine.expand fuel tree block deep journal = some s) ↔
      ¬∃ chain : Nat → Focus,
        (State.start engine.setting tree block 0 journal).Tries engine.setting deep (chain 0) ∧
          ∀ i, (chain i).Reenters engine.setting (chain (i + 1)) := by
  have hends : (∃ fuel s, engine.expand fuel tree block deep journal = some s) ↔
      (State.start engine.setting tree block 0 journal).Ends engine.setting deep := by
    constructor
    · rintro ⟨fuel, s, h⟩
      obtain ⟨steps, hd⟩ := (drain_unbounded engine.setting deep _ s).mpr ⟨fuel, h⟩
      exact ⟨steps, s, hd⟩
    · rintro ⟨steps, s, h⟩
      obtain ⟨fuel, hd⟩ := (drain_unbounded engine.setting deep _ s).mp ⟨steps, h⟩
      exact ⟨fuel, s, hd⟩
  rw [hends]
  constructor
  · rintro hs ⟨chain, hfirst, hchain⟩
    obtain ⟨r, hr⟩ := hfirst.ends hs
    exact not_acc_iff_exists_descending_chain.mpr ⟨chain, rfl, hchain⟩ (acc_of_ends hr)
  · intro hnone
    apply State.ends_of_acc hloops _ (State.Tidy.start _ tree block 0 journal) rfl
    intro f hf
    by_contra hacc
    obtain ⟨chain, rfl, hchain⟩ := not_acc_iff_exists_descending_chain.mp hacc
    exact hnone ⟨chain, hf, hchain⟩

def circling : Engine where
  rules := [⟨.selector { block := { name := "a", cond := none }, elem := none },
      .call .tryRest fun _ => .call .tryRest fun _ => .done none⟩,
    ⟨.selector { block := { name := "a", cond := none }, elem := none }, .done (some (.entity { block := some "a" }))⟩]
  options := { detectLoops := true }

section Circling

variable (nested : Nested) {f : Focus} {e : Entity}

lemma tryAll_circling (h : f.node = .entity e) (hb : e.block = some "a") (he : e.elem = none) :
    tryAll circling.setting nested f =
      (tryRules circling.setting nested [{ id := 0 }, { id := 1 }] f).map fun r => (r.1.getD .kept, r.2) := by
  have hfirst : tryRules circling.setting nested circling.setting.index.before f = some (none, f) := rfl
  have hentity : f.node.entity? = some e := by rw [h]; rfl
  rw [tryAll, hfirst, Option.bind_some]
  simp only [hentity, hb, he]
  rfl

lemma accepts_circling (h : f.node = .entity e) (id : Nat) :
    f.node.entity?.any (Candidate.accepts { id }) = !e.fired.contains id := by
  simp [h, Node.entity?, Candidate.accepts, holdsOn]

lemma tryAll_circling_replaced (h : f.node = .entity e) (hb : e.block = some "a") (he : e.elem = none)
    (hf : e.fired = [0]) :
    ∃ g, tryAll circling.setting nested f = some (.replaced, g) ∧ g.node = .entity { block := some "a" } := by
  refine ⟨(f.started 1).replace (.entity { block := some "a" }), ?_, rfl⟩
  have hzero : ¬f.node.entity?.any (Candidate.accepts { id := 0 }) := by simp [accepts_circling h, hf]
  have hone : f.node.entity?.any (Candidate.accepts { id := 1 }) := by simp [accepts_circling h, hf]
  rw [tryAll_circling nested h hb he, tryRules, if_neg hzero, tryRules, if_pos hone]
  rfl

lemma tryAll_circling_none (fuel : Nat) (h : f.node = .entity e) (hb : e.block = some "a") (he : e.elem = none)
    (hf : e.fired = []) : tryAll circling.setting (.ofFuel circling.setting fuel) f = none := by
  have hrule : circling.setting.index.rules[0]? = some ⟨.selector { block := { name := "a", cond := none }, elem := none },
    .call .tryRest fun _ => .call .tryRest fun _ => .done none⟩ := rfl
  induction fuel generalizing f e with
  | zero =>
    have hzero : f.node.entity?.any (Candidate.accepts { id := 0 }) := by simp [accepts_circling h, hf]
    rw [tryAll_circling _ h hb he, tryRules, if_pos hzero]
    rfl
  | succ fuel ih =>
    have hzero : f.node.entity?.any (Candidate.accepts { id := 0 }) := by simp [accepts_circling h, hf]
    have hstarted : (f.started 0).node = .entity (e.fire 0) := by
      change f.node.mapEntity (fun e => e.fire 0) = _
      rw [h]
      rfl
    have hfired : (e.fire 0).fired = [0] := by rw [Entity.fire, hf]
    obtain ⟨g, hg, hnode⟩ := tryAll_circling_replaced (.ofFuel circling.setting fuel) hstarted hb he hfired
    rw [tryAll_circling _ h hb he, tryRules, if_pos hzero, fire_eq _ _ hrule]
    simp only [Program.exec, Call.perform, Nested.ofFuel, hg, ih hnode rfl rfl rfl, Option.map_some, Option.bind_some,
      Option.map_none, Option.bind_none]

lemma not_ends_circling :
    ¬(State.start circling.setting (.entity { block := some "a" }) none 0 {}).Ends circling.setting true := by
  intro h
  have hvisit : (State.start circling.setting (.entity { block := some "a" }) none 0 {}).Visits circling.setting _ :=
    ⟨rfl, 0, [], _, _, rfl, rfl, rfl, rfl, rfl, rfl⟩
  obtain ⟨r, hr⟩ := hvisit.ends h
  obtain ⟨fuel, hfuel⟩ := (unbounded_iff _ (tryAll_finitary _ _) r).mp hr
  rw [tryAll_circling_none fuel rfl rfl rfl rfl] at hfuel
  cases hfuel

end Circling

theorem circling_reenters : ∃ chain : Nat → Focus,
    (State.start circling.setting (.entity { block := some "a" }) none 0 {}).Tries circling.setting true (chain 0) ∧
      ∀ i, (chain i).Reenters circling.setting (chain (i + 1)) := by
  by_contra h
  obtain ⟨fuel, s, hs⟩ := (expand_ends_iff circling rfl (.entity { block := some "a" }) none true {}).mpr h
  obtain ⟨steps, hd⟩ := (drain_unbounded circling.setting true _ s).mpr ⟨fuel, hs⟩
  exact not_ends_circling ⟨steps, s, hd⟩

theorem circling_never_ends : ¬∃ fuel r, circling.render fuel (.entity { block := some "a" }) = some r := by
  rintro ⟨fuel, r, h⟩
  obtain ⟨s, hs, _⟩ := Option.map_eq_some_iff.mp h
  obtain ⟨steps, hd⟩ := (drain_unbounded circling.setting true _ s).mpr ⟨fuel, hs⟩
  exact not_ends_circling ⟨steps, s, hd⟩

end Bemjson
