import Bemjson.Proofs.Copies.Record
import Bemjson.Proofs.LoopGuard.Budget
import Bemjson.Proofs.Scan

/-! Rules that put nothing but copies in place of the nodes that they are run on, and how often they are run. -/

namespace Bemjson

section Steps

variable {env : Setting} {deep : Bool} {bound : Nat}

namespace State

/-- What holds between two steps: a slot that waits has run a new rule at each visit so far, and its node has a record
of all of them. -/
structure Marked (bound : Nat) (s : State) : Prop where
  frugal : Frugal bound s.run.trace
  fresh : ∀ id, s.run.slots.length ≤ id → rulesOn id s.run.trace = [] ∧ visitsOf id s.run.trace = 0
  waiting : ∀ id ∈ s.queue, visitsOf id s.run.trace ≤ (rulesOn id s.run.trace).length
  marked : ∀ id ∈ s.queue, ∀ e, s.designated id = some (.entity e) → rulesOn id s.run.trace ⊆ e.fired

namespace Marked

variable {s t u : State} {id : Nat}

lemma start (env : Setting) (bound : Nat) (tree : Node) (block : Option String) (visits : Nat) (journal : Journal) :
    (State.start env tree block visits journal).Marked bound where
  frugal := ⟨fun _ => List.nodup_nil, nofun, fun _ => Nat.zero_le _⟩
  fresh _ _ := ⟨rfl, rfl⟩
  waiting _ _ := Nat.zero_le _
  marked _ _ _ _ := List.nil_subset _

lemma pop (hs : s.Marked bound) {queue : List Nat} (hq : s.queue = id :: queue) : (s.pop id queue).Marked bound := by
  have hquiet : (Event.popped id).Quiet := fun _ => ⟨rfl, rfl⟩
  have hmem : ∀ other ∈ queue, other ∈ s.queue := fun other ho => by
    rw [hq]
    exact List.mem_cons_of_mem id ho
  exact ⟨hs.frugal.quiet hquiet, hs.fresh, fun other ho => hs.waiting other (hmem other ho),
    fun other ho => hs.marked other (hmem other ho)⟩

lemma of_others (hs : s.Marked bound) (hid : id < s.run.slots.length) (hspares : s.Spares u)
    (hfrugal : Frugal bound u.run.trace) (hlen : s.run.slots.length ≤ u.run.slots.length)
    (hothers : ∀ other, other ≠ id → rulesOn other u.run.trace = rulesOn other s.run.trace ∧
      visitsOf other u.run.trace = visitsOf other s.run.trace)
    (hqueue : ∀ other ∈ u.queue, other ∈ s.queue ∧ other ≠ id ∨ s.run.slots.length ≤ other ∨
      other = id ∧ visitsOf id u.run.trace ≤ (rulesOn id u.run.trace).length ∧
        ∀ e, u.designated id = some (.entity e) → rulesOn id u.run.trace ⊆ e.fired) : u.Marked bound where
  frugal := hfrugal
  fresh other ho := by
    obtain ⟨hr, hv⟩ := hothers other (by omega)
    rw [hr, hv]
    exact hs.fresh other (by omega)
  waiting other ho := by
    rcases hqueue other ho with ⟨ho, hne⟩ | hnew | ⟨rfl, hown, _⟩
    · obtain ⟨hr, hv⟩ := hothers other hne
      rw [hr, hv]
      exact hs.waiting other ho
    · obtain ⟨hr, hv⟩ := hothers other (by omega)
      rw [hv, (hs.fresh other hnew).2]
      exact Nat.zero_le _
    · exact hown
  marked other ho e he := by
    rcases hqueue other ho with ⟨ho, hne⟩ | hnew | ⟨rfl, _, hown⟩
    · obtain ⟨hr, _⟩ := hothers other hne
      rw [hr]
      exact hs.marked other ho e ((hspares other ho).2.symm.trans he)
    · obtain ⟨hr, _⟩ := hothers other (by omega)
      rw [hr, (hs.fresh other hnew).1]
      exact List.nil_subset _
    · exact hown e he

lemma look (hs : s.Marked bound) {slot : Slot} {e : Entity}
    (hv : visitsOf id s.run.trace ≤ (rulesOn id s.run.trace).length) (hm : rulesOn id s.run.trace ⊆ e.fired) :
    (s.look id slot e).Marked bound := by
  refine ⟨hs.frugal.visited hv, e.adopt slot.around, rfl, ?_⟩
  rw [e.fired_adopt]
  exact hm

lemma grow {r : Run} (hr : r.slots.length = s.run.slots.length) (id : Nat) (path : Path) (sprout : Node × List Slot) :
    s.run.slots.length ≤ (State.grow { s with run := r } id path sprout).run.slots.length ∧
      ∀ other ∈ (State.grow { s with run := r } id path sprout).queue,
        other ∈ s.queue ∨ s.run.slots.length ≤ other := by
  constructor
  · change s.run.slots.length ≤ (r.slots ++ _).length
    rw [List.length_append, hr]
    exact Nat.le_add_right _ _
  · intro other ho
    rcases mem_push_queue.mp ho with ho | ⟨i, _, rfl⟩
    · exact Or.inl ho
    · refine Or.inr ?_
      change s.run.slots.length ≤ r.slots.length + i
      omega

lemma visits (hs : s.Marked bound) {f : Focus} (hf : s.Visits env f) : f.Marked bound := by
  obtain ⟨_, id, queue, slot, e, hq, hslot, he, _, rfl, _⟩ := hf
  have hid : id ∈ s.queue := by simp [hq]
  apply (hs.pop hq).look (hs.waiting id hid)
  apply hs.marked id hid
  have hpath : s.path? id = some slot.path := by rw [path?, hslot, Option.map_some]
  rw [designated_of_path? hpath]
  exact he

variable (hc : env.Copying bound)
include hc

lemma judged (hs : s.Marked bound) {slot : Slot} {e : Entity} {fate : Fate} {f : Focus}
    (hv : visitsOf id s.run.trace ≤ (rulesOn id s.run.trace).length) (hm : rulesOn id s.run.trace ⊆ e.fired)
    (hj : Bemjson.judge env (.unbounded env) (s.look id slot e) = some (fate, f)) :
    (s.look id slot e).Grows bound f ∧ f.Marked bound ∧ f.run.slots.length = s.run.slots.length ∧
      ∀ other, other ≠ id → rulesOn other f.run.trace = rulesOn other s.run.trace ∧
        visitsOf other f.run.trace = visitsOf other s.run.trace := by
  have hg := judge_grows hc hj
  refine ⟨hg, hg.marked (hs.look hv hm), (judge_touched (unbounded_within env) hj).length, fun other ho => ?_⟩
  exact ⟨(hg.others other ho).trans (rulesOn_cons rfl), (hg.visits other).trans (visitsOf_visited_ne ho)⟩

lemma turn (hs : s.Marked bound) (ht : s.Tidy) {slot : Slot} (hh : s.Held id slot.path)
    (hv : visitsOf id s.run.trace ≤ (rulesOn id s.run.trace).length)
    (hm : ∀ e, s.root.at? slot.path = some (.entity e) → rulesOn id s.run.trace ⊆ e.fired)
    (h : Turn env (.unbounded env) deep s id slot u) : u.Marked bound := by
  have hn := unbounded_within env
  have hid := lt_of_path? hh.path
  have hspares := (h.tidy hn ht hh).2
  have hpath : u.path? id = some slot.path := h.path?_old hn hh.path
  have hwaits : ∀ other ∈ s.queue, other ∈ s.queue ∧ other ≠ id := fun other ho =>
    ⟨ho, fun he => hh.absent (he ▸ ho)⟩
  cases h with
  | missing _ => exact hs
  | plain n _ _ =>
    obtain ⟨hlen, hqueue⟩ := grow (s := s) rfl id slot.path (n.sprout deep slot.around)
    exact hs.of_others hid hspares hs.frugal hlen (fun _ _ => ⟨rfl, rfl⟩)
      fun other ho => (hqueue other ho).imp (hwaits other) Or.inl
  | overrun e err _ _ =>
    have hquiet : (Event.failed err).Quiet := fun _ => ⟨rfl, rfl⟩
    refine hs.of_others hid hspares ((hs.frugal.visited hv).quiet hquiet) ?_ (fun other ho => ?_)
      fun other ho => Or.inl (hwaits other ho)
    · exact Nat.le_of_eq (List.length_modify _ _ _).symm
    · exact ⟨rfl, visitsOf_visited_ne ho⟩
  | failed e fate f err he _ hj _ =>
    obtain ⟨_, hf, hlen, hothers⟩ := hs.judged hc hv (hm e he) hj
    exact hs.of_others hid hspares hf.1 (Nat.le_of_eq hlen.symm) hothers fun other ho => Or.inl (hwaits other ho)
  | kept e d f hj _ =>
    obtain ⟨_, hf, hlen, hothers⟩ := hs.judged hc hv (hm e hj.entity) hj.judge
    obtain ⟨hlater, hqueue⟩ := grow hlen id slot.path _
    exact hs.of_others hid hspares hf.1 hlater hothers fun other ho => (hqueue other ho).imp (hwaits other) Or.inl
  | replaced e f hj =>
    obtain ⟨hg, ⟨hf, d, hd, hsub⟩, hlen, hothers⟩ := hs.judged hc hv (hm e hj.entity) hj.judge
    have hquiet : (Event.replaced id).Quiet := fun _ => ⟨rfl, rfl⟩
    have hslot : f.slot = id := hg.slot
    have hvisits : visitsOf id f.run.trace = visitsOf id s.run.trace + 1 := (hg.visits id).trans (visitsOf_visited id _)
    have hnew : (rulesOn id s.run.trace).length < (rulesOn id f.run.trace).length :=
      hg.replaced rfl ((judge_replaced rfl hj.judge).mpr rfl)
    refine hs.of_others hid hspares (hf.quiet hquiet) ?_ hothers fun other ho => ?_
    · exact (hlen.symm.trans (List.length_modify _ _ _).symm).le
    · rcases List.mem_append.mp ho with ho | ho
      · exact Or.inl (hwaits other ho)
      · refine Or.inr (Or.inr ⟨List.mem_singleton.mp ho, ?_, fun c hat => ?_⟩)
        · exact hvisits.trans_le (Nat.le_trans (Nat.succ_le_succ hv) hnew)
        · have hnode : (s.root.setAt f.node slot.path).at? slot.path = some f.node := by
            rw [Node.at?_setAt, hj.entity, Option.map_some]
          obtain rfl : d = c := by
            have hat' := (designated_of_path? hpath).symm.trans hat
            exact Node.entity.inj (hd.symm.trans (Option.some.inj (hnode.symm.trans hat')))
          rw [← hslot]
          exact hsub

lemma next (hs : s.Marked bound) (ht : s.Tidy) (h : s.Next env (.unbounded env) deep t) : t.Marked bound := by
  obtain ⟨id, queue, slot, u, _, hq, hslot, hpop, hh, hturn, rfl⟩ := Next.turn (unbounded_within env) ht h
  have hid : id ∈ s.queue := by simp [hq]
  have hu : u.Marked bound := by
    apply (hs.pop hq).turn hc hpop hh (hs.waiting id hid) _ hturn
    intro e he
    exact hs.marked id hid e ((designated_of_path? (s := s) hh.path).trans he)
  exact ⟨hu.frugal, hu.fresh, hu.waiting, hu.marked⟩

lemma reaches (hs : s.Marked bound) (ht : s.Tidy) (h : s.Reaches env (.unbounded env) deep t) : t.Marked bound := by
  induction h with
  | refl => exact hs
  | tail hr hstep ih => exact ih.next hc (ht.reaches (unbounded_within env) hr) hstep

end Marked

section Moments

variable (hc : env.Copying bound)
include hc

lemma Moment.frugal {first : State} {trace : List Event} (h : first.Moment env deep trace) (hs : first.Marked bound)
    (ht : first.Tidy) : Frugal bound trace := by
  have hcall : ∀ {deep s f g h c}, first.Reaches env (.unbounded env) deep s → s.Visits env f →
      Relation.ReflTransGen (Focus.Reenters env) f g → g.Asks env c h → Frugal bound h.run.trace := by
    intro deep s f g h c hr hf hfg hasks
    have hmarked := (hs.reaches hc ht hr).visits hf
    exact (((Focus.Reenters.grows hc hfg).trans (hasks.grows hc).1).marked hmarked).1
  cases h with
  | between _ _ s hr => exact (hs.reaches hc ht hr).frugal
  | call _ _ s f g h c hr hf hfg hasks => exact hcall hr hf hfg hasks
  | inner _ _ s f g h tree trace hr hf hfg hasks _ => exact (hcall hr hf hfg hasks).quiet fun _ => ⟨rfl, rfl⟩

lemma Tries.marked {first : State} {f : Focus} (h : first.Tries env deep f) (hs : first.Marked bound)
    (ht : first.Tidy) : f.Marked bound := by
  induction h with
  | visit deep first s f hr hf => exact (hs.reaches hc ht hr).visits hf
  | again deep first f g _ hasks ih => exact (hasks.grows hc).1.marked (ih hs ht)
  | inner deep first f g h tree _ _ _ _ ih => exact ih (.start _ _ _ _ _ _) (.start _ _ _ _ _)

/-- Each time that the remaining rules are tried once more, a rule has been run that was not run before. -/
lemma not_endless {chain : Nat → Focus} (hfirst : (chain 0).Marked bound) :
    ¬∀ i, (chain i).Reenters env (chain (i + 1)) := by
  intro hchain
  have hstep : ∀ i, (chain i).Marked bound ∧ i ≤ (rulesOn (chain i).slot (chain i).run.trace).length := by
    intro i
    induction i with
    | zero => exact ⟨hfirst, Nat.zero_le _⟩
    | succ i ih =>
      obtain ⟨hmarked, hle⟩ := ih
      obtain ⟨hg, hlt⟩ := Focus.Asks.grows hc (hchain i)
      refine ⟨hg.marked hmarked, ?_⟩
      rw [hg.slot]
      exact Nat.lt_of_le_of_lt hle hlt
  obtain ⟨⟨hfrugal, _⟩, hle⟩ := hstep (bound + 1)
  exact absurd (Nat.le_trans hle (hfrugal.length_le _)) (Nat.not_succ_le_self bound)

end Moments

end State

lemma Setting.Copying.build {options : Options} {idStart : String} {rules : List Rule} {order : RuleOrder}
    (h : ∀ rule ∈ rules, rule.body.ReturnsCopies ⟨options, .build rules order, idStart⟩) :
    Setting.Copying ⟨options, .build rules order, idStart⟩ rules.length where
  listed c hc := RuleIndex.lists_build hc
  bodies rule hr := by
    have hrules : (RuleIndex.build rules order).rules = rules := RuleIndex.rules_build rules order
    exact h rule (hrules ▸ hr)

/-- If rules put nothing but copies in place of nodes, then no rule is run twice on the node of a slot, over all visits
of the slot and all calls for the remaining rules; a slot has at most one visit more than there are rules; and the
remaining rules are not tried for ever. -/
theorem rule_once_of_copies (options : Options) (idStart : String) (rules : List Rule) (order : RuleOrder)
    (hcopies : ∀ rule ∈ rules, rule.body.ReturnsCopies ⟨options, .build rules order, idStart⟩) (deep : Bool)
    (tree : Node) (block : Option String) (visits : Nat) (journal : Journal) :
    (∀ trace,
      (State.start ⟨options, .build rules order, idStart⟩ tree block visits journal).Moment
        ⟨options, .build rules order, idStart⟩ deep trace →
      ∀ slot, (rulesOn slot trace).Nodup ∧ visitsOf slot trace ≤ rules.length + 1) ∧
    ¬∃ chain : Nat → Focus,
      (State.start ⟨options, .build rules order, idStart⟩ tree block visits journal).Tries
        ⟨options, .build rules order, idStart⟩ deep (chain 0) ∧
      ∀ i, (chain i).Reenters ⟨options, .build rules order, idStart⟩ (chain (i + 1)) := by
  have hc := Setting.Copying.build hcopies
  have hs := State.Marked.start ⟨options, .build rules order, idStart⟩ rules.length tree block visits journal
  have ht := State.Tidy.start ⟨options, .build rules order, idStart⟩ tree block visits journal
  constructor
  · intro trace h slot
    have hfrugal := h.frugal hc hs ht
    exact ⟨hfrugal.once slot, Nat.le_trans (hfrugal.visits slot) (Nat.succ_le_succ (hfrugal.length_le slot))⟩
  · rintro ⟨chain, hfirst, hchain⟩
    exact State.not_endless hc (hfirst.marked hc hs ht) hchain

def copying : List Rule :=
  [⟨.selector { block := { name := "a", cond := none }, elem := none },
      .call .tryRest fun _ => .call .node fun m => .done (some m)⟩,
    ⟨.selector { block := { name := "a", cond := none }, elem := none },
      .call .node fun m => .done (some (.entity ((m.entity?.getD {}).setField "tag" (.string "p"))))⟩]

theorem rule_once_of_copying : ∃ trace,
    (State.start ⟨{}, .build copying .registration, "uniq"⟩ (.entity { block := some "a" }) none 0 {}).Moment
      ⟨{}, .build copying .registration, "uniq"⟩ true trace ∧
    rulesOn 0 trace = [1, 0] ∧ (rulesOn 0 trace).Nodup ∧ visitsOf 0 trace = 2 ∧ visitsOf 0 trace ≤ copying.length + 1 := by
  have hcopies : ∀ rule ∈ copying, rule.body.ReturnsCopies ⟨{}, .build copying .registration, "uniq"⟩ := by
    rintro rule hr
    rcases List.mem_pair.mp hr with rfl | rfl
    · exact .call fun _ => .node fun m => .node
    · exact .node fun m => .write _ _ _ _ .entity
  obtain ⟨s, hs, hrules, hvisits⟩ : ∃ s,
      expand ⟨{}, .build copying .registration, "uniq"⟩ 5 true (.entity { block := some "a" }) none {} = some s ∧
        rulesOn 0 s.run.trace = [1, 0] ∧ visitsOf 0 s.run.trace = 2 := ⟨_, rfl, rfl, rfl⟩
  obtain ⟨hr, _⟩ := drain_iff_run.mp ((drain_unbounded _ true _ s).mpr ⟨5, hs⟩)
  obtain ⟨hnodup, hle⟩ := (rule_once_of_copies {} "uniq" copying .registration hcopies true
    (.entity { block := some "a" }) none 0 {}).1 _ (.between _ _ s hr) 0
  exact ⟨_, .between _ _ s hr, hrules, hnodup, hvisits, hle⟩

end Steps

end Bemjson
