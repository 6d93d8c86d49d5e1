import Bemjson.Proofs.DepthFirst.Dues
import Bemjson.Engine
import Mathlib.Logic.Hydra
import Mathlib.Tactic.Abel

/-! Slots that wait in a queue come to the same tree as plain recursion: no order of visits can be told from another. -/

namespace Bemjson

open Focus (Alike)

namespace State

variable {env : Setting} {nested D : Nested} {deep : Bool} {s t u : State}

lemma owes_congr (hroot : t.root = s.root) (hslots : t.run.slots = s.run.slots) (id : Nat) (d : Due) :
    t.Owes env D deep id d ↔ s.Owes env D deep id d := by
  have hpath : t.path? id = s.path? id := by rw [path?, path?, hslots]
  have hspot : t.spot? id = s.spot? id := by rw [spot?, spot?, hslots]
  have hnode : t.designated id = s.designated id := by rw [designated, designated, hpath, hroot]
  constructor
  · rintro ⟨hp, hx⟩
    rw [hspot, hnode] at hx
    exact ⟨hpath.symm.trans hp, hx⟩
  · rintro ⟨hp, hx⟩
    rw [← hspot, ← hnode] at hx
    exact ⟨hpath.trans hp, hx⟩

def Dues (env : Setting) (D : Nested) (deep : Bool) (s : State) (ds : List Due) : Prop :=
  List.Forall₂ (s.Owes env D deep) s.queue ds

lemma dues_congr (hroot : t.root = s.root) (hslots : t.run.slots = s.run.slots) (hqueue : t.queue = s.queue)
    (ds : List Due) : t.Dues env D deep ds ↔ s.Dues env D deep ds := by
  rw [Dues, Dues, hqueue]
  exact forall₂_congr_left (fun id _ d => owes_congr hroot hslots id d) ds

lemma dues_pop {id : Nat} {queue : List Nat} (hq : s.queue = id :: queue) (ds : List Due) :
    s.Dues env D deep ds ↔
      ∃ d ds', ds = d :: ds' ∧ s.Owes env D deep id d ∧ (s.pop id queue).Dues env D deep ds' := by
  have hpop : ∀ ds', (s.pop id queue).Dues env D deep ds' ↔ List.Forall₂ (s.Owes env D deep) queue ds' :=
    forall₂_congr_left fun other _ d => owes_congr (t := s.pop id queue) (s := s) rfl rfl other d
  simp only [Dues, hq, List.forall₂_cons_left_iff]
  constructor
  · rintro ⟨d, ds', hd, hds, rfl⟩
    exact ⟨d, ds', rfl, hd, (hpop ds').mpr hds⟩
  · rintro ⟨d, ds', rfl, hd, hds⟩
    exact ⟨d, ds', hd, (hpop ds').mp hds, rfl⟩

lemma patch_swap {path : Path} {ps qs : List (Path × Node)} (n : Node) (hp : ∀ p ∈ ps, path.Apart p.1)
    (hq : ∀ q ∈ qs, path <+: q.1) : (n.patch ps).patch qs = (n.patch qs).patch ps := by
  apply Node.patch_comm
  intro p hpm q hqm
  obtain ⟨r, hr⟩ := hq q hqm
  rw [← hr]
  exact (hp p hpm).symm.append_right r

lemma Owes.mem_path {ids : List Nat} {ds : List Due} {P : Path → Prop} (h : List.Forall₂ (s.Owes env D deep) ids ds)
    (hP : ∀ id ∈ ids, ∀ p, s.path? id = some p → P p) : ∀ p ∈ ds.map Due.patch, P p.1 := by
  intro p hp
  induction h with
  | nil => cases hp
  | cons ho _ ih =>
    rcases List.mem_cons.mp hp with rfl | hp
    · exact hP _ List.mem_cons_self _ ho.path
    · exact ih (fun id hid => hP id (List.mem_cons_of_mem _ hid)) hp

section Turn

variable {id : Nat} {slot : Slot} {spot : Spot} {n : Node} {ids : List Nat} {ds : List Due}
  (hn : nested.Within Focus.Onward) (ht : s.Tidy) (hh : s.Held id slot.path) (h : Turn env nested deep s id slot u)
  (hon : HandsOn env D deep s u slot.path spot n ids)

include hn ht hh h in
lemma Turn.dues_old (ds : List Due) :
    List.Forall₂ (u.Owes env D deep) s.queue ds ↔ s.Dues env D deep ds :=
  forall₂_congr_left (fun _ ho d => h.owes_other hn ht hh ho d) ds

include ht hh hon

lemma HandsOn.swap {ds₁ ds₂ : List Due} (h₁ : s.Dues env D deep ds₁)
    (h₂ : List.Forall₂ (u.Owes env D deep) ids ds₂) :
    u.root.patch ((ds₁ ++ ds₂).map Due.patch) = (u.root.patch (ds₂.map Due.patch)).patch (ds₁.map Due.patch) := by
  have hapart : ∀ p ∈ ds₁.map Due.patch, slot.path.Apart p.1 :=
    Owes.mem_path h₁ fun other ho q hq => ht.apart hh ho hq
  have hbelow : ∀ p ∈ ds₂.map Due.patch, slot.path <+: p.1 := Owes.mem_path h₂ hon.below
  rw [List.map_append, Node.patch_append]
  exact patch_swap u.root hapart hbelow

include hn h

lemma Turn.gathers (hds : u.Dues env D deep ds) :
    ∃ ds' fuel r, s.Dues env D deep ds' ∧ expandNode env D deep fuel spot n = some r ∧
      s.root.patch ((slot.path, r) :: ds'.map Due.patch) = u.root.patch (ds.map Due.patch) := by
  rw [Dues, hon.queue] at hds
  obtain ⟨ds₁, ds₂, rfl, h₁, h₂⟩ := forall₂_append hds
  rw [h.dues_old hn ht hh] at h₁
  obtain ⟨fuel, r, hr, hpatch⟩ := hon.up ds₂ h₂
  refine ⟨ds₁, fuel, r, h₁, hr, ?_⟩
  rw [hon.swap ht hh h₁ h₂, hpatch, Node.patch_cons]

lemma Turn.passes {fuel : Nat} {r : Node} (hds : s.Dues env D deep ds)
    (hr : expandNode env D deep (fuel + 1) spot n = some r) :
    ∃ ds', u.Dues env D deep (ds ++ ds') ∧ (∀ d ∈ ds', d.fuel = fuel) ∧
      u.root.patch ((ds ++ ds').map Due.patch) = s.root.patch ((slot.path, r) :: ds.map Due.patch) := by
  obtain ⟨ds', h', hall, hpatch⟩ := hon.down fuel r hr
  refine ⟨ds', ?_, hall, ?_⟩
  · rw [Dues, hon.queue]
    exact List.rel_append ((h.dues_old hn ht hh ds).mpr hds) h'
  · rw [hon.swap ht hh hds h', hpatch, Node.patch_cons]

end Turn

def Matched (env : Setting) (nested D : Nested) (s : State) : Prop :=
  ∀ id queue slot spot e, s.queue = id :: queue → s.run.slots[id]? = some slot → s.spot? id = some spot →
    s.designated id = some (.entity e) →
      Agrees env nested D ((s.pop id queue).look id slot e) (spot.focus (e.adopt spot.around))

lemma cutExpand_dues (d : Due) (ds ds' : List Due) (h : ∀ d' ∈ ds', d'.fuel < d.fuel) :
    Relation.CutExpand (· < ·) ((ds ++ ds').map Due.fuel : Multiset Nat) ((d :: ds).map Due.fuel) := by
  refine ⟨(ds'.map Due.fuel : Multiset Nat), d.fuel, ?_, ?_⟩
  · intro k hk
    obtain ⟨d', hd', rfl⟩ := List.mem_map.mp (Multiset.mem_coe.mp hk)
    exact h d' hd'
  · rw [List.map_append, List.map_cons, ← Multiset.coe_add, ← Multiset.cons_coe, ← Multiset.singleton_add]
    abel

lemma Next.hands_on (hn : nested.Within Focus.Onward) (hloops : env.options.detectLoops = false) (ht : s.Tidy)
    (hag : s.Matched env nested D) (h : s.Next env nested deep t) : t.run.error = none ∧
      (∀ ds, t.Dues env D deep ds → ∃ ds', s.Dues env D deep ds' ∧
        s.root.patch (ds'.map Due.patch) = t.root.patch (ds.map Due.patch)) ∧
      ∀ ds, s.Dues env D deep ds → ∃ ds', t.Dues env D deep ds' ∧
        t.root.patch (ds'.map Due.patch) = s.root.patch (ds.map Due.patch) ∧
        Relation.CutExpand (· < ·) (ds'.map Due.fuel : Multiset Nat) (ds.map Due.fuel) := by
  obtain ⟨id, queue, slot, u, he, hq, hslot, hpop, hh, hturn, rfl⟩ := Next.turn hn ht h
  obtain ⟨p, n, hp, hm⟩ := ht.known id (by simp [hq])
  obtain rfl := Option.some.inj (hp.symm.trans hh.path)
  obtain ⟨spot, hspot⟩ : ∃ spot, s.spot? id = some spot := by
    rw [spot?, spotAt, hslot]
    exact ⟨_, rfl⟩
  obtain ⟨slot', hs', haround, _⟩ := spotAt_eq_some.mp hspot
  obtain rfl := Option.some.inj (hslot.symm.trans hs')
  have hnode : s.designated id = some n := (designated_of_path? hp).trans hm
  have hagree : ∀ e, n = .entity e →
      Agrees env nested D ((s.pop id queue).look id slot e) (spot.focus (e.adopt spot.around)) := by
    rintro e rfl
    exact hag id queue slot spot e hq hslot hspot hnode
  obtain ⟨hsound, ids, hon⟩ := hturn.hands_on (D := D) (s := s.pop id queue) hn hloops hpop hh he hspot hm haround hagree
  have hmeasured : ∀ ds, u.measured.Dues env D deep ds ↔ u.Dues env D deep ds := dues_congr rfl rfl rfl
  refine ⟨hsound, ?_, ?_⟩
  · intro ds hds
    obtain ⟨ds', fuel, r, hds', hr, hpatch⟩ := hturn.gathers hn hpop hh hon ((hmeasured ds).mp hds)
    refine ⟨⟨fuel, slot.path, r⟩ :: ds', ?_, hpatch⟩
    exact (dues_pop hq _).mpr ⟨_, ds', rfl, ⟨hp, spot, n, hspot, hnode, hr⟩, hds'⟩
  · intro ds hds
    obtain ⟨⟨fuel, path, r⟩, ds₁, rfl, ⟨hdp, spot', n', hs', hn', hx⟩, h₁⟩ := (dues_pop hq ds).mp hds
    obtain rfl := Option.some.inj (hspot.symm.trans hs')
    obtain rfl := Option.some.inj (hnode.symm.trans hn')
    obtain rfl := Option.some.inj (hp.symm.trans hdp)
    cases fuel with
    | zero => cases hx
    | succ fuel =>
      obtain ⟨ds₂, h₂, hall, hpatch⟩ := hturn.passes hn hpop hh hon h₁ hx
      refine ⟨ds₁ ++ ds₂, (hmeasured _).mpr h₂, hpatch, cutExpand_dues _ ds₁ ds₂ ?_⟩
      intro d hd
      rw [hall d hd]
      exact Nat.lt_succ_self fuel

lemma Matched.of_simulates (hi : ∀ rule ∈ env.index.rules, rule.body.IdFree) (hs : nested.Mimics D) (ht : s.Tidy)
    (he : s.run.error = none) : s.Matched env nested D := by
  intro id queue slot spot e hq hslot hspot _ fate f hf
  have ha : ((s.pop id queue).look id slot e).Alike (spot.focus (e.adopt spot.around)) :=
    look_alike (ht.pop hq).1 he hslot hspot e
  exact judge_alike hi hs ha hf

lemma Dues.judged (hi : ∀ rule ∈ env.index.rules, rule.body.IdFree) (hs : D.Mimics nested) {ds : List Due}
    (ht : s.Tidy) (he : s.run.error = none) (hds : s.Dues env D deep ds) {id : Nat} {queue : List Nat} {slot : Slot}
    {spot : Spot} {e : Entity} (hq : s.queue = id :: queue) (hslot : s.run.slots[id]? = some slot)
    (hspot : s.spot? id = some spot) (hnode : s.designated id = some (.entity e)) :
    ∃ fate f g, judge env nested ((s.pop id queue).look id slot e) = some (fate, f) ∧
      judge env D (spot.focus (e.adopt spot.around)) = some (fate, g) ∧ f.Alike g := by
  obtain ⟨⟨fuel, path, r⟩, _, rfl, ⟨_, spot', n, hs', hn', hx⟩, _⟩ := (dues_pop hq ds).mp hds
  obtain rfl := Option.some.inj (hspot.symm.trans hs')
  obtain rfl := Option.some.inj (hnode.symm.trans hn')
  cases fuel with
  | zero => cases hx
  | succ fuel =>
    obtain ⟨⟨fate, g⟩, hg, _⟩ := Option.bind_eq_some_iff.mp hx
    have halike : ((s.pop id queue).look id slot e).Alike (spot.focus (e.adopt spot.around)) :=
      look_alike (ht.pop hq).1 he hslot hspot e
    obtain ⟨f, hf, ha⟩ := judge_alike hi hs halike.symm hg
    exact ⟨fate, f, g, hf, hg, ha.symm⟩

lemma Dues.matched (hi : ∀ rule ∈ env.index.rules, rule.body.IdFree) (hs : D.Mimics nested) {ds : List Due}
    (ht : s.Tidy) (he : s.run.error = none) (hds : s.Dues env D deep ds) : s.Matched env nested D := by
  intro id queue slot spot e hq hslot hspot hnode fate f hf
  obtain ⟨fate', f', g, hf', hg, ha⟩ := hds.judged hi hs ht he hq hslot hspot hnode
  cases hf.symm.trans hf'
  exact ⟨g, hg, ha⟩

lemma Dues.exists_step (hi : ∀ rule ∈ env.index.rules, rule.body.IdFree) (hs : D.Mimics nested) {ds : List Due}
    (ht : s.Tidy) (he : s.run.error = none) (hds : s.Dues env D deep ds) {id : Nat} {queue : List Nat}
    (hq : s.queue = id :: queue) : ∃ t, s.Next env nested deep t := by
  apply Bemjson.exists_step he hq
  intro slot e hslot hnode _
  have hpath : s.path? id = some slot.path := by rw [path?, hslot, Option.map_some]
  obtain ⟨spot, hspot⟩ : ∃ spot, s.spot? id = some spot := by
    rw [spot?, spotAt, hslot]
    exact ⟨_, rfl⟩
  obtain ⟨fate, f, _, hf, _⟩ := hds.judged hi hs ht he hq hslot hspot ((designated_of_path? hpath).trans hnode)
  exact ⟨_, hf⟩

section Runs

variable (hn : nested.Within Focus.Onward) (hloops : env.options.detectLoops = false)
  (hi : ∀ rule ∈ env.index.rules, rule.body.IdFree)
include hn hloops hi

lemma Reaches.dues (hs : nested.Mimics D) (h : s.Reaches env nested deep t) (ht : s.Tidy) (he : s.run.error = none)
    (hover : t.Over) : t.run.error = none ∧ ∃ ds, s.Dues env D deep ds ∧ s.root.patch (ds.map Due.patch) = t.root := by
  induction h using Relation.ReflTransGen.head_induction_on with
  | refl =>
    refine ⟨he, [], ?_, rfl⟩
    rw [Dues, hover.resolve_left (by rw [he]; exact Bool.false_ne_true)]
    exact .nil
  | head hstep _ ih =>
    obtain ⟨he', hup, _⟩ := hstep.hands_on hn hloops ht (Matched.of_simulates hi hs ht he)
    obtain ⟨hsound, ds, hds, hroot⟩ := ih (ht.next hn hstep) he'
    obtain ⟨ds', hds', hpatch⟩ := hup ds hds
    exact ⟨hsound, ds', hds', hpatch.trans hroot⟩

lemma Dues.reaches (hs : D.Mimics nested) {ds : List Due} (ht : s.Tidy) (he : s.run.error = none)
    (hds : s.Dues env D deep ds) : ∃ t, s.Reaches env nested deep t ∧ t.queue = [] ∧ t.run.error = none ∧
      t.root = s.root.patch (ds.map Due.patch) := by
  have hacc : Acc (Relation.CutExpand (· < ·)) (ds.map Due.fuel : Multiset Nat) :=
    (Nat.lt_wfRel.wf.cutExpand).apply _
  generalize hfuels : (ds.map Due.fuel : Multiset Nat) = fuels at hacc
  induction hacc generalizing s ds with
  | intro fuels _ ih =>
    subst hfuels
    cases hq : s.queue with
    | nil =>
      rw [Dues, hq] at hds
      cases hds
      exact ⟨s, .refl, hq, he, rfl⟩
    | cons id queue =>
      obtain ⟨t, hstep⟩ := hds.exists_step hi hs ht he hq
      obtain ⟨he', _, hdown⟩ := hstep.hands_on hn hloops ht (hds.matched hi hs ht he)
      obtain ⟨ds', hds', hpatch, hcut⟩ := hdown ds hds
      obtain ⟨r, hr, hrq, hre, hroot⟩ := ih _ hcut (ht.next hn hstep) he' hds' rfl
      exact ⟨r, .head hstep hr, hrq, hre, hroot.trans hpatch⟩

end Runs

section Start

variable (tree : Node) (block : Option String) (visits : Nat) (journal : Journal)

lemma start_dues (env : Setting) (ds : List Due) :
    (State.start env tree block visits journal).Dues env D deep ds ↔
      ∃ fuel n, expandNode env D deep fuel { around := { block } } tree = some n ∧ ds = [⟨fuel, [], n⟩] := by
  constructor
  · intro h
    obtain _ | ⟨hd, hrest⟩ := h
    rename_i d ds
    cases hrest
    obtain ⟨fuel, path, n⟩ := d
    obtain ⟨hp, spot, m, hs, hn, hx⟩ := hd
    cases hs
    cases hn
    cases hp
    exact ⟨fuel, n, hx, rfl⟩
  · rintro ⟨fuel, n, hx, rfl⟩
    exact List.Forall₂.cons ⟨rfl, { around := { block } }, tree, rfl, rfl, hx⟩ .nil

end Start

end State

lemma Focus.Alike.absorb {f g : Focus} (h : f.Alike g) {s : State} (he : s.run.error = none) :
    (f.absorb s).1 = s.root ∧ (f.absorb s).2.Alike g := by
  have ha : (f.mapRun fun r => { r.note (.inner s.run.trace) with journal := s.run.journal, visits := s.run.visits }).Alike
      (g.mapRun fun r => r) := h.mapRun _ _ rfl rfl rfl rfl
  rw [Focus.absorb, he]
  exact ⟨rfl, ha⟩

section Agreement

variable {env : Setting} (hloops : env.options.detectLoops = false)
  (hi : ∀ rule ∈ env.index.rules, rule.body.IdFree)
include hloops hi

lemma expandNode_of_drain {nested D : Nested} (hn : nested.Within Focus.Onward) (hs : nested.Mimics D) {deep : Bool}
    {steps visits : Nat} {tree : Node} {block : Option String} {journal : Journal} {s : State}
    (h : drain env nested deep steps (.start env tree block visits journal) = some s) :
    s.run.error = none ∧ ∃ fuel, expandNode env D deep fuel { around := { block } } tree = some s.root := by
  obtain ⟨hr, hover⟩ := drain_iff_run.mp ⟨steps, h⟩
  obtain ⟨he, ds, hds, hroot⟩ :=
    hr.dues hn hloops hi hs (State.Tidy.start env tree block visits journal) rfl hover
  obtain ⟨fuel, n, hx, rfl⟩ := (State.start_dues tree block visits journal env ds).mp hds
  refine ⟨he, fuel, hx.trans (congrArg some ?_)⟩
  exact hroot

lemma drain_of_expandNode {nested D : Nested} (hn : nested.Within Focus.Onward) (hs : D.Mimics nested) {deep : Bool}
    {fuel : Nat} {tree n : Node} {block : Option String}
    (h : expandNode env D deep fuel { around := { block } } tree = some n) (visits : Nat) (journal : Journal) :
    ∃ steps s, drain env nested deep steps (.start env tree block visits journal) = some s ∧ s.run.error = none ∧
      s.root = n := by
  have hds := (State.start_dues tree block visits journal env [⟨fuel, [], n⟩]).mpr ⟨fuel, n, h, rfl⟩
  obtain ⟨s, hr, hq, he, hroot⟩ :=
    hds.reaches hn hloops hi hs (State.Tidy.start env tree block visits journal) rfl
  obtain ⟨steps, hd⟩ := drain_iff_run.mpr ⟨hr, Or.inr hq⟩
  exact ⟨steps, s, hd, he, hroot⟩

lemma ofFuel_simulates : ∀ fuel, (Nested.ofFuel env fuel).Mimics (.depthFirstLimit env) := by
  refine .of_expand (alike_twin hi) (fun _ _ => ⟨rfl, rfl⟩) (fun _ _ => rfl)
    (fun _ => ⟨fun _ _ _ h => h, fun _ _ _ _ _ h => h⟩)
    (fun g g' fate h => (depthFirstLimit_tryRest env g g').mpr ⟨fate, h⟩) ?_
  intro fuel ih tree f g n f' ha h _
  obtain ⟨s, hs, hr⟩ := Option.map_eq_some_iff.mp h
  obtain ⟨he, m, hm⟩ := expandNode_of_drain hloops hi (ofFuel_within env fuel) ih hs
  obtain ⟨hroot, ha'⟩ := ha.absorb he
  rw [hr] at hroot ha'
  obtain rfl : n = s.root := hroot
  rw [ha.node] at hm
  exact ⟨g, (depthFirstLimit_expand env tree g _).mpr ⟨m, _, hm, rfl⟩, ha'⟩

lemma depthFirst_simulates : ∀ fuel, (Nested.depthFirst env fuel).Mimics (.unbounded env) := by
  refine .of_expand (alike_twin hi) (fun _ _ => ⟨rfl, rfl⟩) (fun _ _ => rfl)
    (fun _ => ⟨fun _ _ _ h => h, fun _ _ _ _ _ h => h⟩)
    (fun g g' fate h => (tryRest_unbounded env g g').mpr ⟨fate, h⟩) ?_
  intro fuel ih tree f g n f' ha h _
  obtain ⟨m, hm, hr⟩ := Option.map_eq_some_iff.mp h
  cases hr
  rw [ha.node] at hm
  obtain ⟨steps, s, hs, he, rfl⟩ :=
    drain_of_expandNode hloops hi (unbounded_within env) ih hm g.run.visits g.run.journal
  obtain ⟨hroot, ha'⟩ := ha.symm.absorb he
  exact ⟨(g.absorb s).2, (expand_unbounded env tree g _).mpr ⟨steps, s, hs, Prod.ext hroot rfl⟩, ha'.symm⟩

end Agreement

/-- Without loop detection, and where no rule asks for a fresh id, a queue of slots comes to an end exactly if plain
recursion does, and then to the same tree. -/
theorem expand_eq_depthFirst (engine : Engine) (hloops : engine.options.detectLoops = false)
    (hi : ∀ rule ∈ engine.index.rules, rule.body.IdFree) (tree : Node) (block : Option String) (deep : Bool)
    (journal : Journal) (r : Except LoopError Node) :
    (∃ fuel s, engine.expand fuel tree block deep journal = some s ∧ s.result = r) ↔
      ∃ fuel t, expandDepthFirst engine.setting fuel deep tree block = some t ∧ r = .ok t := by
  have hresult : ∀ s : State, s.run.error = none → s.result = .ok s.root := by
    intro s he
    rw [State.result, he]
  constructor
  · rintro ⟨fuel, s, hs, rfl⟩
    have hs : drain engine.setting (.ofFuel engine.setting fuel) deep fuel (.start engine.setting tree block 0 journal) =
        some s := hs
    obtain ⟨he, m, hm⟩ := expandNode_of_drain hloops hi (ofFuel_within _ fuel) (ofFuel_simulates hloops hi fuel) hs
    obtain ⟨m', hm'⟩ := (expandNode_limit engine.setting deep _ tree _).mp ⟨m, hm⟩
    exact ⟨m', s.root, hm', hresult s he⟩
  · rintro ⟨fuel, t, ht, rfl⟩
    have ht : expandNode engine.setting (.depthFirst engine.setting fuel) deep fuel { around := { block } } tree = some t := ht
    obtain ⟨steps, s, hs, he, rfl⟩ :=
      drain_of_expandNode hloops hi (unbounded_within _) (depthFirst_simulates hloops hi fuel) ht 0 journal
    obtain ⟨fuel', hd⟩ := (drain_unbounded engine.setting deep _ s).mp ⟨steps, hs⟩
    exact ⟨fuel', s, hd, hresult s he⟩

def swapRule : Rule where
  reach := .before
  body := .call .node fun n => .call (.inherited "key") fun _ =>
    .done (if n.entity?.any fun e => e.block == some "a" then some (.entity { block := some "b" }) else none)

theorem expand_eq_depthFirst_of_swap : ∃ fuel s,
    Engine.expand { rules := [swapRule] } fuel (.list [.entity { block := some "a" }, .entity { block := some "c" }]) none
      true {} = some s ∧ ∃ t, s.result = .ok t ∧ (t.at? [.item 0]).bind (fun n => n.entity?.bind Entity.block) = some "b" := by
  have hfree : ∀ rule ∈ (Engine.index { rules := [swapRule] }).rules, rule.body.IdFree := by
    intro rule hr
    obtain rfl := List.mem_singleton.mp hr
    exact .call _ _ (by simp) fun _ => .call _ _ (by simp) fun _ => .done _
  obtain ⟨fuel, s, hs, hr⟩ := (expand_eq_depthFirst { rules := [swapRule] } rfl hfree
    (.list [.entity { block := some "a" }, .entity { block := some "c" }]) none true {} _).mpr ⟨5, _, rfl, rfl⟩
  exact ⟨fuel, s, hs, _, hr, rfl⟩

end Bemjson
