import Bemjson.Proofs.DepthFirst.Spots

namespace Bemjson

structure Due where
  fuel : Nat
  path : Path
  node : Node

def Due.patch (d : Due) : Path × Node := (d.path, d.node)

def Due.lower (fuel : Nat) (path : Path) (p : Path × Node) : Due := ⟨fuel, path ++ p.1, p.2⟩

section Lists

variable {α β : Type}

lemma forall₂_range' {R : Nat → β → Prop} {S : α → β → Prop} {xs : List α} {start : Nat}
    (h : ∀ i x, xs[i]? = some x → ∀ b, R (start + i) b ↔ S x b) (bs : List β) :
    List.Forall₂ R (List.range' start xs.length) bs ↔ List.Forall₂ S xs bs := by
  induction xs generalizing start bs with
  | nil =>
    rw [List.length_nil, List.range'_zero, List.forall₂_nil_left_iff, List.forall₂_nil_left_iff]
  | cons x xs ih =>
    rw [List.length_cons, List.range'_succ]
    have htail : ∀ i y, xs[i]? = some y → ∀ b, R (start + 1 + i) b ↔ S y b := by
      intro i y hy b
      have hi := h (i + 1) y (by rw [List.getElem?_cons_succ]; exact hy) b
      rwa [show start + (i + 1) = start + 1 + i by omega] at hi
    cases bs with
    | nil => simp
    | cons b bs => rw [List.forall₂_cons, List.forall₂_cons, ih htail, ← h 0 x rfl b, Nat.add_zero]

lemma forall₂_append {R : α → β → Prop} {as bs : List α} {cs : List β} (h : List.Forall₂ R (as ++ bs) cs) :
    ∃ cs₁ cs₂, cs = cs₁ ++ cs₂ ∧ List.Forall₂ R as cs₁ ∧ List.Forall₂ R bs cs₂ := by
  induction as generalizing cs with
  | nil => exact ⟨[], cs, rfl, .nil, h⟩
  | cons a as ih =>
    obtain _ | ⟨hac, hrest⟩ := h
    obtain ⟨cs₁, cs₂, rfl, h₁, h₂⟩ := ih hrest
    exact ⟨_ :: cs₁, cs₂, rfl, .cons hac h₁, h₂⟩

lemma exists_fuel (ds : List Due) : ∃ fuel, ∀ d ∈ ds, d.fuel ≤ fuel := by
  induction ds with
  | nil => exact ⟨0, fun d hd => by cases hd⟩
  | cons d ds ih =>
    obtain ⟨fuel, h⟩ := ih
    refine ⟨max d.fuel fuel, ?_⟩
    intro d' hd
    rcases List.mem_cons.mp hd with rfl | hd
    · exact Nat.le_max_left _ _
    · exact Nat.le_trans (h d' hd) (Nat.le_max_right _ _)

end Lists

namespace State

variable {env : Setting} {nested D : Nested} {deep : Bool} {s u : State} {id : Nat} {slot : Slot} {spot : Spot}

structure Owes (env : Setting) (D : Nested) (deep : Bool) (s : State) (id : Nat) (d : Due) : Prop where
  path : s.path? id = some d.path
  expanded : ∃ spot n, s.spot? id = some spot ∧ s.designated id = some n ∧
    expandNode env D deep d.fuel spot n = some d.node

lemma Turn.owes_other (hn : nested.Within Focus.Onward) (ht : s.Tidy) (hh : s.Held id slot.path)
    (h : Turn env nested deep s id slot u) {other : Nat} (ho : other ∈ s.queue) (d : Due) :
    u.Owes env D deep other d ↔ s.Owes env D deep other d := by
  obtain ⟨hpath, hnode⟩ := (h.tidy hn ht hh).2 other ho
  have hspot := h.spot_other hn ht hh ho
  constructor
  · rintro ⟨hp, spot, n, hs, hd, he⟩
    exact ⟨hpath.symm.trans hp, spot, n, hspot.symm.trans hs, hnode.symm.trans hd, he⟩
  · rintro ⟨hp, spot, n, hs, hd, he⟩
    exact ⟨hpath.trans hp, spot, n, hspot.trans hs, hnode.trans hd, he⟩

section Grow

variable {path : Path} {n m : Node} {kids : List Slot}

lemma owes_kid (ht : s.Tidy) (hm : s.root.at? path = some m)
    (hspot : s.spot? id = some spot) (hk : Sprouts deep n kids) {c : Nat} {kid : Slot} (hc : kids[c]? = some kid) (d : Due) :
    (s.grow id path (n, kids)).Owes env D deep (s.run.slots.length + c) d ↔
      ∃ p, Yields (fun kid => expandNode env D deep d.fuel (spot.kid kid)) n kid p ∧ d = Due.lower d.fuel path p := by
  have hpath : (s.grow id path (n, kids)).path? (s.run.slots.length + c) = some (path ++ kid.path) := by
    refine (path?_push_kid { s with root := s.root.setAt n path } id path kids c).trans ?_
    rw [hc, Option.map_some]
  have hkid : (s.grow id path (n, kids)).spot? (s.run.slots.length + c) = some (spot.kid kid) :=
    spotAt_kid ht.ordered hspot path kids hc
  obtain ⟨e, he⟩ := hk.found kid (List.mem_of_getElem? hc)
  have hnode : (s.grow id path (n, kids)).designated (s.run.slots.length + c) = some (.entity e) := by
    rw [designated_of_path? hpath]
    refine (Node.at?_setAt_append s.root n path kid.path).trans ?_
    rw [hm, Option.bind_some, he]
  constructor
  · rintro ⟨hd, spot', n', hs, hn, hx⟩
    obtain rfl := Option.some.inj (hkid.symm.trans hs)
    obtain rfl := Option.some.inj (hnode.symm.trans hn)
    have hdp := Option.some.inj (hpath.symm.trans hd)
    refine ⟨(kid.path, d.node), ⟨rfl, by rw [he, Option.bind_some]; exact hx⟩, ?_⟩
    cases d
    simp only [Due.lower, Due.mk.injEq, true_and, and_true]
    exact hdp.symm
  · rintro ⟨p, ⟨hpp, hx⟩, hd⟩
    rw [he, Option.bind_some] at hx
    refine ⟨?_, spot.kid kid, .entity e, hkid, hnode, ?_⟩
    · rw [hpath, hd, Due.lower, hpp]
    · rw [hd]
      exact hx

lemma grow_hands_on (ht : s.Tidy) (hm : s.root.at? path = some m)
    (hspot : s.spot? id = some spot) (hk : Sprouts deep n kids) {fuel : Nat} {r : Node}
    (h : expandEach (fun kid => expandNode env D deep fuel (spot.kid kid)) kids n = some r) :
    ∃ ds, List.Forall₂ ((s.grow id path (n, kids)).Owes env D deep) (List.range' s.run.slots.length kids.length) ds ∧
      (∀ d ∈ ds, d.fuel = fuel) ∧ (s.grow id path (n, kids)).root.patch (ds.map Due.patch) = s.root.setAt r path := by
  obtain ⟨ps, hps, rfl⟩ := (expandEach_iff hk.apart).mp h
  refine ⟨ps.map (Due.lower fuel path), ?_, ?_, ?_⟩
  · apply (forall₂_range' (fun c kid hc d => owes_kid ht hm hspot hk hc d) _).mpr
    rw [List.forall₂_map_right_iff]
    exact hps.imp fun kid p hy => ⟨p, hy, rfl⟩
  · intro d hd
    obtain ⟨p, _, rfl⟩ := List.mem_map.mp hd
    rfl
  · rw [List.map_map]
    exact Node.setAt_patch_lower s.root n path ps

lemma grow_gathers (ht : s.Tidy) (hm : s.root.at? path = some m)
    (hspot : s.spot? id = some spot) (hk : Sprouts deep n kids) {ds : List Due}
    (h : List.Forall₂ ((s.grow id path (n, kids)).Owes env D deep) (List.range' s.run.slots.length kids.length) ds) :
    ∃ fuel r, expandEach (fun kid => expandNode env D deep fuel (spot.kid kid)) kids n = some r ∧
      (s.grow id path (n, kids)).root.patch (ds.map Due.patch) = s.root.setAt r path := by
  obtain ⟨fuel, hfuel⟩ := exists_fuel ds
  have hds := (forall₂_range' (fun c kid hc d => owes_kid ht hm hspot hk hc d) ds).mp h
  -- The recursion that goes deepest comes to what each of the others comes to.
  have hps : ∃ ps, List.Forall₂ (Yields (fun kid => expandNode env D deep fuel (spot.kid kid)) n) kids ps ∧
      ds.map Due.patch = ps.map (Node.lower path) := by
    clear h hk
    induction hds with
    | nil => exact ⟨[], List.Forall₂.nil, rfl⟩
    | cons hd _ ih =>
      obtain ⟨p, ⟨hpp, hx⟩, he⟩ := hd
      obtain ⟨ps, hps, hmap⟩ := ih fun d hd => hfuel d (List.mem_cons_of_mem _ hd)
      obtain ⟨n', hn', hx⟩ := Option.bind_eq_some_iff.mp hx
      have hmore := expandNode_more env D deep (hfuel _ List.mem_cons_self) _ n' p.2 hx
      refine ⟨p :: ps, List.Forall₂.cons ⟨hpp, Option.bind_eq_some_iff.mpr ⟨n', hn', hmore⟩⟩ hps, ?_⟩
      rw [List.map_cons, List.map_cons, hmap, he]
      rfl
  obtain ⟨ps, hps, hmap⟩ := hps
  refine ⟨fuel, n.patch ps, (expandEach_iff hk.apart).mpr ⟨ps, hps, rfl⟩, ?_⟩
  rw [hmap]
  exact Node.setAt_patch_lower s.root n path ps

end Grow

section Turn

def Agrees (env : Setting) (a b : Nested) (f g : Focus) : Prop :=
  ∀ fate f', judge env a f = some (fate, f') → ∃ g', judge env b g = some (fate, g') ∧ f'.Alike g'

/-- The slots that a turn queues stand for what plain recursion has left to do at the slot of the turn. -/
structure HandsOn (env : Setting) (D : Nested) (deep : Bool) (s u : State) (path : Path) (spot : Spot) (n : Node)
    (ids : List Nat) : Prop where
  queue : u.queue = s.queue ++ ids
  below : ∀ id ∈ ids, ∀ p, u.path? id = some p → path <+: p
  down : ∀ fuel r, expandNode env D deep (fuel + 1) spot n = some r → ∃ ds, List.Forall₂ (u.Owes env D deep) ids ds ∧
    (∀ d ∈ ds, d.fuel = fuel) ∧ u.root.patch (ds.map Due.patch) = s.root.setAt r path
  up : ∀ ds, List.Forall₂ (u.Owes env D deep) ids ds → ∃ fuel r, expandNode env D deep fuel spot n = some r ∧
    u.root.patch (ds.map Due.patch) = s.root.setAt r path

lemma HandsOn.of_grow {n m : Node} {path : Path} {kids : List Slot} {r : Run} {spot' : Spot} {x : Node}
    (ht : Tidy { s with run := r }) (hm : s.root.at? path = some m)
    (hspot : spotAt r.slots id = some spot') (hk : Sprouts deep n kids)
    (hx : ∀ fuel, expandNode env D deep (fuel + 1) spot x =
      expandEach (fun kid => expandNode env D deep fuel (spot'.kid kid)) kids n) :
    HandsOn env D deep s (grow { s with run := r } id path (n, kids)) path spot x
      (List.range' r.slots.length kids.length) where
  queue := by simp [grow, push]
  below j hj q hq := by
    obtain ⟨i, _, rfl⟩ := List.mem_range'.mp hj
    rcases path?_push_cases hq with ⟨hlt, _⟩ | ⟨_, k, _, _, rfl⟩
    · change r.slots.length + 1 * i < r.slots.length at hlt
      omega
    · exact List.prefix_append path k.path
  down fuel y hy := grow_hands_on (s := { s with run := r }) ht hm hspot hk ((hx fuel).symm.trans hy)
  up ds hds := by
    obtain ⟨fuel, y, hy, hroot⟩ := grow_gathers (s := { s with run := r }) ht hm hspot hk hds
    exact ⟨fuel + 1, y, (hx fuel).trans hy, hroot⟩

lemma HandsOn.of_requeue {path : Path} {n m : Node} {spot' : Spot} (hq : u.queue = s.queue ++ [id])
    (hroot : u.root = s.root.setAt m path) (hpath : u.path? id = some path) (hspot : u.spot? id = some spot')
    (hm : s.root.at? path = some n)
    (hx : ∀ fuel, expandNode env D deep (fuel + 1) spot n = expandNode env D deep fuel spot' m) :
    HandsOn env D deep s u path spot n [id] := by
  have hnode : u.designated id = some m := by
    rw [designated_of_path? hpath, hroot, Node.at?_setAt, hm, Option.map_some]
  have hpatch (r : Node) : u.root.patch [(path, r)] = s.root.setAt r path := by
    have hset := Node.setAt_setAt_append s.root m r path []
    rw [List.append_nil] at hset
    rw [Node.patch_cons, Node.patch_nil, hroot]
    exact hset
  constructor
  · exact hq
  · intro other ho p hp
    obtain rfl := List.mem_singleton.mp ho
    obtain rfl := Option.some.inj (hpath.symm.trans hp)
    exact List.prefix_refl path
  · intro fuel r hr
    refine ⟨[⟨fuel, path, r⟩], List.Forall₂.cons ⟨hpath, spot', m, hspot, hnode, (hx fuel).symm.trans hr⟩ .nil, ?_, hpatch r⟩
    intro d hd
    obtain rfl := List.mem_singleton.mp hd
    rfl
  · rintro _ (_ | ⟨⟨hp, spot'', m', hs, hd, he⟩, ⟨⟩⟩)
    obtain rfl := Option.some.inj (hspot.symm.trans hs)
    obtain rfl := Option.some.inj (hnode.symm.trans hd)
    obtain rfl := Option.some.inj (hpath.symm.trans hp)
    exact ⟨_, _, (hx _).trans he, hpatch _⟩

lemma Turn.hands_on (hn : nested.Within Focus.Onward) (hloops : env.options.detectLoops = false) (ht : s.Tidy)
    (hh : s.Held id slot.path) (he : s.run.error = none) (hspot : s.spot? id = some spot) {n : Node}
    (hm : s.root.at? slot.path = some n) (haround : slot.around = spot.around)
    (hag : ∀ e, n = .entity e → Agrees env nested D (s.look id slot e) (spot.focus (e.adopt spot.around)))
    (h : Turn env nested deep s id slot u) :
    u.run.error = none ∧ ∃ ids, HandsOn env D deep s u slot.path spot n ids := by
  cases h with
  | missing hp => cases hm.symm.trans hp
  | plain m hp hs =>
    obtain rfl := Option.some.inj (hm.symm.trans hp)
    have hk := sprout_sprouts deep slot.around n
    refine ⟨he, _, HandsOn.of_grow (r := s.run) ht hm hspot hk ?_⟩
    intro fuel
    rw [haround]
    exact expandNode_plain hs
  | overrun e err _ ho => simp [Bemjson.overrun, hloops] at ho
  | failed e fate f err hp _ hj herr =>
    obtain rfl := Option.some.inj (hm.symm.trans hp)
    obtain ⟨g, _, ha⟩ := hag e rfl fate f hj
    rw [ha.left.sound] at herr
    cases herr
  | kept e d f hj hd =>
    obtain rfl := Option.some.inj (hm.symm.trans hj.entity)
    obtain ⟨g, hg, ha⟩ := hag e rfl _ f hj.judge
    have hw := (judge_touched hn hj.judge).way
    have hnode : g.node = .entity d := ha.node.symm.trans hd
    have hk := sprout_sprouts deep ((e.adopt slot.around).aroundContent slot.around) (.entity d)
    have hs := judge_spot hn ht hspot hj.judge ha ((e.adopt spot.around).aroundContent spot.around)
    refine ⟨hj.sound, _, HandsOn.of_grow (ht.run hw) hm hs hk ?_⟩
    intro fuel
    rw [haround]
    exact expandNode_kept hg hnode
  | replaced e f hj =>
    obtain rfl := Option.some.inj (hm.symm.trans hj.entity)
    obtain ⟨g, hg, ha⟩ := hag e rfl _ f hj.judge
    have hturn : Turn env nested deep s id slot _ := Turn.replaced e f hj
    have hpath := hturn.path?_old hn hh.path
    have hs := replacement_spot ha.left.ordered
      (judge_spot hn ht hspot hj.judge ha ((e.adopt spot.around).aroundContent spot.around))
    rw [haround] at hpath ⊢
    refine ⟨hj.sound, [id], HandsOn.of_requeue rfl rfl hpath hs hm ?_⟩
    intro fuel
    rw [ha.node]
    exact expandNode_replaced hg

end Turn

end State

end Bemjson
