import Bemjson.Proofs.LoopGuard.FirstError
import Bemjson.Proofs.RuleFree.Placed

namespace Bemjson

section Judge

variable {env : Setting} (hindex : env.index = {})
include hindex

lemma tryAll_ruleless (nested : Nested) (f : Focus) : tryAll env nested f = some (.kept, f) := by
  have hcandidates : ∀ block elem, ({} : RuleIndex).candidates block elem = [] := by
    intro block elem
    cases block with
    | none => rfl
    | some block => cases elem <;> rfl
  rw [tryAll, hindex]
  simp only [tryRules, Option.bind_some]
  cases f.node.entity? with
  | none => rfl
  | some e => simp [hcandidates, tryRules]

lemma judge_ruleless (nested : Nested) (f : Focus) : judge env nested f = some (.kept, f) := by
  unfold judge
  split
  · exact tryAll_ruleless hindex nested f
  · rfl

end Judge

section Sums

lemma sum_filter {α : Type} (p : α → Bool) (w : α → Nat) (xs : List α) (h : ∀ x ∈ xs, p x = false → w x = 0) :
    ((xs.filter p).map w).sum = (xs.map w).sum := by
  induction xs with
  | nil => rfl
  | cons x xs ih =>
    obtain ⟨hx, hxs⟩ := List.forall_mem_cons.mp h
    rw [List.map_cons, List.sum_cons, ← ih hxs]
    cases hp : p x with
    | true => rw [List.filter_cons_of_pos hp, List.map_cons, List.sum_cons]
    | false => rw [List.filter_cons_of_neg (by simp [hp]), hx hp, Nat.zero_add]

lemma sum_places (items : List Node) (w : Node → Nat) (hw : ∀ n, n.isStructured = false → w n = 0) :
    ((places items).map fun i => (items[i]?.map w).getD 0).sum = (items.map w).sum := by
  have hget : ∀ p ∈ items.zipIdx.filter fun p => p.1.isStructured,
      ((fun i => (items[i]?.map w).getD 0) ∘ Prod.snd) p = (w ∘ Prod.fst) p := by
    intro p hp
    have hi := List.mem_zipIdx_iff_getElem?.mp (List.mem_of_mem_filter hp)
    simp [hi]
  rw [places, List.map_map, List.map_congr_left hget, sum_filter _ (w ∘ Prod.fst) _ fun p _ hp => hw p.1 hp,
    ← List.map_map, List.zipIdx_map_fst]

end Sums

section Sprout

variable {deep : Bool} {around : Ambient}

def Node.entitiesAt (deep : Bool) (n : Node) (k : Slot) : Nat := ((n.at? k.path).map (entities deep)).getD 0

lemma entities_of_leaf {n : Node} (h : n.isStructured = false) : n.entities deep = 0 := by
  cases n <;> first | rfl | cases h

lemma sum_itemSlots {n : Node} {path : Path} {items : List Node} (h : ∀ i, n.at? (path ++ [.item i]) = items[i]?)
    (around : Ambient) :
    ((itemSlots 0 path around items).map (n.entitiesAt deep)).sum = (items.map (Node.entities deep)).sum := by
  have hpaths : (itemSlots 0 path around items).map (n.entitiesAt deep) =
      ((itemSlots 0 path around items).map Slot.path).map fun p => ((n.at? p).map (Node.entities deep)).getD 0 := by
    rw [List.map_map]
    rfl
  rw [hpaths, map_path_itemSlots, List.map_map, ← sum_places items _ fun _ => entities_of_leaf]
  simp only [Function.comp_def, h]

lemma entities_sprout_list (items : List Node) :
    (((Node.list items).sprout deep around).2.map (((Node.list items).sprout deep around).1.entitiesAt deep)).sum =
      (Node.list items).entities deep := by
  rw [Node.entities_list]
  exact sum_itemSlots (fun i => by simp [Node.sprout, Node.at?]) around

lemma entities_sprout_entity (deep : Bool) (around : Ambient) (e : Entity) :
    (((Node.entity e).sprout deep around).2.map (((Node.entity e).sprout deep around).1.entitiesAt deep)).sum + 1 =
      e.entities deep := by
  cases deep with
  | false => rw [Entity.entities_shallow]; rfl
  | true =>
    rw [Entity.entities_eq, Nat.add_comm]
    refine congrArg (1 + ·) ?_
    simp only [Node.sprout]
    cases hc : e.content with
    | none => rfl
    | some c =>
      cases c with
      | list items =>
        rw [Option.map_some, Option.getD_some, Node.entities_list]
        exact sum_itemSlots (fun i => by simp [Node.at?]) _
      | entity c => simp [Node.entitiesAt, Node.at?, hc]
      | _ => rfl

lemma entities_sprout_plain {n : Node} (h : n.entity? = none) :
    ((n.sprout deep around).2.map ((n.sprout deep around).1.entitiesAt deep)).sum = n.entities deep := by
  cases n with
  | list items => exact entities_sprout_list items
  | entity e => cases h
  | _ => rfl

lemma entities_pos (e : Entity) : 0 < (Node.entity e).entities deep := by
  rw [Node.entities]
  cases deep with
  | false => rw [Entity.entities_shallow]; exact Nat.one_pos
  | true => rw [Entity.entities_eq]; omega

lemma entities_adopt (e : Entity) : (e.adopt around).entities deep = e.entities deep := by
  cases deep with
  | false => rw [Entity.entities_shallow, Entity.entities_shallow]
  | true => rw [Entity.entities_eq, Entity.entities_eq, Entity.content_adopt]

end Sprout

namespace State

variable {env : Setting} {nested : Nested} {deep : Bool} {s t : State}

def waiting (deep : Bool) (s : State) (id : Nat) : Nat := ((s.designated id).map (Node.entities deep)).getD 0

def load (deep : Bool) (s : State) : Nat := (s.queue.map (s.waiting deep)).sum

lemma load_cons {id : Nat} {queue : List Nat} (hq : s.queue = id :: queue) {n : Node} (hn : s.designated id = some n) :
    s.load deep = n.entities deep + (s.pop id queue).load deep := by
  rw [load, hq, List.map_cons, List.sum_cons, waiting, hn]
  rfl

lemma Spares.waiting {u : State} (h : s.Spares u) : s.queue.map (u.waiting deep) = s.queue.map (s.waiting deep) :=
  List.map_congr_left fun other ho => by rw [State.waiting, (h other ho).2, State.waiting]

lemma load_grow {id : Nat} {path : Path} {n m : Node} {kids : List Slot} (ht : s.Tidy) (hh : s.Held id path)
    (hk : Sprouts deep n kids) (hm : s.root.at? path = some m) :
    (s.grow id path (n, kids)).load deep = s.load deep + (kids.map (n.entitiesAt deep)).sum := by
  have hspares := (ht.grow hh hk (by rw [hm]; rfl)).2
  have hnew : (List.range' s.run.slots.length kids.length).map ((s.grow id path (n, kids)).waiting deep) =
      kids.map (n.entitiesAt deep) := by
    apply List.ext_getElem
    · simp
    · intro j _ hj
      have hlt : j < kids.length := by simpa using hj
      simp only [List.getElem_map, List.getElem_range', Nat.one_mul, waiting, designated_grow n hm hlt]
      rfl
  have hqueue : (s.grow id path (n, kids)).queue = s.queue ++ List.range' s.run.slots.length kids.length := by
    simp [grow, push]
  rw [load, hqueue, List.map_append, List.sum_append, hspares.waiting, hnew]
  rfl

lemma exceeded_of_overrun {r : Run} {id : Nat} {e : Entity} {err : LoopError} (hlt : id < r.slots.length)
    (hid : r.visitsAt id = 0) (h : overrun env (r.countVisit id) id e = some err) :
    env.options.detectLoops = true ∧ totalLimit < r.visits + 1 := by
  have hloops : env.options.detectLoops = true := by
    cases hloops : env.options.detectLoops with
    | true => rfl
    | false => simp [overrun_of_unguarded hloops] at h
  have hx := overrun_excess hloops (r.countVisit id) id e
  rw [h, visitsAt_countVisit r id id hlt, hid, if_pos rfl, excess?, if_neg (by decide)] at hx
  split at hx
  · rename_i htotal
    exact ⟨hloops, htotal⟩
  · cases hx

structure Paced (env : Setting) (deep : Bool) (total : Nat) (s : State) : Prop where
  fresh : s.run.error = none → ∀ id ∈ s.queue, s.run.visitsAt id = 0
  load : s.run.error = none → s.run.visits + s.load deep = total
  excess : s.run.error ≠ none → env.options.detectLoops = true ∧ totalLimit < total

namespace Paced

variable {total : Nat}

lemma start (env : Setting) (deep : Bool) (tree : Node) (block : Option String) (journal : Journal) :
    (State.start env tree block 0 journal).Paced env deep (tree.entities deep) where
  fresh _ id hid := by
    obtain rfl := mem_queue_start hid
    rfl
  load _ := by
    change 0 + (tree.entities deep + 0) = _
    omega
  excess h := absurd rfl h

lemma of_grow {id : Nat} {path : Path} {n m : Node} {around : Ambient} (hpop : s.Tidy)
    (hh : s.Held id path) (hm : s.root.at? path = some m) (hfresh : ∀ other ∈ s.queue, s.run.visitsAt other = 0)
    (he : s.run.error = none)
    (hload : s.run.visits + s.load deep + ((n.sprout deep around).2.map ((n.sprout deep around).1.entitiesAt deep)).sum =
      total) : (s.grow id path (n.sprout deep around)).Paced env deep total where
  fresh _ other ho := by
    have hkids : ∀ k ∈ (n.sprout deep around).2.map (Slot.under id path), k.visits = 0 := by
      intro k hk
      obtain ⟨kid, hkid, rfl⟩ := List.mem_map.mp hk
      exact sprout_visits deep around n kid hkid
    refine (visitsAt_push s.run _ hkids other).trans ?_
    rcases mem_push_queue.mp ho with ho | ⟨i, _, rfl⟩
    · exact hfresh other ho
    · have hnone : s.run.slots[s.run.slots.length + i]? = none := List.getElem?_eq_none (Nat.le_add_right _ _)
      rw [Run.visitsAt, hnone]
      rfl
  load _ := by
    rw [load_grow hpop hh (sprout_sprouts deep around n) hm, ← Nat.add_assoc]
    exact hload
  excess h := absurd he h

lemma of_visit {id : Nat} {path : Path} {slot : Slot} {e : Entity} (around : Ambient) (hpop : s.Tidy) (hh : s.Held id path)
    (hm : s.root.at? path = some (.entity e)) (hlt : id < s.run.slots.length)
    (hfresh : ∀ other ∈ s.queue, s.run.visitsAt other = 0) (he : s.run.error = none)
    (hload : s.run.visits + (e.entities deep + s.load deep) = total) :
    (State.grow { s with run := (s.look id slot e).run } id path
      ((Node.entity (e.adopt slot.around)).sprout deep around)).Paced env deep total := by
  have htouched : s.Touched id (s.look id slot e).run :=
    ⟨fun slot => { slot with visits := slot.visits + 1 }, fun _ => rfl, rfl⟩
  refine of_grow (hpop.run htouched.way) (hh.run htouched.way) hm ?_ he ?_
  · intro other hother
    have hne : id ≠ other := fun h => hh.absent (h ▸ hother)
    refine (visitsAt_countVisit _ id other hlt).trans ?_
    rw [if_neg hne]
    exact hfresh other hother
  · have hsprout := entities_sprout_entity deep around (e.adopt slot.around)
    rw [entities_adopt] at hsprout
    have hother : State.load deep { s with run := (s.look id slot e).run } = s.load deep :=
      congrArg List.sum (Spares.run htouched.way).waiting
    change (s.look id slot e).run.visits + _ + _ = total
    rw [hother, look_visits]
    omega

lemma next (hindex : env.index = {}) (ho : nested.Within Focus.Onward) (ht : s.Tidy) (hs : s.Paced env deep total)
    (h : s.Next env nested deep t) : t.Paced env deep total := by
  obtain ⟨id, queue, slot, u, he, hq, hslot, hpop, hh, hturn, rfl⟩ := Next.turn ho ht h
  obtain ⟨p, n, hp, hm⟩ := ht.known id (by simp [hq])
  obtain rfl := Option.some.inj (hp.symm.trans hh.path)
  have hlt : id < s.run.slots.length := lt_of_path? hp
  have hload := hs.load he
  rw [load_cons hq ((designated_of_path? hp).trans hm)] at hload
  have hfresh : ∀ other ∈ queue, s.run.visitsAt other = 0 := fun other ho =>
    hs.fresh he other (hq ▸ List.mem_cons_of_mem id ho)
  have hu : u.Paced env deep total := by
    cases hturn with
    | missing hnone => cases hm.symm.trans hnone
    | plain m hpm hplain =>
      obtain rfl := Option.some.inj (hm.symm.trans hpm)
      refine of_grow hpop hh hm hfresh he ?_
      rw [entities_sprout_plain hplain]
      change s.run.visits + _ + _ = total
      omega
    | overrun e err hpe hover =>
      obtain rfl := Option.some.inj (hm.symm.trans hpe)
      obtain ⟨hloops, htotal⟩ := exceeded_of_overrun hlt (hs.fresh he id (by simp [hq])) hover
      have hone : 0 < (Node.entity e).entities deep := entities_pos e
      exact ⟨nofun, nofun, fun _ => ⟨hloops, by omega⟩⟩
    | failed e fate f err _ _ hj herr =>
      rw [judge_ruleless hindex] at hj
      cases hj
      cases he.symm.trans herr
    | kept e d f hj hd =>
      have hf := hj.judge
      rw [judge_ruleless hindex] at hf
      cases hf
      cases hd
      obtain rfl := Option.some.inj (hm.symm.trans hj.entity)
      exact of_visit _ hpop hh hm hlt hfresh he hload
    | replaced e f hj =>
      have hf := hj.judge
      rw [judge_ruleless hindex] at hf
      cases hf
  exact ⟨hu.fresh, hu.load, hu.excess⟩

lemma reaches (hindex : env.index = {}) (ho : nested.Within Focus.Onward) (ht : s.Tidy) (hs : s.Paced env deep total)
    (h : s.Reaches env nested deep t) : t.Paced env deep total := by
  induction h with
  | refl => exact hs
  | tail hr hstep ih => exact ih.next hindex ho (ht.reaches ho hr) hstep

end Paced

end State

end Bemjson
