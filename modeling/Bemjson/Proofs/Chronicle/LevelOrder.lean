import Bemjson.Proofs.Chronicle.Counters
import Bemjson.Proofs.Chronicle.DocumentOrder
import Bemjson.Proofs.Coverage

/-! Where no rule replaces a node, an expansion visits the nodes of its result level by level, each level in the order
of the document. -/

namespace Bemjson

section Kids

lemma sprout_ways (deep : Bool) (around : Ambient) (e : Entity) :
    (∀ w ∈ ((Node.entity e).sprout deep around).2.map Slot.path, ∃ r : Path, w = .content :: r ∧ r.depth = 0) ∧
      (((Node.entity e).sprout deep around).2.map Slot.path).Pairwise Path.Precedes := by
  simp only [Node.sprout]
  split
  · rename_i items _
    rw [map_path_itemSlots]
    constructor
    · intro w hw
      obtain ⟨i, _, rfl⟩ := List.mem_map.mp hw
      exact ⟨[.item i], rfl, rfl⟩
    · rw [List.pairwise_map]
      exact (places_sorted _).imp fun hlt => .cons (.rel hlt)
  · refine ⟨fun w hw => ⟨[], ?_, rfl⟩, List.pairwise_singleton _ _⟩
    exact List.mem_singleton.mp hw
  · exact ⟨by simp, .nil⟩

lemma entity_setAt (n new : Node) {p : Path} (hp : p ≠ []) : (n.setAt new p).entity?.isSome = n.entity?.isSome := by
  obtain ⟨step, p, rfl⟩ := List.exists_cons_of_ne_nil hp
  cases step <;> cases n <;> rfl

end Kids

namespace State

def atEntity (s : State) (id : Nat) : Bool := ((s.designated id).bind Node.entity?).isSome

/-- The slots from the number `k` on wait, in their order, and no other does. The slots visited are those before
with an entity. -/
structure Levelled (s : State) (k : Nat) (visited : List Nat) : Prop where
  queue : s.queue = List.range' k (s.run.slots.length - k)
  known : k ≤ s.run.slots.length
  ranked : Path.Ranked k (s.run.slots.map Slot.path)
  first : k = 0 → s.run.slots.map Slot.path = [[]]
  waiting : ∀ id, k ≤ id → 0 < id → id < s.run.slots.length → s.atEntity id = true
  visited : visited = (List.range k).filter s.atEntity

variable {env : Setting} {deep : Bool} {s t : State} {k id : Nat} {visited queue : List Nat} {slot : Slot} {r : Run}
  {n : Node} {kids : List Slot}

lemma Levelled.head (h : s.Levelled k visited) (hq : s.queue = id :: queue) :
    id = k ∧ k < s.run.slots.length ∧ queue = List.range' (k + 1) (s.run.slots.length - (k + 1)) := by
  have hrange := h.queue.symm.trans hq
  obtain ⟨l, hl⟩ : ∃ l, s.run.slots.length - k = l + 1 := by
    cases hl : s.run.slots.length - k with
    | zero => simp [hl] at hrange
    | succ l => exact ⟨l, rfl⟩
  rw [hl, List.range'_succ] at hrange
  obtain ⟨rfl, rfl⟩ := List.cons.inj hrange
  refine ⟨rfl, by omega, ?_⟩
  rw [show s.run.slots.length - (k + 1) = l by omega]

section Grown

lemma at?_setAt_entity (root n : Node) {p q : Path} (hp : ¬p <+: q) :
    (((root.setAt n p).at? q).bind Node.entity?).isSome = ((root.at? q).bind Node.entity?).isSome := by
  by_cases hup : q <+: p
  · obtain ⟨w, rfl⟩ := hup
    have hne : w ≠ [] := by
      rintro rfl
      exact hp (by simp)
    rw [Node.at?_setAt_above]
    cases root.at? q with
    | none => rfl
    | some m => exact entity_setAt m n hne
  · rw [Node.at?_setAt_of_apart _ _ ⟨hp, hup⟩]

lemma length_of_way (hw : r.slots.map Slot.way = s.run.slots.map Slot.way) :
    r.slots.length = s.run.slots.length := by
  simpa using congrArg List.length hw

lemma path?_grown (hw : r.slots.map Slot.way = s.run.slots.map Slot.way) {p : Path} {other : Nat}
    (ho : other < s.run.slots.length) :
    (grow { s.pop id queue with run := r } id p (n, kids)).path? other = s.path? other :=
  (path?_push_old (length_of_way hw ▸ ho) _).trans (path?_run hw other)

lemma designated_grown (hw : r.slots.map Slot.way = s.run.slots.map Slot.way) {p : Path} {m : Node}
    (hp : s.path? id = some p) (hm : s.root.at? p = some m) :
    (grow { s.pop id queue with run := r } id p (n, kids)).designated id = some n := by
  rw [designated_of_path? ((path?_grown hw (lt_of_path? hp)).trans hp)]
  refine (Node.at?_setAt s.root n p).trans ?_
  rw [hm, Option.map_some]

lemma atEntity_grown (hw : r.slots.map Slot.way = s.run.slots.map Slot.way) {p q : Path} {other : Nat}
    (hq : s.path? other = some q) (hp : ¬p <+: q) :
    (grow { s.pop id queue with run := r } id p (n, kids)).atEntity other = s.atEntity other := by
  rw [atEntity, atEntity, designated_of_path? hq, designated_of_path? ((path?_grown hw (lt_of_path? hq)).trans hq)]
  exact at?_setAt_entity s.root n hp

lemma map_path_of_way (hw : r.slots.map Slot.way = s.run.slots.map Slot.way) :
    r.slots.map Slot.path = s.run.slots.map Slot.path := by
  have hpaths := congrArg (List.map Prod.fst) hw
  simpa only [List.map_map] using! hpaths

lemma range'_grown {l m : Nat} (hk : k < l) :
    List.range' (k + 1) (l - (k + 1)) ++ List.range' l m = List.range' (k + 1) (l + m - (k + 1)) := by
  have hjoin := List.range'_append_1 (s := k + 1) (m := l - (k + 1)) (n := m)
  rw [show k + 1 + (l - (k + 1)) = l by omega] at hjoin
  rw [hjoin, show l - (k + 1) + m = l + m - (k + 1) by omega]

end Grown

lemma Levelled.next (h : s.Levelled k visited) (ht : s.Tidy) (hq : s.queue = id :: queue)
    (hslot : s.run.slots[id]? = some slot)
    (hw : r.slots.map Slot.way = s.run.slots.map Slot.way)
    (hgrow : t = (grow { s.pop id queue with run := r } id slot.path (n, kids)).measured)
    (hnew : ∀ kid ∈ kids, ∃ e, n.at? kid.path = some (.entity e))
    (hranked : Path.Ranked (k + 1) (s.run.slots.map Slot.path ++ (kids.map Slot.path).map (slot.path ++ ·))) :
    t.Levelled (k + 1) (visited ++ if n.entity?.isSome then [k] else []) := by
  obtain ⟨rfl, hlt, rfl⟩ := h.head hq
  have hpath : s.path? id = some slot.path := by rw [path?, hslot, Option.map_some]
  have hid : id ∈ s.queue := by simp [hq]
  obtain ⟨p, m, hp, hm⟩ := ht.known id hid
  obtain rfl := Option.some.inj (hpath.symm.trans hp)
  have hslots : t.run.slots = r.slots ++ kids.map (Slot.under id slot.path) := by rw [hgrow]; rfl
  have hlen : t.run.slots.length = s.run.slots.length + kids.length := by
    rw [hslots, List.length_append, List.length_map, length_of_way hw]
  have hold : ∀ other, other < s.run.slots.length → other ≠ id → t.atEntity other = s.atEntity other := by
    intro other ho hne
    obtain ⟨q, hother⟩ : ∃ q, s.path? other = some q := by simp [path?, ho]
    rw [hgrow]
    exact atEntity_grown hw hother fun hpre => hne (ht.lowest id hid other _ q hpath hother hpre)
  constructor
  case queue =>
    have hqueue : t.queue = List.range' (id + 1) (s.run.slots.length - (id + 1)) ++
        List.range' r.slots.length (kids.map (Slot.under id slot.path)).length := by rw [hgrow]; rfl
    rw [hqueue, length_of_way hw, List.length_map, hlen, range'_grown hlt]
  case known => omega
  case ranked =>
    rw [hslots, List.map_append, List.map_map, map_path_of_way hw]
    rw [List.map_map] at hranked
    exact hranked
  case first => exact fun h0 => absurd h0 (Nat.succ_ne_zero id)
  case waiting =>
    intro other hge hpos hother
    by_cases ho : other < s.run.slots.length
    · rw [hold other ho (by omega)]
      exact h.waiting other (by omega) hpos ho
    · obtain ⟨i, rfl⟩ : ∃ i, other = s.run.slots.length + i := ⟨other - s.run.slots.length, by omega⟩
      have hi : i < kids.length := by omega
      obtain ⟨e, he⟩ := hnew kids[i] (List.getElem_mem hi)
      have hkid : t.designated (s.run.slots.length + i) = some (.entity e) := by
        rw [hgrow, ← length_of_way hw]
        exact (designated_grow (s := { s.pop id _ with run := r }) n hm hi).trans he
      rw [atEntity, hkid]
      rfl
  case visited =>
    have hself : t.atEntity id = n.entity?.isSome := by
      rw [hgrow]
      exact congrArg (fun found : Option Node => (found.bind Node.entity?).isSome) (designated_grown hw hpath hm)
    have hbefore : (List.range id).filter t.atEntity = (List.range id).filter s.atEntity := by
      apply List.filter_congr
      intro i hi
      have hi := List.mem_range.mp hi
      exact hold i (by omega) (by omega)
    rw [List.range_succ, List.filter_append, hbefore, ← h.visited, List.filter_singleton, hself, cond_eq_ite]

lemma Levelled.next_entity {d : Entity} {around : Ambient} (h : s.Levelled k visited) (ht : s.Tidy)
    (hq : s.queue = id :: queue) (hslot : s.run.slots[id]? = some slot)
    (hw : r.slots.map Slot.way = s.run.slots.map Slot.way)
    (hgrow : t = (grow { s.pop id queue with run := r } id slot.path
      ((Node.entity d).sprout deep around)).measured) : t.Levelled (k + 1) (visited ++ [k]) := by
  have hk := sprout_sprouts deep around (.entity d)
  obtain ⟨d', hd, _⟩ := sprout_entity deep around d
  obtain ⟨hkids, horder⟩ := sprout_ways deep around d
  have hid : id ∈ s.queue := by simp [hq]
  have hpath : s.path? id = some slot.path := by rw [path?, hslot, Option.map_some]
  have hranked : Path.Ranked (k + 1) (s.run.slots.map Slot.path ++
      (((Node.entity d).sprout deep around).2.map Slot.path).map (slot.path ++ ·)) := by
    obtain ⟨rfl, hlt, _⟩ := h.head hq
    apply h.ranked.take (by rw [List.getElem?_map, hslot, Option.map_some]) ?_ hkids horder
    intro i q hi hiq hpre
    rw [List.getElem?_map] at hiq
    exact absurd (ht.lowest id hid i _ q hpath hiq hpre) (by omega)
  have hall : t.Levelled (k + 1) (visited ++ if ((Node.entity d).sprout deep around).1.entity?.isSome then [k] else []) :=
    h.next ht hq hslot hw hgrow hk.found hranked
  rwa [hd] at hall

lemma Levelled.next_still (h : s.Levelled k visited) (ht : s.Tidy) (hq : s.queue = id :: queue)
    (hslot : s.run.slots[id]? = some slot) (hw : r.slots.map Slot.way = s.run.slots.map Slot.way)
    (hn : n.entity?.isSome)
    (ht' : t = measured { s.pop id queue with root := s.root.setAt n slot.path, run := r }) :
    t.Levelled (k + 1) (visited ++ [k]) := by
  have hgrow : t = (grow { s.pop id queue with run := r } id slot.path (n, [])).measured := by
    rw [ht', grow, List.map_nil, push_nil]
    rfl
  have hranked : Path.Ranked (k + 1) (s.run.slots.map Slot.path ++ (([] : List Slot).map Slot.path).map (slot.path ++ ·)) := by
    simpa using h.ranked.mono (Nat.le_succ k)
  have hall := h.next ht hq hslot hw hgrow (fun kid hkid => by cases hkid) hranked
  rwa [if_pos hn] at hall

lemma Levelled.next_plain {m : Node} (h : s.Levelled k visited) (ht : s.Tidy) (hq : s.queue = id :: queue)
    (hslot : s.run.slots[id]? = some slot) (hm : s.root.at? slot.path = some m) (hplain : m.entity? = none)
    (hgrow : t = ((s.pop id queue).grow id slot.path (m.sprout deep slot.around)).measured) :
    t.Levelled (k + 1) visited := by
  obtain ⟨rfl, hlt, _⟩ := h.head hq
  have hpath : s.path? id = some slot.path := by rw [path?, hslot, Option.map_some]
  obtain rfl : id = 0 := by
    rcases Nat.eq_zero_or_pos id with h0 | hpos
    · exact h0
    · have hentity := h.waiting id (Nat.le_refl id) hpos hlt
      rw [atEntity, designated_of_path? hpath, hm, Option.bind_some, hplain] at hentity
      cases hentity
  have hways := h.first rfl
  have hroot : slot.path = [] := by
    have hget := congrArg (fun l : List Path => l[0]?) hways
    simp only [List.getElem?_map, hslot, Option.map_some] at hget
    exact Option.some.inj hget
  have hk := sprout_sprouts deep slot.around m
  have hranked : Path.Ranked 1 (s.run.slots.map Slot.path ++
      ((m.sprout deep slot.around).2.map Slot.path).map (slot.path ++ ·)) := by
    rw [hways, hroot]
    cases m with
    | list items =>
      simp only [Node.sprout, map_path_itemSlots]
      simpa [Function.comp_def] using Path.Ranked.items (places_sorted (Node.flatten items))
    | entity e => cases hplain
    | _ => simpa [Node.sprout] using Path.Ranked.start.mono (Nat.zero_le 1)
  have hnone : (m.sprout deep slot.around).1.entity? = none := by
    cases m with
    | entity e => cases hplain
    | _ => rfl
  have hall : t.Levelled 1 (visited ++ if (m.sprout deep slot.around).1.entity?.isSome then [0] else []) :=
    h.next (r := (s.pop 0 queue).run) ht hq hslot rfl hgrow hk.found hranked
  simpa [hnone] using hall

end State

section Rules

variable {env : Setting}

def State.NeverReplaces (env : Setting) (deep : Bool) (first : State) : Prop :=
  ∀ s f acts x y n, first.Reaches env (.unbounded env) deep s → s.Visits env f → (f.trial env).Does env acts x →
    ¬x.Step env (.replace n) y

def State.NeverExpands (env : Setting) (deep : Bool) (first : State) : Prop :=
  ∀ s f acts x y tree, first.Reaches env (.unbounded env) deep s → s.Visits env f → (f.trial env).Does env acts x →
    ¬x.Step env (.call (.expand tree)) y

lemma replaced_absorb (f : Focus) (u : State) : (f.absorb u).2.replaced = f.replaced := by
  cases h : u.run.error <;> simp [Focus.absorb, h]

lemma Point.Step.replaced {x y : Point} {a : Act} (h : x.Step env a y) (ha : ∀ n, a ≠ .replace n) :
    y.focus.replaced = x.focus.replaced := by
  cases h with
  | call c next f g r k hc hp =>
    cases c with
    | tryRest => exact absurd rfl hc
    | expand tree =>
      obtain ⟨_, u, _, hu⟩ := (expand_unbounded env tree f (r, g)).mp hp
      rw [← show (f.absorb u).2 = g from congrArg Prod.snd hu]
      exact replaced_absorb f u
    | _ =>
      cases hp
      rfl
  | replace n cs chosen f k => exact absurd rfl (ha n)
  | _ => rfl

lemma State.NeverReplaces.replaced {deep : Bool} {first s : State} (h : first.NeverReplaces env deep)
    (hr : first.Reaches env (.unbounded env) deep s) {f : Focus} (hf : s.Visits env f) {acts : List Act} {x : Point}
    (hd : (f.trial env).Does env acts x) : x.focus.replaced = false := by
  induction hd with
  | start =>
    obtain ⟨_, _, _, _, _, _, _, _, _, rfl, _⟩ := hf
    rfl
  | step acts a y z hy hs ih =>
    refine (hs.replaced fun n hn => ?_).trans ih
    exact h s f acts y z n hr hf hy (hn ▸ hs)

/-- The program edits the node and what is kept at its slot, but puts nothing in its place and has nothing expanded. -/
inductive Program.Mild : Body → Prop
  | done : Mild (.done none)
  | call (c : Call) (next : c.Reply → Body) : (∀ tree, c ≠ .expand tree) → (∀ r, Mild (next r)) → Mild (.call c next)

lemma mild_does (h : ∀ rule ∈ env.index.rules, rule.body.Mild) {f : Focus} {acts : List Act} {x : Point}
    (hd : (f.trial env).Does env acts x) : ∀ p, .body p ∈ x.tasks → p.Mild := by
  induction hd with
  | start => simp [Focus.trial]
  | step acts a y z _ hs ih =>
    cases hs with
    | call c next f g r k _ _ =>
      have hp : (Program.call c next).Mild := ih _ List.mem_cons_self
      intro q hq
      rcases List.mem_cons.mp hq with he | hq
      · cases hp with
        | call _ _ _ hnext => exact Task.body.inj he ▸ hnext r
      · exact ih q (List.mem_cons_of_mem _ hq)
    | enter next f k =>
      have hp : (Program.call .tryRest next).Mild := ih _ List.mem_cons_self
      intro q hq
      simp only [List.mem_cons, reduceCtorEq, false_or] at hq
      rcases hq with he | hq
      · cases hp with
        | call _ _ _ hnext => exact Task.body.inj he ▸ hnext ()
      · exact ih q (List.mem_cons_of_mem _ hq)
    | fire c cs chosen f k _ =>
      intro q hq
      simp only [List.mem_cons, reduceCtorEq, false_or] at hq
      rcases hq with he | hq
      · rw [Task.body.inj he, RuleIndex.body]
        cases hrule : env.index.rules[c.id]? with
        | none => exact .done
        | some rule => exact h rule (List.mem_of_getElem? hrule)
      · exact ih q (by simp [hq])
    | _ =>
      intro q hq
      exact ih q (by simp_all)

lemma neverReplaces_of_mild (h : ∀ rule ∈ env.index.rules, rule.body.Mild) (deep : Bool) (first : State) :
    first.NeverReplaces env deep := by
  intro _ f acts x y n _ _ hd hs
  have hmild := mild_does h hd
  cases hs with
  | replace _ cs chosen g k => cases hmild _ List.mem_cons_self

lemma neverExpands_of_mild (h : ∀ rule ∈ env.index.rules, rule.body.Mild) (deep : Bool) (first : State) :
    first.NeverExpands env deep := by
  intro _ f acts x y tree _ _ hd hs
  have hmild := mild_does h hd
  cases hs with
  | call _ next g g' r k _ _ =>
    cases hmild _ List.mem_cons_self with
    | call _ _ hnot _ => exact hnot tree rfl

end Rules

section Run

variable {env : Setting} {deep : Bool} {first : State} {deeds : List Deed} {site : Site}

open Deed

def Site.Levelled : Site → List Nat → Prop
  | between s, visited => ∃ k, s.Levelled k visited
  | amid s _, visited => ∃ k before, s.Levelled k before ∧ s.queue.head? = some k ∧ visited = before ++ [k]

lemma levelled_start (env : Setting) (tree : Node) (block : Option String) (visits : Nat) (journal : Journal) :
    (State.start env tree block visits journal).Levelled 0 [] where
  queue := rfl
  known := Nat.zero_le _
  ranked := Path.Ranked.start
  first _ := rfl
  waiting id _ hpos hlt := by
    change id < 1 at hlt
    omega
  visited := rfl

namespace State

variable {s t : State} {k : Nat} {visited : List Nat}

lemma Levelled.meet (h : s.Levelled k visited) (ht : s.Tidy) {told : List Deed} (hm : s.Meets env told)
    (hs : s.Next env (.unbounded env) deep t) : t.Levelled (k + 1) (visited ++ told.filterMap visited?) := by
  obtain ⟨id, queue, slot, u, hq, hslot, hu, rfl⟩ := hm.passes ht hs
  obtain rfl : id = k := (h.head hq).1
  have hw : ∀ e, ((s.pop id queue).look id slot e).run.slots.map Slot.way = s.run.slots.map Slot.way :=
    fun e => map_modify_of_eq Slot.way s.run.slots id _ fun _ => rfl
  cases hu with
  | pass n hn hplain =>
    have hnone : [Deed.take id].filterMap visited? = [] := rfl
    rw [hnone, List.append_nil]
    exact h.next_plain ht hq hslot hn hplain rfl
  | refuse e err hn =>
    have hsame : s.root = s.root.setAt (.entity e) slot.path := (Node.setAt_self _ _ _ hn).symm
    refine h.next_still (r := ((s.pop id queue).look id slot e).run.fail err) ht hq hslot (hw e) (n := .entity e) rfl ?_
    rw [← hsame]
    rfl
  | closed e hn => exact h.next_entity ht hq hslot (hw e) rfl

lemma Levelled.settle (h : s.Levelled k visited) (ht : s.Tidy) {f g : Focus} {acts : List Act} (hf : s.Visits env f)
    (hd : (f.trial env).Does env acts ⟨g, []⟩) (hkept : g.replaced = false)
    (hs : s.Next env (.unbounded env) deep t) : t.Levelled (k + 1) (visited ++ [k]) := by
  obtain ⟨queue, slot, u, hq, hslot, hu, rfl⟩ := hf.settles hd hs
  have hw := hf.does_way hd
  cases hu with
  | failed err _ =>
    have hentity : g.node.entity?.isSome := by
      have hsame := hd.onward.entity hkept
      obtain ⟨_, _, _, _, _, _, _, _, _, rfl, _⟩ := hf
      exact hsame
    exact h.next_still ht hq hslot hw hentity rfl
  | kept d around _ _ _ => exact h.next_entity ht hq hslot hw rfl
  | replaced around _ hr => exact absurd (hkept.symm.trans hr) Bool.false_ne_true

end State

lemma tells_levelled (hr : first.NeverReplaces env deep) (h : first.Tells env deep deeds site)
    (hf : first.Begins env) : site.Levelled (deeds.filterMap visited?) := by
  induction h with
  | start deep first =>
    obtain ⟨tree, block, visits, journal, rfl⟩ := hf
    exact ⟨0, levelled_start env tree block visits journal⟩
  | meet deep first s t deeds told hs hm hstep ih =>
    obtain ⟨k, hk⟩ := ih hr hf
    rw [List.filterMap_append]
    exact ⟨k + 1, hk.meet (hf.tidy hs.reached) hm hstep⟩
  | visit deep first s deeds f _ hv ih =>
    obtain ⟨k, hk⟩ := ih hr hf
    obtain ⟨_, id, queue, slot, e, hq, _, _, _, rfl, _⟩ := hv
    obtain rfl : id = k := (hk.head hq).1
    rw [List.filterMap_append]
    exact ⟨id, _, hk, by rw [hq, List.head?_cons], rfl⟩
  | act deep first s deeds x y a _ _ _ ih =>
    rw [List.filterMap_append]
    have hnone : [Deed.act x.focus.slot a].filterMap visited? = [] := rfl
    rw [hnone, List.append_nil]
    exact ih hr hf
  | expand deep first s u deeds within x y tree _ _ _ _ _ ih _ =>
    rw [List.filterMap_append]
    have hnone : [Deed.expand x.focus.slot tree within].filterMap visited? = [] := rfl
    rw [hnone, List.append_nil]
    exact ih hr hf
  | keep deep first s t deeds g hs hstep _ ih =>
    obtain ⟨hreach, f, acts, hv, hd⟩ := hs.reached
    obtain ⟨k, before, hk, hhead, hdeeds⟩ := ih hr hf
    rw [hdeeds]
    exact ⟨k + 1, hk.settle (hf.tidy hreach) hv hd (hr.replaced hreach hv hd) hstep⟩
  | requeue deep first s t deeds g hs hstep hin _ =>
    obtain ⟨hreach, f, acts, hv, hd⟩ := hs.reached
    obtain ⟨queue, slot, u, hq, hslot, hu, rfl⟩ := hv.settles hd hstep
    obtain ⟨_, hlt, hlen⟩ := hv.does_known hd
    have hlt' : g.slot < g.run.slots.length := hlen ▸ hlt
    obtain ⟨_, hreplaced⟩ := (hu.waits (hf.tidy hreach) hq hlt').mp hin
    exact absurd ((hr.replaced hreach hv hd).symm.trans hreplaced) Bool.false_ne_true

lemma tells_dispatches (hx : first.NeverExpands env deep) (h : first.Tells env deep deeds site) :
    dispatchesOf deeds = (deeds.filterMap visited?).length := by
  induction h with
  | start deep first => rfl
  | meet deep first s t deeds told _ hm _ ih =>
    rw [dispatchesOf_append, List.filterMap_append, List.length_append, ih hx]
    cases hm <;> rfl
  | visit deep first s deeds f _ _ ih =>
    rw [dispatchesOf_append, List.filterMap_append, List.length_append, ih hx]
    rfl
  | act deep first s deeds x y a _ _ _ ih =>
    rw [dispatchesOf_append, List.filterMap_append, List.length_append, ih hx]
    rfl
  | expand deep first s u deeds within x y tree hs hstep _ _ _ _ _ =>
    obtain ⟨hreach, f, acts, hf, hd⟩ := hs.reached
    exact absurd hstep (hx s f acts x y tree hreach hf hd)
  | keep deep first s t deeds g _ _ _ ih => exact ih hx
  | requeue deep first s t deeds g _ _ _ ih =>
    rw [dispatchesOf_append, List.filterMap_append, List.length_append, ih hx]
    rfl

namespace State.Levelled

variable {s : State} {k : Nat} {visited : List Nat}

lemma ways (h : s.Levelled k visited) : visited.map s.path? = (visited.filterMap s.path?).map some ∧
    (visited.filterMap s.path?).Pairwise Path.LevelBefore := by
  have hlt : ∀ id ∈ visited, ∃ p, s.path? id = some p := by
    intro id hid
    rw [h.visited, List.mem_filter, List.mem_range] at hid
    have hknown : id < s.run.slots.length := Nat.lt_of_lt_of_le hid.1 h.known
    exact ⟨s.run.slots[id].path, by simp [path?, hknown]⟩
  constructor
  · clear h
    induction visited with
    | nil => rfl
    | cons id visited ih =>
      obtain ⟨p, hp⟩ := hlt id List.mem_cons_self
      rw [List.filterMap_cons_some hp, List.map_cons, List.map_cons, hp, ih fun id hid => hlt id (List.mem_cons_of_mem _ hid)]
  · rw [h.visited, List.pairwise_filterMap]
    have hsorted : ((List.range k).filter s.atEntity).Pairwise (· < ·) :=
      List.Pairwise.sublist List.filter_sublist List.pairwise_lt_range
    apply hsorted.imp
    intro i j hij p hp q hq
    have hi : (s.run.slots.map Slot.path)[i]? = some p := by rw [List.getElem?_map]; exact hp
    have hj : (s.run.slots.map Slot.path)[j]? = some q := by rw [List.getElem?_map]; exact hq
    obtain ⟨hil, rfl⟩ := List.getElem?_eq_some_iff.mp hi
    obtain ⟨hjl, rfl⟩ := List.getElem?_eq_some_iff.mp hj
    exact List.pairwise_iff_getElem.mp h.ranked.order i j hil hjl hij

lemma mem_ways (h : s.Levelled k visited) {p : Path} (hp : p ∈ visited.filterMap s.path?) :
    ∃ id e, s.path? id = some p ∧ s.root.at? p = some (.entity e) := by
  obtain ⟨id, hid, hpath⟩ := List.mem_filterMap.mp hp
  rw [h.visited, List.mem_filter, atEntity, designated_of_path? hpath] at hid
  obtain ⟨n, hn⟩ : ∃ n, s.root.at? p = some n := by
    cases hn : s.root.at? p with
    | none => simp [hn] at hid
    | some n => exact ⟨n, rfl⟩
  rw [hn] at hid
  cases n with
  | entity e => exact ⟨id, e, hpath, hn⟩
  | _ => cases hid.2

lemma mem_ways_of_empty (h : s.Levelled k visited) (hq : s.queue = []) {id : Nat} {p : Path} {e : Entity}
    (hpath : s.path? id = some p) (hn : s.root.at? p = some (.entity e)) : p ∈ visited.filterMap s.path? := by
  have hall : s.run.slots.length - k = 0 := by
    have hqueue := congrArg List.length h.queue
    rw [hq, List.length_range'] at hqueue
    exact hqueue.symm
  have hid : id < k := by
    have hlt := lt_of_path? hpath
    omega
  refine List.mem_filterMap.mpr ⟨id, ?_, hpath⟩
  rw [h.visited, List.mem_filter, atEntity, designated_of_path? hpath, hn]
  exact ⟨List.mem_range.mpr hid, rfl⟩

end State.Levelled

/-- Each node of the result is visited once, and of two nodes the one within fewer contents comes first, or else the one
that stands first in the document. There are no other visits. -/
theorem level_order {tree : Node} {block : Option String} {visits : Nat} {journal : Journal}
    (hr : (State.start env tree block visits journal).NeverReplaces env deep)
    (hx : (State.start env tree block visits journal).NeverExpands env deep) {fuel steps : Nat} {s : State}
    (h : drain env (.ofFuel env fuel) deep steps (.start env tree block visits journal) = some s) :
    (∃ deeds, (State.start env tree block visits journal).Tells env deep deeds (.between s)) ∧
      ∀ deeds, (State.start env tree block visits journal).Tells env deep deeds (.between s) →
        ∃ ways : List Path, (deeds.filterMap visited?).map s.path? = ways.map some ∧
          ways.Pairwise Path.LevelBefore ∧ ways.Nodup ∧
          (∀ p ∈ ways, p.Visible deep ∧ ∃ e, s.root.at? p = some (.entity e)) ∧
          (s.run.error = none →
            (∀ p e, s.root.at? p = some (.entity e) → p.Visible deep → p ∈ ways) ∧
            s.run.visits = visits + ways.length) := by
  have hstart := State.Tidy.start env tree block visits journal
  have hbegins : (State.start env tree block visits journal).Begins env := ⟨tree, block, visits, journal, rfl⟩
  obtain ⟨hreach, hover⟩ := State.reached_of_drain h
  refine ⟨(State.reached_iff_tells hstart).mp hreach, fun deeds hd => ?_⟩
  obtain ⟨k, hk⟩ : ∃ k, s.Levelled k (deeds.filterMap visited?) := tells_levelled hr hd hbegins
  obtain ⟨hways, horder⟩ := hk.ways
  have hcovered := State.Covered.reaches (unbounded_within env) hstart
    (State.Covered.start env _ deep tree block visits journal) hreach
  refine ⟨_, hways, horder, horder.imp fun hpq => hpq.ne, fun p hp => ?_, fun he => ⟨fun p e hn hv => ?_, ?_⟩⟩
  · obtain ⟨id, e, hpath, hn⟩ := hk.mem_ways hp
    exact ⟨hcovered.visible id p hpath, e, hn⟩
  · have hq : s.queue = [] := hover.resolve_left (by rw [he]; exact Bool.false_ne_true)
    rcases hcovered.entities he p e hn hv with ⟨id, hid, _⟩ | ⟨id, _, hpath, _⟩
    · rw [hq] at hid
      cases hid
    · exact hk.mem_ways_of_empty hq hpath hn
  · have htotal := ((Run.Dispatched.invariant env).tells hd hbegins).total he
    have hlen : (deeds.filterMap visited?).length = ((deeds.filterMap visited?).filterMap s.path?).length := by
      have hsame := congrArg List.length hways
      rwa [List.length_map, List.length_map] at hsame
    rw [← hlen, ← tells_dispatches hx hd]
    exact htotal

def furnishing : Engine where
  rules := [onBlock "a" (.call (.edit (.content (.entity { elem := some "x" })) false) fun _ => .done none)]

def furnished : Node :=
  .list [.entity { block := some "a" }, .list [.entity { block := some "b", content := some (.entity {}) }]]

lemma furnishing_mild : ∀ rule ∈ furnishing.setting.index.rules, rule.body.Mild := by
  intro rule hrule
  obtain rfl := List.mem_singleton.mp hrule
  exact .call _ _ (fun _ => nofun) fun _ => .done

theorem level_order_furnished :
    (State.start furnishing.setting furnished none 0 {}).NeverReplaces furnishing.setting true ∧
    (State.start furnishing.setting furnished none 0 {}).NeverExpands furnishing.setting true ∧ ∃ s deeds,
    (State.start furnishing.setting furnished none 0 {}).Tells furnishing.setting true deeds (.between s) ∧
    ∃ ways : List Path, (deeds.filterMap visited?).map s.path? = ways.map some ∧ ways.Pairwise Path.LevelBefore ∧
      ways.length = 4 ∧ [.item 1, .content] ∈ ways := by
  have hr := neverReplaces_of_mild furnishing_mild true (.start furnishing.setting furnished none 0 {})
  have hx := neverExpands_of_mild furnishing_mild true (.start furnishing.setting furnished none 0 {})
  obtain ⟨s, hs, he, hvisits, e, hlast⟩ : ∃ s,
      drain furnishing.setting (.ofFuel furnishing.setting 0) true 6
        (.start furnishing.setting furnished none 0 {}) = some s ∧
      s.run.error = none ∧ s.run.visits = 4 ∧ ∃ e, s.root.at? [.item 1, .content] = some (.entity e) :=
    ⟨_, rfl, rfl, rfl, _, rfl⟩
  obtain ⟨⟨deeds, hd⟩, hall⟩ := level_order hr hx hs
  obtain ⟨ways, hways, horder, _, _, hdone⟩ := hall deeds hd
  obtain ⟨hmem, htotal⟩ := hdone he
  refine ⟨hr, hx, s, deeds, hd, ways, hways, horder, ?_, hmem _ e hlast (Or.inl rfl)⟩
  rw [hvisits, Nat.zero_add] at htotal
  exact htotal.symm

end Run

end Bemjson
