import Bemjson.Proofs.Chronicle.Counters
import Mathlib.Data.List.Count

/-! Where slots stand among those that are queued with them: the places of a list are counted once, when it is opened,
and hold through all that is done later. -/

namespace Bemjson

def Slot.place (slot : Slot) : Place := ⟨slot.position, slot.siblings⟩

structure Seat where
  path : Path
  parent : Option Nat
  place : Place

def Slot.seat (slot : Slot) : Seat := ⟨slot.path, slot.parent, slot.place⟩

def Node.seats (id : Nat) (base : Path) : Node → List Seat
  | .list items => (places (flatten items)).zipIdx.map fun p =>
      ⟨base ++ [.item p.1], some id, ⟨some (p.2 + 1), (places (flatten items)).length⟩⟩
  | .entity _ => [⟨base, some id, ⟨none, 0⟩⟩]
  | _ => []

/-- A row of slots for what is structured in a node at `base`: the items of its flat form, counted from 1 on, or the
node itself, which has no siblings to be counted with. -/
inductive Lined (base : Path) : Node → List Slot → Prop
  | items (items : List Node) (ways : List Nat) (row : List Slot) : ways.Pairwise (· < ·) →
      (∀ i, i ∈ ways ↔ ∃ n, (Node.flatten items)[i]? = some n ∧ n.isStructured = true) →
      row.map Slot.path = ways.map (fun i => base ++ [.item i]) →
      row.map Slot.position = (List.range' 1 ways.length).map some →
      (∀ slot ∈ row, slot.siblings = ways.length) → Lined base (.list items) row
  | single (e : Entity) (slot : Slot) : slot.path = base → slot.position = none → Lined base (.entity e) [slot]
  | scalar (n : Node) : n.isStructured = false → Lined base n []

section Seats

variable {id : Nat} {base : Path} {n : Node}

lemma parent_of_mem_seats {seat : Seat} (h : seat ∈ n.seats id base) : seat.parent = some id := by
  cases n with
  | list items =>
    obtain ⟨p, _, rfl⟩ := List.mem_map.mp h
    rfl
  | entity e =>
    obtain rfl := List.mem_singleton.mp h
    rfl
  | _ => cases h

lemma seats_itemSlots (id : Nat) (path : Path) (around : Ambient) (items : List Node) :
    (itemSlots id path around (Node.flatten items)).map Slot.seat = (Node.list items).seats id path := by
  rw [itemSlots_eq, List.map_map]
  rfl

lemma seats_sprout_list (id : Nat) (path : Path) (deep : Bool) (around : Ambient) (items : List Node) :
    (((Node.list items).sprout deep around).2.map (Slot.under id path)).map Slot.seat =
      (Node.list items).seats id path := by
  have hunder := itemSlots_under id path [] around (Node.flatten items)
  rw [List.append_nil] at hunder
  rw [Node.sprout, ← hunder, seats_itemSlots]

lemma seats_sprout_content (id : Nat) (path : Path) (around : Ambient) {d : Entity} {c : Node}
    (hc : d.content = some c) :
    (((Node.entity d).sprout true around).2.map (Slot.under id path)).map Slot.seat =
      c.seats id (path ++ [.content]) := by
  cases c with
  | list items =>
    simp only [Node.sprout, hc]
    rw [← itemSlots_under, seats_itemSlots]
  | _ =>
    simp only [Node.sprout, hc]
    rfl

lemma lined_of_seats {row : List Slot} (h : row.map Slot.seat = n.seats id base) : Lined base n row := by
  cases n with
  | list items =>
    have hpath := congrArg (List.map Seat.path) h
    have hposition := congrArg (List.map fun seat => seat.place.position) h
    rw [Node.seats, List.map_map, List.map_map] at hpath hposition
    refine .items items (places (Node.flatten items)) row (places_sorted _) (fun i => mem_places) ?_ ?_ fun slot hslot => ?_
    · have hfst := congrArg (List.map fun i => base ++ [Step.item i]) (List.zipIdx_map_fst 0 (places (Node.flatten items)))
      rw [List.map_map] at hfst
      exact hpath.trans hfst
    · have hsnd := congrArg (List.map fun i => some (1 + i)) (List.zipIdx_map_snd 0 (places (Node.flatten items)))
      have hcounted := congrArg (List.map some) (List.map_add_range' (a := 1) 0 (places (Node.flatten items)).length 1)
      simp only [List.map_map, Function.comp_def, Nat.add_comm 1] at hsnd hcounted
      exact hposition.trans (hsnd.trans hcounted)
    · have hmem := List.mem_map_of_mem (f := Slot.seat) hslot
      rw [h] at hmem
      obtain ⟨p, _, hp⟩ := List.mem_map.mp hmem
      exact congrArg (fun seat => seat.place.siblings) hp.symm
  | entity e =>
    obtain ⟨slot, rfl, hseat⟩ := List.map_eq_singleton_iff.mp h
    exact .single e slot (congrArg Seat.path hseat) (congrArg (fun seat => seat.place.position) hseat)
  | _ =>
    obtain rfl := List.map_eq_nil_iff.mp h
    exact .scalar _ rfl

lemma Lined.ends {row : List Slot} (h : Lined base n row) :
    row.countP (fun slot => slot.place.isFirst) ≤ 1 ∧ row.countP (fun slot => slot.place.isLast) ≤ 1 := by
  cases h with
  | items items ways row _ _ _ hposition hsiblings =>
    have hnodup : (row.map Slot.position).Nodup := by
      rw [hposition]
      exact List.Nodup.map (Option.some_injective _) List.nodup_range'
    have hcount := List.nodup_iff_count_le_one.mp hnodup
    have hfirst := hcount (some 1)
    have hlast := hcount (some ways.length)
    rw [List.count_eq_countP, List.countP_map] at hfirst hlast
    refine ⟨hfirst, le_of_eq_of_le (List.countP_congr fun slot hslot => ?_) hlast⟩
    rw [Slot.place, Place.isLast, hsiblings slot hslot]
    rfl
  | single e slot _ hposition => simp [Slot.place, Place.isFirst, Place.isLast, hposition]
  | scalar n _ => simp

end Seats

namespace State

def seats (s : State) : List Seat := s.run.slots.map Slot.seat

def row (s : State) (parent : Option Nat) : List Slot := s.run.slots.filter fun slot => slot.parent == parent

/-- The head of the queue has slots made for what is structured in a node at `base`. That is the list in its own place,
which the tree began with or a rule has put there, or the content of an entity that is kept. -/
inductive Opens (env : Setting) (deep : Bool) (s : State) (id : Nat) : Path → Node → Prop
  | own (queue : List Nat) (slot : Slot) (items : List Node) : s.queue = id :: queue → s.run.slots[id]? = some slot →
      s.root.at? slot.path = some (.list items) → Opens env deep s id slot.path (.list items)
  | content (queue : List Nat) (slot : Slot) (e d : Entity) (f : Focus) (c : Node) : deep = true →
      s.queue = id :: queue → s.run.slots[id]? = some slot →
      Judged env (.unbounded env) (s.pop id queue) id slot .kept e f → f.node = .entity d → d.content = some c →
      Opens env deep s id (slot.path ++ [.content]) c

def Opened (env : Setting) (deep : Bool) (first : State) (id : Nat) (base : Path) (n : Node) (s : State) : Prop :=
  ∃ a b, first.Reaches env (.unbounded env) deep a ∧ a.Opens env deep id base n ∧ a.Next env (.unbounded env) deep b ∧
    b.Reaches env (.unbounded env) deep s

section Steps

variable {env : Setting} {deep : Bool} {first s t : State} {id : Nat} {base p : Path} {n : Node}

lemma map_seat_row (s : State) (parent : Option Nat) :
    (s.row parent).map Slot.seat = s.seats.filter fun seat => seat.parent == parent := by
  rw [row, seats, List.filter_map]
  rfl

lemma seats_judged {nested : Nested} (hn : nested.Within Focus.Onward) {slot : Slot} {e : Entity} {fate : Fate}
    {f : Focus} (h : judge env nested (s.look id slot e) = some (fate, f)) : f.run.slots.map Slot.seat = s.seats := by
  obtain ⟨_, kept, hkept⟩ := judge_slots hn h
  rw [hkept]
  exact map_modify_of_eq Slot.seat _ id _ fun _ => rfl

lemma seats_countReplacement (r : Run) (id : Nat) (around : Ambient) :
    (r.countReplacement id around).slots.map Slot.seat = r.slots.map Slot.seat :=
  map_modify_of_eq Slot.seat r.slots id (fun slot => { slot with around }) fun _ => rfl

lemma seats_grow (s : State) (r : Run) (id : Nat) (path : Path) (sprout : Node × List Slot) :
    (grow { s with run := r } id path sprout).measured.seats =
      r.slots.map Slot.seat ++ (sprout.2.map (Slot.under id path)).map Slot.seat :=
  List.map_append

lemma seats_grow_none (s : State) (r : Run) (id : Nat) (path : Path) (sprout : Node × List Slot) (h : sprout.2 = []) :
    (grow { s with run := r } id path sprout).measured.seats = r.slots.map Slot.seat := by
  rw [seats_grow, h, List.map_nil, List.map_nil, List.append_nil]

lemma Opens.next (ht : s.Tidy) (h : s.Opens env deep id base n) (hs : s.Next env (.unbounded env) deep t) :
    t.seats = s.seats ++ n.seats id base ∧ id ∈ s.queue ∧ id ∉ t.queue ∧
      ∀ items, n = .list items → t.root.at? base = some (.list (Node.flatten items)) := by
  have hn := unbounded_within env
  cases h with
  | own queue slot items hq hslot hm =>
    obtain ⟨hpop, p, hh⟩ := ht.pop hq
    obtain ⟨_, u, hu, rfl⟩ := hs.attends hq
    rw [attend_plain _ hslot hm rfl] at hu
    obtain rfl := Option.some.inj hu
    refine ⟨?_, by simp [hq], not_mem_grow (Touched.refl _ id) _ _ hh.path hh.absent, ?_⟩
    · exact (seats_grow (s.pop id queue) _ id _ _).trans (congrArg _ (seats_sprout_list id _ deep slot.around items))
    · intro items' hitems
      obtain rfl := Node.list.inj hitems
      refine (Node.at?_setAt s.root _ slot.path).trans ?_
      rw [hm, Option.map_some]
      rfl
  | content queue slot e d f c hdeep hq hslot hj hd hc =>
    subst hdeep
    obtain ⟨hpop, p, hh⟩ := ht.pop hq
    obtain ⟨_, u, hu, rfl⟩ := hs.attends hq
    rw [attend_entity _ hslot hj.entity, visit_eq_judge, hj.allowed, hj.judge, Option.map_some] at hu
    obtain rfl := Option.some.inj hu
    rw [settle_kept hj.sound hd]
    refine ⟨?_, by simp [hq], not_mem_grow (judge_touched hn hj.judge) _ _ hh.path hh.absent, ?_⟩
    · rw [seats_grow, seats_judged hn hj.judge, seats_sprout_content id _ _ hc]
      rfl
    · rintro items rfl
      refine (Node.at?_setAt_append s.root _ slot.path [.content]).trans ?_
      rw [show s.root.at? slot.path = _ from hj.entity, Option.bind_some]
      simp only [Node.sprout, hc]
      rfl

lemma Next.opens_or (ht : s.Tidy) (hs : s.Next env (.unbounded env) deep t) :
    (∃ id base n, s.Opens env deep id base n) ∨ t.seats = s.seats := by
  have hn := unbounded_within env
  obtain ⟨id, queue, slot, u, _, hq, hslot, _, _, hturn, rfl⟩ := Next.turn hn ht hs
  cases hturn with
  | missing _ => exact .inr rfl
  | plain m hm hplain =>
    cases m with
    | list items => exact .inl ⟨id, _, _, .own queue slot items hq hslot hm⟩
    | entity e => cases hplain
    | _ => exact .inr (seats_grow_none (s.pop id queue) _ id _ _ rfl)
  | overrun e err _ _ => exact .inr (map_modify_of_eq Slot.seat _ id _ fun _ => rfl)
  | failed e fate f err _ _ hj _ => exact .inr (seats_judged (s := s.pop id queue) hn hj)
  | kept e d f hj hd =>
    have hsame := fun sprout hnone => (seats_grow_none (s.pop id queue) f.run id slot.path sprout hnone).trans
      (seats_judged hn hj.judge)
    cases deep with
    | false => exact .inr (hsame _ rfl)
    | true =>
      cases hc : d.content with
      | none => exact .inr (hsame _ (by simp only [Node.sprout, hc]))
      | some c => exact .inl ⟨id, _, c, .content queue slot e d f c rfl hq hslot hj hd hc⟩
  | replaced e f hj =>
    exact .inr ((seats_countReplacement f.run id _).trans (seats_judged (s := s.pop id queue) hn hj.judge))

lemma row_of_waiting (ht : s.Tidy) (hid : id ∈ s.queue) : s.row (some id) = [] := by
  rw [row, List.filter_eq_nil_iff]
  intro slot hslot hparent
  obtain ⟨i, hi⟩ := List.mem_iff_getElem?.mp hslot
  obtain ⟨hlt, q, hq, hpre⟩ := ht.parents i slot id hi (by simpa using hparent)
  have hi' : s.path? i = some slot.path := by rw [path?, hi, Option.map_some]
  have hsame := ht.lowest id hid i q slot.path hq hi' hpre
  omega

lemma filter_seats_self (n : Node) (id : Nat) (base : Path) :
    (n.seats id base).filter (fun seat => seat.parent == some id) = n.seats id base :=
  List.filter_eq_self.mpr fun _ hseat => by simp [parent_of_mem_seats hseat]

lemma filter_seats_ne (n : Node) (base : Path) {other : Nat} (h : id ≠ other) :
    (n.seats id base).filter (fun seat => seat.parent == some other) = [] :=
  List.filter_eq_nil_iff.mpr fun _ hseat => by simp [parent_of_mem_seats hseat, h]

lemma Next.path?_old (ht : s.Tidy) (hp : s.path? id = some p) (hs : s.Next env (.unbounded env) deep t) :
    t.path? id = some p := by
  have hn := unbounded_within env
  obtain ⟨_, _, _, _, _, _, _, _, _, hturn, rfl⟩ := Next.turn hn ht hs
  exact hturn.path?_old hn hp

lemma Next.row_of_done (ht : s.Tidy) (hp : s.path? id = some p) (hout : id ∉ s.queue)
    (hs : s.Next env (.unbounded env) deep t) :
    t.path? id = some p ∧ id ∉ t.queue ∧ (t.row (some id)).map Slot.seat = (s.row (some id)).map Slot.seat := by
  have hn := unbounded_within env
  refine ⟨Next.path?_old ht hp hs, ?_, ?_⟩
  · obtain ⟨head, queue, _, _, _, hq, _, _, _, hturn, rfl⟩ := Next.turn hn ht hs
    rw [hq, List.mem_cons, not_or] at hout
    exact hturn.not_mem_queue hn hp hout.1 hout.2
  · rw [map_seat_row, map_seat_row]
    rcases hs.opens_or ht with ⟨head, base, n, hopens⟩ | hsame
    · obtain ⟨hseats, hmem, _⟩ := hopens.next ht hs
      have hne : head ≠ id := fun he => hout (he ▸ hmem)
      rw [hseats, List.filter_append, filter_seats_ne n base hne, List.append_nil]
    · rw [hsame]

lemma Reaches.row_of_done (ht : s.Tidy) (hp : s.path? id = some p) (hout : id ∉ s.queue)
    (h : s.Reaches env (.unbounded env) deep t) :
    t.path? id = some p ∧ id ∉ t.queue ∧ (t.row (some id)).map Slot.seat = (s.row (some id)).map Slot.seat := by
  induction h with
  | refl => exact ⟨hp, hout, rfl⟩
  | tail hr hs ih =>
    obtain ⟨hp, hout, hrow⟩ := ih
    obtain ⟨hp, hout, hstep⟩ := Next.row_of_done (ht.reaches (unbounded_within env) hr) hp hout hs
    exact ⟨hp, hout, hstep.trans hrow⟩

lemma Opened.row (hf : first.Tidy) (h : first.Opened env deep id base n s) :
    (s.row (some id)).map Slot.seat = n.seats id base := by
  obtain ⟨a, b, hr, hopens, hs, hlater⟩ := h
  have hn := unbounded_within env
  have ht := hf.reaches hn hr
  obtain ⟨hseats, hmem, hout, _⟩ := hopens.next ht hs
  obtain ⟨p, _, hp, _⟩ := ht.known id hmem
  -- before its turn a slot has none below it, and once it does not wait any more there are no others to come
  have hb := Next.path?_old ht hp hs
  rw [(Reaches.row_of_done (ht.next hn hs) hb hout hlater).2.2, map_seat_row, hseats, List.filter_append,
    ← map_seat_row, row_of_waiting ht hmem, filter_seats_self]
  rfl

lemma Next.seats_prefix (ht : s.Tidy) (hs : s.Next env (.unbounded env) deep t) : s.seats <+: t.seats := by
  rcases hs.opens_or ht with ⟨_, _, _, hopens⟩ | hsame
  · rw [(hopens.next ht hs).1]
    exact List.prefix_append _ _
  · exact hsame ▸ List.prefix_refl _

lemma Reaches.seats_prefix (ht : s.Tidy) (h : s.Reaches env (.unbounded env) deep t) : s.seats <+: t.seats := by
  induction h with
  | refl => exact List.prefix_refl _
  | tail hr hs ih => exact ih.trans (Next.seats_prefix (ht.reaches (unbounded_within env) hr) hs)

lemma Opened.tail (h : first.Opened env deep id base n s) (hs : s.Next env (.unbounded env) deep t) :
    first.Opened env deep id base n t := by
  obtain ⟨a, b, hr, hopens, hab, hlater⟩ := h
  exact ⟨a, b, hr, hopens, hab, hlater.tail hs⟩

lemma Reaches.seats_opened (hf : first.Tidy) (h : first.Reaches env (.unbounded env) deep s) :
    ∃ later, s.seats = first.seats ++ later ∧
      ∀ seat ∈ later, ∃ id base n, seat.parent = some id ∧ first.Opened env deep id base n s := by
  induction h with
  | refl => exact ⟨[], (List.append_nil _).symm, nofun⟩
  | @tail a b hr hs ih =>
    obtain ⟨later, hseats, hlater⟩ := ih
    have ht := hf.reaches (unbounded_within env) hr
    have hold : ∀ seat ∈ later, ∃ id base n, seat.parent = some id ∧ first.Opened env deep id base n b := by
      intro seat hseat
      obtain ⟨id, base, n, hparent, hopened⟩ := hlater seat hseat
      exact ⟨id, base, n, hparent, hopened.tail hs⟩
    rcases hs.opens_or ht with ⟨id, base, n, hopens⟩ | hsame
    · refine ⟨later ++ n.seats id base, ?_, fun seat hseat => ?_⟩
      · rw [(hopens.next ht hs).1, hseats, List.append_assoc]
      · rcases List.mem_append.mp hseat with hseat | hseat
        · exact hold seat hseat
        · exact ⟨id, base, n, parent_of_mem_seats hseat, _, _, hr, hopens, hs, .refl⟩
    · exact ⟨later, hsame.trans hseats, hold⟩

lemma Visits.does_place {f : Focus} {acts : List Act} {x : Point} (hf : s.Visits env f)
    (h : (f.trial env).Does env acts x) :
    ∃ slot, s.run.slots[x.focus.slot]? = some slot ∧ x.focus.place = slot.place := by
  obtain ⟨_, hlt, _⟩ := hf.does_known h
  have hseats := hf.does_map Slot.seat (fun _ _ => rfl) (fun _ _ => rfl) h
  have hseat := congrArg (fun seats : List Seat => (seats[x.focus.slot]?).map Seat.place) hseats
  simp only [List.getElem?_map, Option.map_map] at hseat
  rw [List.getElem?_eq_getElem hlt] at hseat ⊢
  obtain ⟨slot, hslot, hplace⟩ := Option.map_eq_some_iff.mp hseat
  refine ⟨_, rfl, ?_⟩
  rw [Focus.place, hslot]
  exact hplace

end Steps

section Start

variable {env : Setting} {deep : Bool} {tree : Node} {block : Option String} {visits : Nat} {journal : Journal}
  {s : State} (h : (State.start env tree block visits journal).Reaches env (.unbounded env) deep s)

include h

lemma Reaches.top : ∃ top, s.row none = [top] ∧ top.path = [] ∧ top.position = none := by
  obtain ⟨later, hseats, hlater⟩ := Reaches.seats_opened (Tidy.start env tree block visits journal) h
  have hnone : later.filter (fun seat => seat.parent == none) = [] := by
    refine List.filter_eq_nil_iff.mpr fun seat hseat => ?_
    obtain ⟨id, _, _, hparent, _⟩ := hlater seat hseat
    simp [hparent]
  have htop : (s.row none).map Slot.seat = [⟨[], none, ⟨none, 0⟩⟩] := by
    rw [map_seat_row, hseats, List.filter_append, hnone]
    rfl
  obtain ⟨top, hrow, hseat⟩ := List.map_eq_singleton_iff.mp htop
  exact ⟨top, hrow, congrArg Seat.path hseat, congrArg (fun seat => seat.place.position) hseat⟩

lemma Reaches.opened_of_parent {slot : Slot} (hslot : slot ∈ s.run.slots) {id : Nat} (hid : slot.parent = some id) :
    ∃ base n, (State.start env tree block visits journal).Opened env deep id base n s := by
  obtain ⟨later, hseats, hlater⟩ := Reaches.seats_opened (Tidy.start env tree block visits journal) h
  have hmem : slot.seat ∈ s.seats := List.mem_map_of_mem hslot
  rw [hseats] at hmem
  rcases List.mem_append.mp hmem with hmem | hmem
  · have hnone : slot.parent = none := congrArg Seat.parent (List.mem_singleton.mp hmem)
    cases hnone.symm.trans hid
  · obtain ⟨id', base, n, hparent, hopened⟩ := hlater _ hmem
    obtain rfl := Option.some.inj (hparent.symm.trans hid)
    exact ⟨base, n, hopened⟩

lemma Reaches.row_lined (parent : Option Nat) : s.row parent = [] ∨ ∃ base n, Lined base n (s.row parent) := by
  cases parent with
  | none =>
    obtain ⟨top, hrow, hpath, hposition⟩ := Reaches.top h
    exact .inr ⟨[], .entity {}, hrow ▸ .single {} top hpath hposition⟩
  | some id =>
    refine or_iff_not_imp_left.mpr fun hrow => ?_
    obtain ⟨slot, hslot⟩ := List.exists_mem_of_ne_nil _ hrow
    obtain ⟨hslot, hparent⟩ := List.mem_filter.mp hslot
    obtain ⟨base, n, hopened⟩ := Reaches.opened_of_parent h hslot (by simpa using hparent)
    exact ⟨base, n, lined_of_seats (hopened.row (Tidy.start env tree block visits journal))⟩

end Start

/-- In any state of an expansion, the slots below one are those for the node that was opened there: the items of the
flat list that are structured, in their order and counted from 1 on, or the one node of a content. The slot of the tree
and that of such a node have no position. All that was made for a slot stays as it is, whatever is put in its place or
in that of another. -/
theorem siblings_placed {env : Setting} {deep : Bool} {tree : Node} {block : Option String} {visits : Nat}
    {journal : Journal} {s : State}
    (h : (State.start env tree block visits journal).Reaches env (.unbounded env) deep s) :
    (∃ top, s.row none = [top] ∧ top.path = [] ∧ top.position = none) ∧
      (∀ slot ∈ s.run.slots, ∀ id, slot.parent = some id →
        ∃ base n, (State.start env tree block visits journal).Opened env deep id base n s) ∧
      (∀ id base n, (State.start env tree block visits journal).Opened env deep id base n s →
        Lined base n (s.row (some id))) ∧
      (∀ id base items t, s.Opens env deep id base (.list items) → s.Next env (.unbounded env) deep t →
        t.root.at? base = some (.list (Node.flatten items))) ∧
      (∀ parent, (s.row parent).countP (fun slot => slot.place.isFirst) ≤ 1 ∧
        (s.row parent).countP (fun slot => slot.place.isLast) ≤ 1) ∧
      (∀ t, s.Reaches env (.unbounded env) deep t → s.seats <+: t.seats) ∧
      ∀ f acts x, s.Visits env f → (f.trial env).Does env acts x →
        ∃ slot, s.run.slots[x.focus.slot]? = some slot ∧ x.focus.place = slot.place := by
  have hf := Tidy.start env tree block visits journal
  have ht := hf.reaches (unbounded_within env) h
  refine ⟨Reaches.top h, fun slot hslot id hid => Reaches.opened_of_parent h hslot hid,
    fun id base n hopened => lined_of_seats (hopened.row hf),
    fun id base items t hopens hs => (hopens.next ht hs).2.2.2 items rfl, fun parent => ?_,
    fun t hr => Reaches.seats_prefix ht hr, fun f acts x hv hx => hv.does_place hx⟩
  rcases Reaches.row_lined h parent with hrow | ⟨base, n, hrow⟩
  · simp [hrow]
  · exact hrow.ends

def parting : Engine where
  rules := [onBlock "a" (.done (some (.list [.entity { block := some "c" }, .text "x", .entity { block := some "d" }])))]

def parted : Node := .list [.text "t", .entity { block := some "a" }, .list [.entity { block := some "b" }]]

theorem siblings_placed_parted : ∃ s,
    (State.start parting.setting parted none 0 {}).Reaches parting.setting (.unbounded parting.setting) true s ∧
    (s.row (some 0)).map Slot.place = [⟨some 1, 2⟩, ⟨some 2, 2⟩] ∧
    ∃ base n, (State.start parting.setting parted none 0 {}).Opened parting.setting true 1 base n s ∧
      Lined base n (s.row (some 1)) ∧ (s.row (some 1)).countP (fun slot => slot.place.isLast) ≤ 1 := by
  obtain ⟨s, hs, hplaces, slot, hslot, hparent⟩ : ∃ s,
      drain parting.setting (.ofFuel parting.setting 9) true 9 (.start parting.setting parted none 0 {}) = some s ∧
      (s.row (some 0)).map Slot.place = [⟨some 1, 2⟩, ⟨some 2, 2⟩] ∧
      ∃ slot, s.run.slots[3]? = some slot ∧ slot.parent = some 1 :=
    ⟨_, rfl, rfl, _, rfl, rfl⟩
  have hr := (reached_of_drain hs).1
  obtain ⟨_, hmade, hlined, _, hends, _⟩ := siblings_placed hr
  obtain ⟨base, n, hopened⟩ := hmade slot (List.mem_of_getElem? hslot) 1 hparent
  exact ⟨s, hr, hplaces, base, n, hopened, hlined 1 base n hopened, (hends (some 1)).2⟩

end State

end Bemjson
