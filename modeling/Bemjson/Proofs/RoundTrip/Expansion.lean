import Bemjson.Engine
import Bemjson.Proofs.RoundTrip.Bodies
import Bemjson.Proofs.RoundTrip.Markup
import Bemjson.Proofs.Slots

/-! An expansion under rules that draw their nodes from JSON and from what they are given leaves a regular tree. -/

namespace Bemjson

def Setting.Draws (env : Setting) (nulls : Prop) : Prop := ∀ rule ∈ env.index.rules, rule.body.Draws nulls []

structure Nested.KeepsRegular (nested : Nested) (nulls : Prop) : Prop where
  tryRest : ∀ f g, nested.tryRest f = some g → f.node.Regular nulls → g.node.Regular nulls
  expand : ∀ tree f n g, nested.expand tree f = some (n, g) → tree.Regular nulls → f.node.Regular nulls →
    n.Regular nulls ∧ g.node.Regular nulls

structure State.Regular (nulls : Prop) (s : State) : Prop where
  root : s.root.Regular nulls
  around : ∀ k ∈ s.run.slots, k.around.block ≠ some ""

section Rules

variable {env : Setting} {nested : Nested} {nulls : Prop}

lemma regular_mapEntity {n : Node} {change : Entity → Entity} (h : n.Regular nulls)
    (hchange : ∀ e : Entity, e.All (Entity.Regular nulls) → (change e).All (Entity.Regular nulls)) :
    (n.mapEntity change).Regular nulls := by
  cases n with
  | entity e => exact hchange e h
  | _ => exact h

lemma regular_marked {e : Entity} (h : e.All (Entity.Regular nulls)) (fired : List Nat) (stopped : Bool) :
    Entity.All (Entity.Regular nulls) { e with fired, stopped } := by
  have he := (Entity.all_iff.mp h).1
  exact h.of_same ⟨he.block, he.elem, he.keys, he.names, he.js, he.hook⟩ rfl rfl

variable (hn : nested.KeepsRegular nulls)
include hn

lemma perform_regular {c : Call} {reply : c.Reply} {f g : Focus} (h : c.perform env nested f = some (reply, g))
    (hf : f.node.Regular nulls) (hhanded : ∀ n ∈ c.handed, n.Regular nulls) (hnull : c.forcesNull = true → nulls) :
    g.node.Regular nulls ∧ ∀ n ∈ c.answered reply, n.Regular nulls := by
  cases c with
  | node =>
    cases h
    exact ⟨hf, fun n hn => List.mem_singleton.mp hn ▸ hf⟩
  | edit change force =>
    cases h
    exact ⟨regular_mapEntity hf fun e he => Entity.regular_edit he hhanded hnull, nofun⟩
  | stop =>
    cases h
    exact ⟨regular_mapEntity hf fun e he => regular_marked he e.fired true, nofun⟩
  | tryRest =>
    obtain ⟨g', hg, he⟩ := Option.map_eq_some_iff.mp h
    cases he
    exact ⟨hn.tryRest f g hg hf, nofun⟩
  | expand tree =>
    obtain ⟨hreply, hg⟩ := hn.expand tree f reply g h (hhanded tree List.mem_cons_self) hf
    exact ⟨hg, fun n hn => List.mem_singleton.mp hn ▸ hreply⟩
  | _ =>
    cases h
    exact ⟨hf, nofun⟩

lemma exec_regular {body : Body} {given : List Node} {ending : Option Node} {f g : Focus} (hb : body.Draws nulls given)
    (h : body.exec env nested f = some (ending, g)) (hf : f.node.Regular nulls) (hg : ∀ n ∈ given, n.Regular nulls) :
    g.node.Regular nulls ∧ ∀ n ∈ ending, n.Regular nulls := by
  induction hb generalizing f with
  | keep =>
    cases h
    exact ⟨hf, nofun⟩
  | replace hdrawn =>
    cases h
    refine ⟨hf, ?_⟩
    rintro _ ⟨⟩
    exact hdrawn.regular hg
  | call hhanded hnull _ ih =>
    obtain ⟨⟨reply, f'⟩, hc, hp⟩ := Option.bind_eq_some_iff.mp h
    obtain ⟨hf', hanswered⟩ := perform_regular hn hc hf (fun n hn => (hhanded n hn).regular hg) hnull
    exact ih reply hp hf' fun n hn => (List.mem_append.mp hn).elim (hanswered n) (hg n)

variable (hdraws : env.Draws nulls)
include hdraws

lemma fire_regular {id : Nat} {f g : Focus} {b : Bool} (h : fire env nested id f = some (b, g))
    (hf : f.node.Regular nulls) : g.node.Regular nulls := by
  have hs : (f.node.mapEntity fun e => e.fire id).Regular nulls :=
    regular_mapEntity hf fun e he => regular_marked he (id :: e.fired) e.stopped
  simp only [fire] at h
  split at h
  · cases h
    exact hs
  · rename_i rule hrule
    obtain ⟨⟨ending, f'⟩, hp, he⟩ := Option.map_eq_some_iff.mp h
    obtain ⟨hf', hending⟩ := exec_regular hn (hdraws rule (List.mem_of_getElem? hrule)) hp hs (List.forall_mem_nil _)
    cases ending with
    | none =>
      cases he
      exact hf'
    | some n =>
      cases he
      exact hending n rfl

lemma tryAll_regular {f g : Focus} {fate : Fate} (h : tryAll env nested f = some (fate, g))
    (hf : f.node.Regular nulls) : g.node.Regular nulls :=
  tryAll_of_fire (R := fun f g => f.node.Regular nulls → g.node.Regular nulls) (fun _ h => h)
    (fun _ _ _ hfg hgh h => hgh (hfg h)) (fun _ _ _ _ _ _ h => fire_regular hn hdraws h) f g fate h hf

lemma judge_regular {f g : Focus} {fate : Fate} (h : judge env nested f = some (fate, g))
    (hf : f.node.Regular nulls) : g.node.Regular nulls := by
  unfold judge at h
  split at h
  · exact tryAll_regular hn hdraws h hf
  · cases h
    exact hf

end Rules

section Steps

variable {env : Setting} {nested : Nested} {nulls : Prop} {deep : Bool} {s u t : State} {id : Nat}

lemma regular_adopt {e : Entity} {around : Ambient} (h : e.All (Entity.Regular nulls)) (ha : around.block ≠ some "") :
    (e.adopt around).All (Entity.Regular nulls) := by
  have he := (Entity.all_iff.mp h).1
  unfold Entity.adopt
  split
  · refine h.of_same ⟨?_, he.elem, he.keys, he.names, he.js, he.hook⟩ rfl rfl
    change e.block.or around.block ≠ some ""
    cases hb : e.block with
    | none => exact ha
    | some b => exact fun h => he.block (hb.trans h)
  · split
    · exact h.of_same ⟨he.block, he.elem, he.keys, he.names, he.js, he.hook⟩ rfl rfl
    · exact h

lemma block_aroundContent {e : Entity} {around : Ambient} (he : e.block ≠ some "") (ha : around.block ≠ some "") :
    (e.aroundContent around).block ≠ some "" := by
  unfold Entity.aroundContent
  split
  · exact he
  · exact ha

lemma Node.Regular.setAt {n new : Node} (h : n.Regular nulls) (hnew : new.Regular nulls) (p : Path) :
    (n.setAt new p).Regular nulls :=
  Node.All.setAt (fun _ _ h => ⟨h.block, h.elem, h.keys, h.names, h.js, h.hook⟩) h hnew

lemma itemSlots_around {parent : Nat} {path : Path} {around : Ambient} {items : List Node} {k : Slot}
    (hk : k ∈ itemSlots parent path around items) : k.around = around := by
  rw [itemSlots_eq] at hk
  obtain ⟨_, _, rfl⟩ := List.mem_map.mp hk
  rfl

lemma regular_sprout (deep : Bool) {n : Node} {around : Ambient} (h : n.Regular nulls) (ha : around.block ≠ some "") :
    (n.sprout deep around).1.Regular nulls ∧ ∀ k ∈ (n.sprout deep around).2, k.around.block ≠ some "" := by
  cases n with
  | list items =>
    refine ⟨Node.all_list.mpr (Node.all_flatten h), fun k hk => ?_⟩
    rw [itemSlots_around hk]
    exact ha
  | entity e =>
    obtain ⟨he, hc, hm⟩ := Entity.all_iff.mp h
    have hcontent := block_aroundContent he.block ha
    simp only [Node.sprout]
    split
    · rename_i items hitems
      refine ⟨Entity.all_iff.mpr ⟨⟨he.block, he.elem, he.keys, he.names, he.js, he.hook⟩, ?_, hm⟩, fun k hk => ?_⟩
      · rintro _ ⟨⟩
        exact Node.all_list.mpr (Node.all_flatten (hc _ hitems))
      · rw [itemSlots_around hk]
        exact hcontent
    · refine ⟨h, fun k hk => ?_⟩
      obtain rfl := List.mem_singleton.mp hk
      exact hcontent
    · exact ⟨h, List.forall_mem_nil _⟩
  | _ => exact ⟨h, List.forall_mem_nil _⟩

namespace State.Regular

lemma run {r : Run} (h : s.Regular nulls) (hr : r.slots.map Slot.around = s.run.slots.map Slot.around) :
    State.Regular nulls { s with run := r } := by
  refine ⟨h.root, fun k hk => ?_⟩
  have hm := List.mem_map_of_mem (f := Slot.around) hk
  rw [hr] at hm
  obtain ⟨k', hk', he⟩ := List.mem_map.mp hm
  exact he ▸ h.around k' hk'

lemma setAt {n : Node} (h : s.Regular nulls) (hn : n.Regular nulls) (p : Path) :
    State.Regular nulls { s with root := s.root.setAt n p } :=
  ⟨h.root.setAt hn p, h.around⟩

lemma grow {n : Node} {around : Ambient} (h : s.Regular nulls) (hn : n.Regular nulls) (ha : around.block ≠ some "")
    (p : Path) : (s.grow id p (n.sprout deep around)).Regular nulls := by
  obtain ⟨hnode, hkids⟩ := regular_sprout deep hn ha
  refine ⟨h.root.setAt hnode p, fun k hk => ?_⟩
  rcases List.mem_append.mp hk with hk | hk
  · exact h.around k hk
  · obtain ⟨kid, hkid, rfl⟩ := List.mem_map.mp hk
    exact hkids kid hkid

lemma turn (hn : nested.KeepsRegular nulls) (ho : nested.Within Focus.Onward) (hdraws : env.Draws nulls) {slot : Slot}
    (h : s.Regular nulls) (hslot : s.run.slots[id]? = some slot) (ht : Turn env nested deep s id slot u) :
    u.Regular nulls := by
  have ha := h.around slot (List.mem_of_getElem? hslot)
  have hlook : ∀ e, s.root.at? slot.path = some (.entity e) → (s.look id slot e).node.Regular nulls :=
    fun e he => regular_adopt (Node.All.at? h.root he) ha
  have hslots : ∀ e fate f, judge env nested (s.look id slot e) = some (fate, f) →
      f.run.slots.map Slot.around = s.run.slots.map Slot.around := by
    intro e fate f hj
    obtain ⟨_, kept, hk⟩ := judge_slots ho hj
    rw [hk]
    exact map_modify_of_eq Slot.around _ id _ fun _ => rfl
  have hinside : ∀ e, s.root.at? slot.path = some (.entity e) →
      ((e.adopt slot.around).aroundContent slot.around).block ≠ some "" :=
    fun e he => block_aroundContent (Entity.all_iff.mp (hlook e he)).1.block ha
  cases ht with
  | missing _ => exact h
  | plain n hp _ => exact h.grow (Node.All.at? h.root hp) ha _
  | overrun e err _ _ => exact h.run (map_modify_of_eq Slot.around _ id _ fun _ => rfl)
  | failed e fate f err hp _ hj _ =>
    exact (h.run (hslots e fate f hj)).setAt (judge_regular hn hdraws hj (hlook e hp)) _
  | kept e d f hj hd =>
    have hf := judge_regular hn hdraws hj.judge (hlook e hj.entity)
    exact (h.run (hslots e _ f hj.judge)).grow (hd ▸ hf) (hinside e hj.entity) _
  | replaced e f hj =>
    have hf := judge_regular hn hdraws hj.judge (hlook e hj.entity)
    have hs := (h.run (hslots e _ f hj.judge)).setAt hf slot.path
    refine ⟨hs.root, fun k hk => ?_⟩
    obtain ⟨j, hj'⟩ := List.getElem?_of_mem hk
    have hmod : ((f.run.slots.modify id fun k => { k with around := (e.adopt slot.around).aroundContent slot.around })[j]?) =
        some k := hj'
    rw [List.getElem?_modify] at hmod
    obtain ⟨k', hk', rfl⟩ := Option.map_eq_some_iff.mp hmod
    split
    · exact hinside e hj.entity
    · exact hs.around k' (List.mem_of_getElem? hk')

lemma next (hn : nested.KeepsRegular nulls) (ho : nested.Within Focus.Onward) (hdraws : env.Draws nulls)
    (h : s.Regular nulls) (hs : s.Next env nested deep t) : t.Regular nulls := by
  obtain ⟨_, id, queue, u, _, hu, rfl⟩ := hs
  have hpop : (s.pop id queue).Regular nulls := ⟨h.root, h.around⟩
  have hu' : u.Regular nulls := by
    cases hslot : s.run.slots[id]? with
    | some slot => exact hpop.turn hn ho hdraws hslot (turn_of_attend ho hslot hu)
    | none =>
      have hnone : (s.run.note (.popped id)).slots[id]? = none := hslot
      simp only [attend, hnone] at hu
      cases hu
      exact ⟨h.root, h.around⟩
  exact ⟨hu'.root, hu'.around⟩

lemma reaches (hn : nested.KeepsRegular nulls) (ho : nested.Within Focus.Onward) (hdraws : env.Draws nulls)
    (h : s.Regular nulls) (hr : s.Reaches env nested deep t) : t.Regular nulls := by
  induction hr with
  | refl => exact h
  | tail _ hs ih => exact ih.next hn ho hdraws hs

lemma drain (hn : nested.KeepsRegular nulls) (ho : nested.Within Focus.Onward) (hdraws : env.Draws nulls) {steps : Nat}
    (h : s.Regular nulls) (hd : drain env nested deep steps s = some t) : t.Regular nulls :=
  h.reaches hn ho hdraws (drain_iff_run.mp ⟨steps, hd⟩).1

lemma start {tree : Node} {block : Option String} (h : tree.Regular nulls) (hb : block ≠ some "") (visits : Nat)
    (journal : Journal) : (State.start env tree block visits journal).Regular nulls := by
  refine ⟨h, fun k hk => ?_⟩
  obtain rfl := List.mem_singleton.mp hk
  exact hb

end State.Regular

variable (hdraws : env.Draws nulls)
include hdraws

lemma ofFuel_keepsRegular (fuel : Nat) : (Nested.ofFuel env fuel).KeepsRegular nulls := by
  induction fuel with
  | zero => exact ⟨nofun, nofun⟩
  | succ fuel ih =>
    constructor
    · intro f g h hf
      obtain ⟨⟨fate, g'⟩, hg, rfl⟩ := Option.map_eq_some_iff.mp h
      exact tryAll_regular ih hdraws hg hf
    · intro tree f n g h htree hf
      obtain ⟨s, hs, hr⟩ := Option.map_eq_some_iff.mp h
      have hb : f.node.entity?.bind Entity.block ≠ some "" := by
        cases hnode : f.node with
        | entity e => exact (Entity.all_iff.mp (hnode ▸ hf : (Node.entity e).Regular nulls)).1.block
        | _ => nofun
      have hs' := (State.Regular.start htree hb _ _).drain ih (ofFuel_within env fuel) hdraws hs
      have hg : g = (f.absorb s).2 := by rw [hr]
      refine ⟨?_, ?_⟩
      · have hn : n = (f.absorb s).1 := by rw [hr]
        rw [hn, Focus.absorb]
        cases s.run.error with
        | none => exact hs'.root
        | some err => trivial
      · rw [hg, node_absorb]
        exact hf

lemma regular_expand {fuel : Nat} {tree : Node} {block : Option String} {journal : Journal}
    (h : expand env fuel deep tree block journal = some s) (htree : tree.Regular nulls) (hb : block ≠ some "") :
    s.root.Regular nulls :=
  ((State.Regular.start htree hb 0 journal).drain (ofFuel_keepsRegular hdraws fuel) (ofFuel_within env fuel) hdraws h).root

end Steps

/-- Reading back what a tree is written as gives the tree again, with the same markup: for a tree that was itself read,
in every field; for one that an expansion made of it, up to what `Node.bare` leaves out. Behavior that is null, which
is left out as well, comes up only where a body forces it. -/
theorem Engine.ofJson_toJson_expand :
    (∀ v : Json, Node.ofJson (Node.ofJson v).toJson = .ofJson v) ∧
    ∀ (engine : Engine) (nulls : Prop), engine.setting.Draws nulls →
      ∀ (v : Json) (deep : Bool) (journal : Journal) (fuel : Nat) (s : State) (n : Node),
        engine.expand fuel (.ofJson v) none deep journal = some s → s.result = .ok n →
          Node.ofJson n.toJson = n.bare ∧ (∀ o, (Node.ofJson n.toJson).markup o = n.markup o) ∧
            n.All fun e => e.js = some .null → nulls := by
  constructor
  · intro v
    rw [Node.ofJson_toJson (Node.regular_ofJson False v), Node.bare_ofJson]
  · intro engine nulls hdraws v deep journal fuel s n hs hn
    obtain ⟨_, rfl⟩ := State.result_eq_ok.mp hn
    have hregular : s.root.Regular nulls := regular_expand hdraws hs (Node.regular_ofJson nulls v) nofun
    have hback := Node.ofJson_toJson hregular
    refine ⟨hback, fun o => ?_, hregular.mono fun e he => he.js⟩
    rw [hback, Node.markup_bare hregular]

def reshaping : Engine where
  rules := [⟨.selector { block := { name := "a", cond := none }, elem := none },
    .call (.edit (.js .null) true) fun _ =>
      .call (.expand (.ofJson (.object [("elem", .string "b"), ("js", .bool true)]))) fun reply =>
        .call (.edit (.content reply) true) fun _ =>
          .call .node fun m => .done (some (.list [m, .ofJson (.string "c")]))⟩]

theorem ofJson_toJson_of_reshaping : ∃ s n,
    reshaping.expand 5 (.ofJson (.object [("block", .string "a"), ("z", .null), ("y", .bool true)])) none true {} = some s ∧
    s.result = .ok n ∧ reshaping.setting.Draws True ∧ Node.ofJson n.toJson = n.bare ∧
    ∀ o, (Node.ofJson n.toJson).markup o = n.markup o := by
  have hdraws : reshaping.setting.Draws True := by
    intro rule hr
    obtain rfl := List.mem_singleton.mp hr
    refine .call nofun (fun _ => trivial) fun _ => .call ?_ nofun fun reply => .call ?_ nofun fun _ =>
      .call nofun nofun fun m => .replace (.list ?_)
    · exact fun n hn => List.mem_singleton.mp hn ▸ .read _
    · exact fun n hn => .given (List.mem_append_left _ hn)
    · intro n hn
      rcases List.mem_pair.mp hn with rfl | rfl
      · exact .given List.mem_cons_self
      · exact .read _
  obtain ⟨s, hs, he⟩ : ∃ s, reshaping.expand 5
      (.ofJson (.object [("block", .string "a"), ("z", .null), ("y", .bool true)])) none true {} = some s ∧
      s.run.error = none := ⟨_, rfl, rfl⟩
  have hn := State.result_eq_ok.mpr ⟨he, rfl⟩
  obtain ⟨hback, hmarkup, _⟩ := Engine.ofJson_toJson_expand.2 reshaping True hdraws _ true {} 5 s s.root hs hn
  exact ⟨s, s.root, hs, hn, hdraws, hback, hmarkup⟩

end Bemjson
