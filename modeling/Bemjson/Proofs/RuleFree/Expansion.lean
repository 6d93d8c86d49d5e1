import Bemjson.Proofs.DepthFirst.Agreement
import Bemjson.Proofs.History
import Bemjson.Proofs.LoopGuard.Transparent
import Bemjson.Proofs.RuleFree.Load

namespace Bemjson

section Recursion

variable {env : Setting} {deep : Bool}

lemma aroundContent_aroundContent (e : Entity) (around : Ambient) :
    e.aroundContent (e.aroundContent around) = e.aroundContent around := by
  unfold Entity.aroundContent
  split <;> rfl

lemma expandItems_placed (nested : Nested) (items : List Node)
    (h : ∀ n ∈ items, ∀ spot : Spot, ∃ fuel, expandNode env nested deep fuel spot n = some (n.placed deep spot.around))
    (spot : Spot) (siblings position : Nat) :
    ∃ fuel, expandItems (expandNode env nested deep fuel) spot siblings position items =
      some (items.map (Node.placed deep spot.around)) := by
  induction items generalizing position with
  | nil => exact ⟨0, rfl⟩
  | cons n ns ih =>
    obtain ⟨hn, hns⟩ := List.forall_mem_cons.mp h
    cases hs : n.isStructured with
    | false =>
      obtain ⟨fuel, hf⟩ := ih hns position
      exact ⟨fuel, by rw [expandItems, hs, hf, List.map_cons, Node.placed_of_leaf hs]; rfl⟩
    | true =>
      obtain ⟨a, ha⟩ := hn { spot with position := some position, siblings }
      obtain ⟨b, hb⟩ := ih hns (position + 1)
      have ha' := expandNode_more env nested deep (Nat.le_max_left a b) _ _ _ ha
      have hb' := (expandNode_more env nested deep (Nat.le_max_right a b)).items _ _ _ _ _ hb
      exact ⟨max a b, by rw [expandItems, hs, if_pos rfl, ha', Option.bind_some, hb']; rfl⟩

variable (hindex : env.index = {})
include hindex

lemma expandEntity_placed (nested : Nested) (e : Entity)
    (h : ∀ c ∈ e.content, ∀ spot : Spot,
      ∃ fuel, expandContent (expandNode env nested deep fuel) spot c = some (c.placed deep spot.around)) (spot : Spot) :
    ∃ fuel, expandNode env nested deep fuel spot (.entity e) = some ((Node.entity e).placed deep spot.around) := by
  have hcontent : (e.adopt spot.around).content = e.content := e.content_adopt spot.around
  cases deep with
  | false =>
    refine ⟨1, ?_⟩
    rw [expandNode, judge_ruleless hindex, Option.bind_some, Node.placed, Entity.placed_shallow]
    rfl
  | true =>
    cases hc : e.content with
    | none =>
      refine ⟨1, ?_⟩
      rw [expandNode, judge_ruleless hindex, Option.bind_some, Node.placed, Entity.placed_deep, hc]
      simp only [Spot.focus, hcontent, hc]
      rw [Option.map_none, Entity.with_content (hcontent.trans hc)]
    | some c =>
      obtain ⟨fuel, hf⟩ := h c hc ((spot.keeping (spot.focus (e.adopt spot.around))
        ((e.adopt spot.around).aroundContent spot.around)).below
          ((e.adopt spot.around).aroundContent ((e.adopt spot.around).aroundContent spot.around)))
      refine ⟨fuel + 1, ?_⟩
      rw [expandNode, judge_ruleless hindex, Option.bind_some, Node.placed, Entity.placed_deep, hc]
      simp only [Spot.focus, hcontent, hc] at hf ⊢
      rw [hf, Option.map_some, Option.map_some]
      simp only [Spot.below, aroundContent_aroundContent]

lemma expandContent_placed (nested : Nested) (n : Node) :
    (∀ spot : Spot, ∃ fuel, expandNode env nested deep fuel spot n = some (n.placed deep spot.around)) ∧
    ∀ spot : Spot, ∃ fuel, expandContent (expandNode env nested deep fuel) spot n = some (n.placed deep spot.around) := by
  induction n using Node.flatInduction with
  | leaf n hn =>
    constructor
    · exact fun spot => ⟨1, by cases n <;> first | rfl | cases hn⟩
    · exact fun spot => ⟨1, by cases n <;> first | rfl | cases hn⟩
  | list items ih =>
    have hitems := expandItems_placed nested (Node.flatten items) fun n hn => (ih n hn).1
    constructor
    · intro spot
      obtain ⟨fuel, hf⟩ := hitems (spot.below spot.around) _ 1
      exact ⟨fuel + 1, by rw [expandNode, expandList, hf, Node.placed_list]; rfl⟩
    · intro spot
      obtain ⟨fuel, hf⟩ := hitems spot _ 1
      exact ⟨fuel, by rw [expandContent, expandList, hf, Node.placed_list]; rfl⟩
  | entity e hcontent =>
    have hnode := expandEntity_placed hindex nested e fun c hc => (hcontent c hc).2
    exact ⟨hnode, hnode⟩

end Recursion

namespace Engine

variable {engine : Engine} (hindex : engine.index = {}) {tree : Node} {block : Option String} {deep : Bool}
  {journal : Journal}
include hindex

lemma not_mem_rules (P : Rule → Prop) : ∀ rule ∈ engine.index.rules, P rule := by
  rw [hindex]
  exact nofun

lemma expandNode_placed (nested : Nested) (tree : Node) (block : Option String) (deep : Bool) :
    ∃ fuel, expandNode engine.setting nested deep fuel { around := { block } } tree = some (tree.placed deep { block }) := by
  have hsetting : engine.setting.index = {} := hindex
  exact (expandContent_placed hsetting nested tree).1 { around := { block } }

lemma isSome_error {fuel : Nat} {s : State} (h : engine.expand fuel tree block deep journal = some s) :
    s.run.error ≠ none ↔ engine.options.detectLoops = true ∧ totalLimit < tree.entities deep := by
  obtain ⟨hr, hover⟩ := drain_iff_run.mp ⟨fuel, h⟩
  have ho := ofFuel_within engine.setting fuel
  have hs : s.Paced engine.setting deep (tree.entities deep) :=
    State.Paced.reaches hindex ho (State.Tidy.start _ tree block 0 journal) (State.Paced.start _ deep tree block journal) hr
  refine ⟨hs.excess, ?_⟩
  rintro ⟨hloops, htotal⟩ he
  have hq : s.queue = [] := by
    rcases hover with hover | hq
    · rw [he] at hover
      cases hover
    · exact hq
  have hload := hs.load he
  have hguarded : s.run.Guarded 0 := (Run.Guarded.invariant hloops).expand h
  have hvisits := (hguarded.sound (Nat.zero_le _) he).2
  have hempty : s.load deep = 0 := by rw [State.load, hq]; rfl
  omega

lemma root_of_unguarded (hloops : engine.options.detectLoops = false) {fuel : Nat} {s : State}
    (h : engine.expand fuel tree block deep journal = some s) : s.root = tree.placed deep { block } := by
  have hi : ∀ rule ∈ engine.setting.index.rules, rule.body.IdFree := not_mem_rules hindex _
  obtain ⟨_, a, ha⟩ :=
    expandNode_of_drain hloops hi (ofFuel_within engine.setting fuel) (ofFuel_simulates hloops hi fuel) h
  obtain ⟨b, hb⟩ := expandNode_placed hindex (.depthFirstLimit engine.setting) tree block deep
  have ha' := expandNode_more engine.setting _ deep (Nat.le_max_left a b) _ _ _ ha
  have hb' := expandNode_more engine.setting _ deep (Nat.le_max_right a b) _ _ _ hb
  exact Option.some.inj (ha'.symm.trans hb')

lemma root_of_expand {fuel : Nat} {s : State} (h : engine.expand fuel tree block deep journal = some s)
    (he : s.run.error = none) : s.root = tree.placed deep { block } := by
  cases hloops : engine.options.detectLoops with
  | false => exact root_of_unguarded hindex hloops h
  | true =>
    -- Loop detection that raises nothing can as well be off, and then plain recursion gives the tree.
    have hon : engine.detectLoops true = engine := by
      rw [Engine.detectLoops, ← hloops]
    rw [← hon] at h
    have hmodest : s.run.Modest := (Run.Guarded.invariant (by rfl) |>.expand h).modest he
    obtain ⟨fuel', hoff⟩ := (engine.inStep_detectLoops (not_mem_rules hindex _) true false).expand_rejournal h hmodest
    have hindex' : (engine.detectLoops false).index = {} := hindex
    exact root_of_unguarded hindex' rfl hoff

lemma exists_expand (tree : Node) (block : Option String) (deep : Bool) (journal : Journal) :
    ∃ fuel s, engine.expand fuel tree block deep journal = some s := by
  -- Loop detection bounds the visits; without it, plain recursion ends, and so does the queue.
  have hends : (State.start engine.setting tree block 0 journal).Ends engine.setting deep := by
    cases hloops : engine.options.detectLoops with
    | true =>
      exact State.ends_of_visits hloops (State.Tidy.start _ tree block 0 journal) fun s f _ _ =>
        ⟨_, tryAll_ruleless hindex _ f⟩
    | false =>
      have hi : ∀ rule ∈ engine.setting.index.rules, rule.body.IdFree := not_mem_rules hindex _
      obtain ⟨fuel, hf⟩ := expandNode_placed hindex (.depthFirst engine.setting 0) tree block deep
      obtain ⟨steps, s, hs, _⟩ :=
        drain_of_expandNode hloops hi (unbounded_within _) (depthFirst_simulates hloops hi 0) hf 0 journal
      exact ⟨steps, s, hs⟩
  obtain ⟨steps, s, hs⟩ := hends
  obtain ⟨fuel, hd⟩ := (drain_unbounded engine.setting deep _ s).mp ⟨steps, hs⟩
  exact ⟨fuel, s, hd⟩

lemma result_of_expand {fuel : Nat} {s : State} (h : engine.expand fuel tree block deep journal = some s)
    (hfew : engine.options.detectLoops = true → tree.entities deep ≤ totalLimit) :
    s.result = .ok (tree.placed deep { block }) := by
  have herror : ¬ s.run.error ≠ none := by
    rw [isSome_error hindex h]
    exact fun ⟨hloops, hmany⟩ => Nat.not_lt.mpr (hfew hloops) hmany
  have he : s.run.error = none := not_not.mp herror
  exact State.result_eq_ok.mpr ⟨he, root_of_expand hindex h he⟩

lemma ok_of_expand {fuel : Nat} {s : State} {n : Node} (h : engine.expand fuel tree block deep journal = some s)
    (hn : s.result = .ok n) : n = tree.placed deep { block } := by
  obtain ⟨he, rfl⟩ := State.result_eq_ok.mp hn
  exact root_of_expand hindex h he

end Engine

lemma Engine.Sound.index_of_rules {engine : Engine} (hsound : engine.Sound) (hrules : engine.rules = []) :
    engine.index = {} := by
  rw [hsound.index, hrules, RuleIndex.build]
  cases engine.options.ruleOrder <;> rfl

end Bemjson
