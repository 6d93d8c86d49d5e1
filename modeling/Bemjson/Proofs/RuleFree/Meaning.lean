import Bemjson.Proofs.Flattening
import Bemjson.Proofs.RoundTrip.Expansion
import Bemjson.Proofs.RuleFree.Expansion

/-! Without rules, an expansion changes nothing that is not changed already, and no markup. -/

namespace Bemjson

section Bare

variable {deep : Bool} {around : Ambient}

lemma Node.splice_bare (n : Node) : n.bare.splice [] = (n.splice []).map bare := by
  induction n using Node.induction with
  | leaf n hn => cases n <;> first | rfl | cases hn
  | list items ih =>
    rw [bare_list, splice_list, splice_list, flatten_eq, flatten_eq, List.flatMap_map, List.map_flatMap,
      List.flatMap_congr ih]
  | entity e _ _ => rfl

lemma Node.flatten_map_bare (items : List Node) : flatten (items.map bare) = (flatten items).map bare := by
  rw [← splice_list, ← splice_list, ← bare_list, splice_bare]

lemma Entity.adopt_bare (e : Entity) : e.bare.adopt around = (e.adopt around).bare := by
  rw [bare_eq, bare_eq]
  unfold adopt
  split
  · rfl
  · split <;> rfl

lemma Entity.aroundContent_bare (e : Entity) : e.bare.aroundContent around = e.aroundContent around := by
  rw [bare_eq]
  rfl

lemma Node.placed_bare (n : Node) (around : Ambient) : n.bare.placed true around = (n.placed true around).bare := by
  induction n using Node.flatInduction generalizing around with
  | leaf n hn => cases n <;> first | rfl | cases hn
  | list items ih =>
    rw [bare_list, placed_list, flatten_map_bare, placed_list, bare_list, List.map_map, List.map_map]
    exact congrArg Node.list (List.map_congr_left fun n hn => ih n hn around)
  | entity e hcontent =>
    have hinside : (e.bare.content.map (placed true ((e.adopt around).aroundContent around))) =
        (e.content.map (placed true ((e.adopt around).aroundContent around))).map bare := by
      rw [Entity.bare_eq, Option.map_map, Option.map_map]
      exact Option.map_congr fun c hc => hcontent c hc _
    rw [bare, placed, placed, bare, Entity.placed_deep, Entity.placed_deep, Entity.adopt_bare,
      Entity.aroundContent_bare, hinside, Entity.bare_eq, Entity.bare_eq]

lemma Node.entities_bare (n : Node) : n.bare.entities true = n.entities true := by
  induction n using Node.induction with
  | leaf n hn => cases n <;> first | rfl | cases hn
  | list items ih =>
    rw [bare_list, entities, entities, entitiesOfItems_eq, entitiesOfItems_eq, List.map_map]
    exact congrArg List.sum (List.map_congr_left ih)
  | entity e hcontent _ =>
    have hinside : e.bare.content.map (entities true) = e.content.map (entities true) := by
      rw [Entity.bare_eq, Option.map_map]
      exact Option.map_congr hcontent
    rw [bare, entities, entities, Entity.entities_eq, Entity.entities_eq, hinside]

end Bare

section Markup

variable {o : Options} {around : Ambient}

/-- Every element of the tree names its block, and nothing in it has a hook. -/
def Node.Owned (n : Node) : Prop :=
  ∀ p e, n.at? p = some (.entity e) → e.hook = none ∧ (e.elem.isSome = true → e.block.isSome = true)

lemma Node.Owned.of_all {n : Node} (h : n.All fun e => e.hook = none ∧ (e.elem.isSome = true → e.block.isSome = true)) :
    n.Owned := by
  intro p e he
  exact (Entity.all_iff.mp (h.at? he)).1

lemma Node.Owned.at? {n m : Node} {p : Path} (h : n.Owned) (hm : n.at? p = some m) : m.Owned := by
  intro q e he
  exact h (p ++ q) e (by rw [at?_append, hm, Option.bind_some, he])

lemma Node.Owned.content {e : Entity} {c : Node} (h : (Node.entity e).Owned) (hc : e.content = some c) : c.Owned :=
  h.at? (p := [.content]) (by rw [Node.at?, hc]; rfl)

lemma Node.Owned.flatten {items : List Node} (h : (Node.list items).Owned) : ∀ m ∈ Node.flatten items, m.Owned := by
  intro m hm
  rw [← splice_list] at hm
  obtain ⟨p, hp⟩ := at?_of_mem_splice hm
  exact h.at? hp

lemma Entity.shownMods_adopt (e : Entity) (around : Ambient) : (e.adopt around).shownMods = e.shownMods := by
  cases helem : e.elem with
  | none => cases hblock : e.block <;> simp [adopt, shownMods, helem, hblock]
  | some elem => cases hmods : e.elemMods <;> simp [adopt, shownMods, helem, hmods]

lemma Entity.alike_adopt {e : Entity} (h : e.elem.isSome = true → e.block.isSome = true) (around : Ambient) :
    e.Alike o id (e.adopt around) := by
  have hblock : (e.adopt around).block = e.block := by
    cases helem : e.elem.isSome with
    | false => exact block_adopt_of_plain helem
    | true =>
      obtain ⟨block, hblock⟩ := Option.isSome_iff_exists.mp (h helem)
      rw [block_adopt_of_elem helem, hblock, Option.some_or]
  have hmods := e.shownMods_adopt around
  rw [adopt_eq, hblock] at hmods ⊢
  constructor
  case shownMods => exact hmods
  case mixins => exact (List.map_id _).symm
  all_goals rfl

lemma Node.markup_placed {n : Node} (h : n.Owned) (around : Ambient) : (n.placed true around).markup o = n.markup o := by
  induction n using Node.flatInduction generalizing around with
  | leaf n hn => rw [placed_of_leaf hn]
  | list items ih =>
    rw [← markup_splice o (list items), splice_list, placed_list, markup_list, List.map_map]
    exact congrArg String.join (List.map_congr_left fun n hn => ih n hn (h.flatten n hn) around)
  | entity e hcontent =>
    obtain ⟨hhook, helem⟩ := h [] e rfl
    have hhook' : (e.placed true around).hook = none := by
      rw [Entity.placed_deep, Entity.adopt_eq]
      exact hhook
    have hinside : (e.placed true around).content.map (fun c => c.markup o) = e.content.map fun c => c.markup o := by
      rw [Entity.placed_deep, Option.map_map]
      exact Option.map_congr fun c hc => hcontent c hc (h.content hc) _
    rw [placed, markup_entity o _ hhook', markup_entity o e hhook, hinside]
    have hwrap : ∀ content, (e.placed true around).wrap o content = (e.adopt around).wrap o content := by
      rw [Entity.placed_deep]
      exact fun _ => rfl
    rw [hwrap]
    exact (Entity.alike_adopt helem around).wrap (fun m => ⟨rfl, rfl, rfl, rfl⟩) _

end Markup

namespace Engine

def ExpandsTo (engine : Engine) (tree n : Node) : Prop :=
  (∃ fuel s, engine.expand fuel tree none true {} = some s) ∧
  ∀ fuel s, engine.expand fuel tree none true {} = some s → s.result = .ok n

section Ruleless

variable {engine : Engine} (hindex : engine.index = {}) {tree : Node}
include hindex

lemma expandsTo_placed (hfew : engine.options.detectLoops = true → tree.entities true ≤ totalLimit) :
    engine.ExpandsTo tree (tree.placed true {}) :=
  ⟨exists_expand hindex tree none true {}, fun _ _ h => result_of_expand hindex h hfew⟩

lemma isError_iff {fuel : Nat} {s : State} (h : engine.expand fuel tree none true {} = some s) :
    (∃ err, s.result = .error err) ↔ engine.options.detectLoops = true ∧ totalLimit < tree.entities true := by
  simp only [State.result_eq_error, ← isSome_error hindex h, Option.ne_none_iff_exists']

lemma regular_placed {nulls : Prop} (h : tree.Regular nulls)
    (hfew : engine.options.detectLoops = true → tree.entities true ≤ totalLimit) :
    (tree.placed true {}).Regular nulls := by
  obtain ⟨⟨fuel, s, hs⟩, hresult⟩ := expandsTo_placed hindex hfew
  rw [← (State.result_eq_ok.mp (hresult fuel s hs)).2]
  have hdraws : engine.setting.Draws nulls := not_mem_rules hindex _
  exact regular_expand hdraws hs h nofun

end Ruleless

/-- With no rules, an expansion ends, and fails only where loop detection finds too many entities. What it gives is not
changed by a second one, nor is what is read back of it, which for a tree that was itself read is all of it. Nor is the
markup changed, where every element names its block. -/
theorem expand_settles (engine : Engine) (hsound : engine.Sound) (hrules : engine.rules = []) (tree : Node) :
    (∃ fuel s, engine.expand fuel tree none true {} = some s) ∧
    ∀ fuel s, engine.expand fuel tree none true {} = some s →
      ((∃ err, s.result = .error err) ↔ engine.options.detectLoops = true ∧ totalLimit < tree.entities true) ∧
      ∀ n, s.result = .ok n →
        engine.ExpandsTo n n ∧
        (∀ nulls, tree.Regular nulls →
          Node.ofJson n.toJson = n.bare ∧ engine.ExpandsTo (.ofJson n.toJson) (.ofJson n.toJson)) ∧
        (∀ v, tree = .ofJson v → Node.ofJson n.toJson = n) ∧
        (tree.Owned → ∃ counts, engine.render fuel tree = some (.ok ⟨engine.markup tree, counts⟩)) := by
  have hindex := hsound.index_of_rules hrules
  refine ⟨exists_expand hindex tree none true {}, fun fuel s hs => ⟨isError_iff hindex hs, fun n hn => ?_⟩⟩
  have hfew : engine.options.detectLoops = true → tree.entities true ≤ totalLimit := by
    intro hloops
    by_contra hmany
    obtain ⟨err, herr⟩ := (isError_iff hindex hs).mpr ⟨hloops, Nat.not_le.mp hmany⟩
    cases herr.symm.trans hn
  obtain rfl := ok_of_expand hindex hs hn
  have hfew' : engine.options.detectLoops = true → (tree.placed true {}).entities true ≤ totalLimit := by
    rwa [Node.entities_placed]
  have hback : ∀ nulls, tree.Regular nulls → Node.ofJson (tree.placed true {}).toJson = (tree.placed true {}).bare :=
    fun nulls h => Node.ofJson_toJson (regular_placed hindex h hfew)
  refine ⟨?_, fun nulls h => ⟨hback nulls h, ?_⟩, ?_, fun howned => ?_⟩
  · have hagain := expandsTo_placed hindex hfew'
    rwa [Node.placed_placed] at hagain
  -- What JSON leaves out has no say in where things are placed, so what is read back is in its place too.
  · have hagain : engine.ExpandsTo (tree.placed true {}).bare _ := expandsTo_placed hindex (by rwa [Node.entities_bare])
    rwa [Node.placed_bare, Node.placed_placed, ← hback nulls h] at hagain
  · rintro v rfl
    rw [hback False (Node.regular_ofJson False v), ← Node.placed_bare, Node.bare_ofJson]
  · have hreport : engine.report s = .ok ⟨engine.markup (tree.placed true {}), s.counts engine.rules⟩ := by
      rw [report, hn]
      rfl
    refine ⟨s.counts engine.rules, ?_⟩
    rw [render, hs, Option.map_some, hreport, markup, markup, Node.markup_placed howned]

end Engine

def shelved : Json := .object
  [("block", .string "a"), ("mods", .object [("m", .string "x")]), ("content", .array
    [.array [.object [("block", .string "a"), ("elem", .string "e"), ("mods", .object [("k", .string "y")])]], .null])]

theorem expand_settles_shelved : ∃ s n,
    Engine.expand {} 5 (.ofJson shelved) none true {} = some s ∧ s.result = .ok n ∧
    ((n.at? [.content, .item 0]).bind Node.entity?).bind Entity.elemMods = some [("k", .string "y")] ∧
    Engine.ExpandsTo {} n n ∧ Engine.ExpandsTo {} (.ofJson n.toJson) (.ofJson n.toJson) ∧ Node.ofJson n.toJson = n ∧
    ∃ counts, Engine.render {} 5 (.ofJson shelved) = some (.ok ⟨Engine.markup {} (.ofJson shelved), counts⟩) := by
  obtain ⟨s, hs, he, hmoved⟩ : ∃ s, Engine.expand {} 5 (.ofJson shelved) none true {} = some s ∧ s.run.error = none ∧
      ((s.root.at? [.content, .item 0]).bind Node.entity?).bind Entity.elemMods = some [("k", .string "y")] :=
    ⟨_, rfl, rfl, rfl⟩
  have hn := State.result_eq_ok.mpr ⟨he, rfl⟩
  have howned : (Node.ofJson shelved).Owned :=
    .of_all ⟨⟨rfl, fun h => by cases h⟩, ⟨⟨⟨⟨rfl, fun _ => rfl⟩, trivial, trivial⟩, trivial⟩, trivial, trivial⟩, trivial⟩
  obtain ⟨_, hall⟩ := Engine.expand_settles {} (.of_unbuilt rfl) rfl (.ofJson shelved)
  obtain ⟨_, hok⟩ := hall 5 s hs
  obtain ⟨hagain, hback, hread, hrender⟩ := hok s.root hn
  exact ⟨s, s.root, hs, hn, hmoved, hagain, (hback False (Node.regular_ofJson _ _)).2, hread _ rfl, hrender howned⟩

def crowd : Node := .list (List.replicate 1001 (.entity { block := some "a" }))

/-- Loop detection fails on many blocks, none of which loops; and a block with an empty name, which no JSON gives, is
none in the JSON. -/
theorem crowd_fails :
    (crowd.Owned ∧ ∃ fuel err, Engine.render { options := { detectLoops := true } } fuel crowd = some (.error err)) ∧
    ∃ s, Engine.expand {} 3 (.entity { block := some "" }) none true {} = some s ∧ s.run.error = none ∧
      s.root.entity?.bind Entity.block = some "" ∧ (Node.ofJson s.root.toJson).entity?.bind Entity.block = none := by
  refine ⟨⟨.of_all (Node.all_list.mpr fun n hn => ?_), ?_⟩, _, rfl, rfl, rfl, rfl⟩
  · obtain rfl := List.eq_of_mem_replicate hn
    exact ⟨⟨rfl, nofun⟩, trivial, trivial⟩
  · let engine : Engine := { options := { detectLoops := true } }
    have hindex : engine.index = {} := Engine.Sound.index_of_rules (.of_unbuilt rfl) rfl
    have hentities : crowd.entities true = 1001 := by
      rw [crowd, Node.entities, Node.entitiesOfItems_eq, List.map_replicate, List.sum_replicate]
      rfl
    obtain ⟨fuel, s, hs⟩ := engine.exists_expand hindex crowd none true {}
    obtain ⟨err, herr⟩ := (engine.isError_iff hindex hs).mpr ⟨rfl, by rw [hentities]; decide⟩
    refine ⟨fuel, err, ?_⟩
    rw [Engine.render, hs, Option.map_some, Engine.report, herr]
    rfl

end Bemjson
