import Bemjson.Proofs.Sprout
import Bemjson.Proofs.Trees
import Mathlib.Algebra.Ring.Nat

/-! What becomes of a tree where no rule applies: every entity takes over what is around it, and lists are flat. -/

namespace Bemjson

mutual

/-- The tree with everything in its place; with `deep` off, contents are left alone. -/
def Node.placed (deep : Bool) (around : Ambient) : Node → Node
  | .list items => .list (Node.flatten (Node.placedItems deep around items))
  | .entity e => .entity (e.placed deep around)
  | n => n

def Node.placedItems (deep : Bool) (around : Ambient) : List Node → List Node
  | [] => []
  | n :: ns => n.placed deep around :: Node.placedItems deep around ns

def Entity.placed (deep : Bool) (around : Ambient) : Entity → Entity
  | e@{ content, .. } =>
    { e.adopt around with
      content := match deep, content with
        | true, some c => some (c.placed deep ((e.adopt around).aroundContent around))
        | _, c => c }

end

mutual

def Node.entities (deep : Bool) : Node → Nat
  | .list items => Node.entitiesOfItems deep items
  | .entity e => e.entities deep
  | _ => 0

def Node.entitiesOfItems (deep : Bool) : List Node → Nat
  | [] => 0
  | n :: ns => n.entities deep + Node.entitiesOfItems deep ns

def Entity.entities (deep : Bool) : Entity → Nat
  | { content, .. } =>
    1 + match deep, content with
      | true, some c => c.entities deep
      | _, _ => 0

end

section Adopt

variable {e : Entity} {around : Ambient}

lemma Entity.adopt_eq (e : Entity) (around : Ambient) : e.adopt around =
    { e with block := (e.adopt around).block, mods := (e.adopt around).mods, elemMods := (e.adopt around).elemMods } := by
  unfold adopt
  split
  · rfl
  · split
    · rfl
    · cases e
      rfl

lemma Entity.content_adopt (e : Entity) (around : Ambient) : (e.adopt around).content = e.content := by
  rw [adopt_eq]

lemma Entity.block_adopt_of_elem (h : e.elem.isSome) : (e.adopt around).block = e.block.or around.block := by
  simp [adopt, h]

lemma Entity.block_adopt_of_plain (h : e.elem.isSome = false) : (e.adopt around).block = e.block := by
  cases hb : e.block <;> simp [adopt, h, hb]

end Adopt

section Placed

variable {deep : Bool} {around : Ambient}

lemma Node.placedItems_eq (items : List Node) : placedItems deep around items = items.map (placed deep around) := by
  induction items with
  | nil => rfl
  | cons n ns ih => rw [placedItems, ih, List.map_cons]

lemma Node.entitiesOfItems_eq (items : List Node) : entitiesOfItems deep items = (items.map (entities deep)).sum := by
  induction items with
  | nil => rfl
  | cons n ns ih => rw [entitiesOfItems, ih, List.map_cons, List.sum_cons]

lemma Entity.with_content {e : Entity} {c : Option Node} (h : e.content = c) : { e with content := c } = e := by
  cases e
  cases h
  rfl

lemma Entity.placed_shallow (e : Entity) : e.placed false around = e.adopt around := by
  have hc := e.content_adopt around
  obtain ⟨_, _, _, _, _, _, _, content, _⟩ := e
  exact Entity.with_content hc

lemma Entity.placed_deep (e : Entity) : e.placed true around = { e.adopt around with
    content := e.content.map (Node.placed true ((e.adopt around).aroundContent around)) } := by
  obtain ⟨_, _, _, _, _, _, _, content, _⟩ := e
  cases content <;> rfl

lemma Entity.entities_eq (e : Entity) : e.entities true = 1 + (e.content.map (Node.entities true)).getD 0 := by
  obtain ⟨_, _, _, _, _, _, _, content, _⟩ := e
  cases content <;> rfl

lemma Node.isList_placed (n : Node) : (n.placed deep around).isList = n.isList := by
  cases n <;> rfl

lemma Node.placed_of_leaf {n : Node} (h : n.isStructured = false) : n.placed deep around = n := by
  cases n <;> first | rfl | cases h

lemma Node.splice_placed (n : Node) : (n.placed deep around).splice [] = (n.splice []).map (placed deep around) := by
  induction n using Node.induction with
  | leaf n hn =>
    rw [placed_of_leaf hn, splice_of_leaf hn, List.map_singleton, placed_of_leaf hn]
  | list items ih =>
    have hflat : ∀ m ∈ flatten (items.map (placed deep around)), m.splice [] = [m] :=
      fun m hm => splice_of_isList (isList_flatten _ m hm)
    rw [placed, placedItems_eq, splice_list, splice_list, flatten_eq (flatten _), List.flatMap_congr hflat,
      List.flatMap_singleton', flatten_eq, flatten_eq, List.flatMap_map, List.map_flatMap, List.flatMap_congr ih]
  | entity e _ _ => rw [placed, splice_of_isList rfl, splice_of_isList rfl, List.map_singleton, placed]

lemma Node.placed_list (items : List Node) :
    (list items).placed deep around = .list ((flatten items).map (placed deep around)) := by
  have hs : ((list items).placed deep around).splice [] = _ := splice_placed _
  rw [splice_list, placed, splice_list] at hs
  rw [placed, ← hs, flatten_of_isList (isList_flatten _)]

lemma Node.entities_splice (n : Node) : ((n.splice []).map (entities deep)).sum = n.entities deep := by
  induction n using Node.induction with
  | leaf n hn =>
    rw [splice_of_leaf hn, List.map_singleton, List.sum_singleton]
  | list items ih =>
    rw [entities, entitiesOfItems_eq, splice_list, flatten_eq, List.map_flatMap, List.flatMap_def, List.sum_flatten,
      List.map_map]
    exact congrArg List.sum (List.map_congr_left ih)
  | entity e _ _ => rw [splice_of_isList rfl, List.map_singleton, List.sum_singleton]

lemma Node.entities_list (items : List Node) : (list items).entities deep = ((flatten items).map (entities deep)).sum := by
  rw [← splice_list, entities_splice]

end Placed

section Idempotent

variable {deep : Bool} {around : Ambient}

lemma Entity.adopt_content (e : Entity) (c : Option Node) :
    adopt { e with content := c } around = { e.adopt around with content := c } := by
  unfold adopt
  split
  · rfl
  · split <;> rfl

lemma Entity.adopt_adopt (e : Entity) : (e.adopt around).adopt around = e.adopt around := by
  cases helem : e.elem with
  | some elem =>
    cases hblock : e.block <;> cases hmods : e.mods <;> cases helemMods : e.elemMods <;> cases around.mods <;>
      cases around.block <;> simp [adopt, helem, hblock, hmods, helemMods]
  | none =>
    cases hblock : e.block with
    | some block => simp [adopt, helem, hblock]
    | none => simp [adopt, helem, hblock]

lemma Entity.adopt_placed (e : Entity) :
    (e.placed true around).adopt around = { e.adopt around with content := (e.placed true around).content } := by
  rw [placed_deep, adopt_content, adopt_adopt]

lemma Node.placed_placed (n : Node) (around : Ambient) :
    (n.placed deep around).placed deep around = n.placed deep around := by
  induction n using Node.flatInduction generalizing around with
  | leaf n hn => rw [placed_of_leaf hn, placed_of_leaf hn]
  | list items ih =>
    have hflat : ∀ m ∈ (flatten items).map (placed deep around), m.isList = false := by
      intro m hm
      obtain ⟨n, hn, rfl⟩ := List.mem_map.mp hm
      rw [isList_placed]
      exact isList_flatten items n hn
    rw [placed_list, placed_list, flatten_of_isList hflat, List.map_map]
    exact congrArg Node.list (List.map_congr_left fun n hn => ih n hn around)
  | entity e hcontent =>
    rw [placed, placed]
    refine congrArg Node.entity ?_
    cases deep with
    | false => rw [Entity.placed_shallow, Entity.placed_shallow, Entity.adopt_adopt]
    | true =>
      rw [Entity.placed_deep (e.placed true around), Entity.adopt_placed, Entity.placed_deep, Option.map_map]
      have hinside : ∀ c ∈ e.content, (placed true ((e.adopt around).aroundContent around) ∘
          placed true ((e.adopt around).aroundContent around)) c = placed true ((e.adopt around).aroundContent around) c :=
        fun c hc => hcontent c hc _
      exact congrArg (fun c => { e.adopt around with content := c }) (Option.map_congr hinside)

lemma Entity.entities_shallow (e : Entity) : e.entities false = 1 := by
  obtain ⟨_, _, _, _, _, _, _, content, _⟩ := e
  cases content <;> rfl

lemma Node.entities_placed (n : Node) (around : Ambient) : (n.placed deep around).entities deep = n.entities deep := by
  induction n using Node.flatInduction generalizing around with
  | leaf n hn => rw [placed_of_leaf hn]
  | list items ih =>
    rw [placed_list, entities_list items, entities, entitiesOfItems_eq, List.map_map]
    exact congrArg List.sum (List.map_congr_left fun n hn => ih n hn around)
  | entity e hcontent =>
    rw [placed, entities, entities]
    cases deep with
    | false => rw [Entity.entities_shallow, Entity.entities_shallow]
    | true =>
      rw [Entity.entities_eq, Entity.entities_eq, Entity.placed_deep, Option.map_map]
      exact congrArg (fun x => 1 + x.getD 0) (Option.map_congr fun c hc => hcontent c hc _)

end Idempotent

end Bemjson
