import Bemjson.Proofs.DepthFirst.Recursion
import Mathlib.Data.List.Forall2

/-! Writing what has been expanded into a tree, at places that do not meet. -/

namespace Bemjson

namespace Node

def patch (n : Node) (patches : List (Path × Node)) : Node := patches.foldl (fun n p => n.setAt p.2 p.1) n

@[simp]
lemma patch_nil (n : Node) : n.patch [] = n := rfl

@[simp]
lemma patch_cons (n : Node) (p : Path × Node) (ps : List (Path × Node)) :
    n.patch (p :: ps) = (n.setAt p.2 p.1).patch ps := rfl

lemma patch_append (n : Node) (ps qs : List (Path × Node)) : n.patch (ps ++ qs) = (n.patch ps).patch qs :=
  List.foldl_append

lemma setAt_patch (n m : Node) (q : Path) {ps : List (Path × Node)} (h : ∀ p ∈ ps, q.Apart p.1) :
    (n.setAt m q).patch ps = (n.patch ps).setAt m q := by
  induction ps generalizing n with
  | nil => rfl
  | cons p ps ih =>
    rw [patch_cons, patch_cons, setAt_comm n m p.2 (h p List.mem_cons_self)]
    exact ih (n.setAt p.2 p.1) fun p hp => h p (List.mem_cons_of_mem _ hp)

lemma patch_comm (n : Node) {ps qs : List (Path × Node)} (h : ∀ p ∈ ps, ∀ q ∈ qs, p.1.Apart q.1) :
    (n.patch ps).patch qs = (n.patch qs).patch ps := by
  induction ps generalizing n with
  | nil => rfl
  | cons p ps ih =>
    have hp := setAt_patch n p.2 p.1 (h p List.mem_cons_self)
    rw [patch_cons, patch_cons, ih _ fun p hp => h p (List.mem_cons_of_mem _ hp), hp]

def lower (q : Path) (p : Path × Node) : Path × Node := (q ++ p.1, p.2)

lemma setAt_patch_lower (n m : Node) (q : Path) (ps : List (Path × Node)) :
    (n.setAt m q).patch (ps.map (lower q)) = n.setAt (m.patch ps) q := by
  induction ps generalizing m with
  | nil => rfl
  | cons p ps ih =>
    rw [List.map_cons, patch_cons, lower, setAt_setAt_append]
    exact ih (m.setAt p.2 p.1)

end Node

section Each

variable (expand : Slot → Node → Option Node)

def expandEach : List Slot → Node → Option Node
  | [], n => some n
  | kid :: kids, n => ((n.at? kid.path).bind (expand kid)).bind fun m => expandEach kids (n.setAt m kid.path)

variable {expand}

def Yields (expand : Slot → Node → Option Node) (n : Node) (kid : Slot) (p : Path × Node) : Prop :=
  p.1 = kid.path ∧ (n.at? kid.path).bind (expand kid) = some p.2

lemma Yields.of_apart {n m : Node} {q : Path} {kid : Slot} (h : q.Apart kid.path) (p : Path × Node) :
    Yields expand (n.setAt m q) kid p ↔ Yields expand n kid p := by
  rw [Yields, Yields, Node.at?_setAt_of_apart n m h]

lemma forall₂_congr_left {α β : Type} {R S : α → β → Prop} {as : List α} (h : ∀ a ∈ as, ∀ b, R a b ↔ S a b)
    (bs : List β) : List.Forall₂ R as bs ↔ List.Forall₂ S as bs := by
  induction as generalizing bs with
  | nil => rw [List.forall₂_nil_left_iff, List.forall₂_nil_left_iff]
  | cons a as ih =>
    cases bs with
    | nil => simp
    | cons b bs =>
      rw [List.forall₂_cons, List.forall₂_cons, h a List.mem_cons_self b,
        ih fun a ha => h a (List.mem_cons_of_mem _ ha)]

lemma expandEach_iff {kids : List Slot} {n r : Node} (h : (kids.map Slot.path).Pairwise Path.Apart) :
    expandEach expand kids n = some r ↔ ∃ ps, List.Forall₂ (Yields expand n) kids ps ∧ n.patch ps = r := by
  induction kids generalizing n with
  | nil =>
    constructor
    · intro hr
      exact ⟨[], List.Forall₂.nil, Option.some.inj hr⟩
    · rintro ⟨ps, hps, rfl⟩
      cases hps
      rfl
  | cons kid kids ih =>
    rw [List.map_cons, List.pairwise_cons] at h
    have hapart (m : Node) : ∀ k ∈ kids, ∀ p, Yields expand (n.setAt m kid.path) k p ↔ Yields expand n k p :=
      fun k hk => Yields.of_apart (h.1 k.path (List.mem_map_of_mem hk))
    constructor
    · intro hr
      obtain ⟨m, hm, hrest⟩ := Option.bind_eq_some_iff.mp hr
      obtain ⟨ps, hps, hpatch⟩ := (ih h.2).mp hrest
      exact ⟨(kid.path, m) :: ps, List.Forall₂.cons ⟨rfl, hm⟩ ((forall₂_congr_left (hapart m) ps).mp hps), hpatch⟩
    · rintro ⟨_, ⟨⟩ | ⟨⟨hpath, hm⟩, hps⟩, rfl⟩
      rename_i p ps
      refine Option.bind_eq_some_iff.mpr ⟨p.2, hm, (ih h.2).mpr ⟨ps, (forall₂_congr_left (hapart p.2) ps).mpr hps, ?_⟩⟩
      rw [← hpath]
      rfl

end Each

def Spot.kid (spot : Spot) (kid : Slot) : Spot :=
  { around := kid.around, position := kid.position, siblings := kid.siblings, kept := kid.kept
    above := spot.kept :: spot.above }

section Sprouts

variable (expand : Spot → Node → Option Node) (spot : Spot)

def placesFrom (k : Nat) (items : List Node) : List Nat :=
  ((items.zipIdx k).filter fun p => p.1.isStructured).map Prod.snd

lemma placesFrom_cons (k : Nat) (n : Node) (ns : List Node) :
    placesFrom k (n :: ns) = if n.isStructured then k :: placesFrom (k + 1) ns else placesFrom (k + 1) ns := by
  simp only [placesFrom, List.zipIdx_cons, List.filter_cons]
  split <;> rfl

lemma length_placesFrom (k : Nat) (items : List Node) : (placesFrom k items).length = items.countP Node.isStructured := by
  induction items generalizing k with
  | nil => rfl
  | cons n ns ih =>
    rw [placesFrom_cons, List.countP_cons]
    split <;> simp [ih]

def itemSlot (around : Ambient) (siblings : Nat) (p : Nat × Nat) : Slot :=
  { path := [.item p.1], parent := some 0, around, position := some (p.2 + 1), siblings }

lemma expandItems_eq_each (around : Ambient) (siblings position : Nat) (before ns : List Node) :
    (expandItems expand (spot.below around) siblings (position + 1) ns).map (fun out => Node.list (before ++ out)) =
      expandEach (fun kid => expand (spot.kid kid))
        (((placesFrom before.length ns).zipIdx position).map (itemSlot around siblings)) (.list (before ++ ns)) := by
  induction ns generalizing before position with
  | nil => rfl
  | cons n ns ih =>
    have hlen (m : Node) : before.length + 1 = (before ++ [m]).length := by simp
    have happend (m : Node) (ms : List Node) : before ++ m :: ms = (before ++ [m]) ++ ms := by simp
    rw [placesFrom_cons, expandItems]
    split
    · rw [List.zipIdx_cons, List.map_cons, expandEach]
      have hat : (Node.list (before ++ n :: ns)).at? (itemSlot around siblings (before.length, position)).path = some n := by
        simp [itemSlot, Node.at?]
      have hset (m : Node) : (Node.list (before ++ n :: ns)).setAt m
          (itemSlot around siblings (before.length, position)).path = .list ((before ++ [m]) ++ ns) := by
        have hm : (before ++ n :: ns).modify before.length (fun _ => m) = before ++ m :: ns := by
          rw [List.modify_eq_take_cons_drop (by simp)]
          simp
        simp [itemSlot, Node.setAt, hm]
      rw [hat, Option.bind_some, Option.map_bind]
      congr 1
      funext m
      rw [Function.comp_apply, Option.map_map, hset, hlen m, ← ih]
      congr 1
      funext ms
      exact congrArg Node.list (happend m ms)
    · rw [Option.map_map, happend n ns, hlen n, ← ih]
      congr 1
      funext ms
      exact congrArg Node.list (happend n ms)

lemma itemSlots_eq_placesFrom (around : Ambient) (items : List Node) :
    itemSlots 0 [] around items =
      ((placesFrom 0 items).zipIdx 0).map (itemSlot around (items.countP Node.isStructured)) := by
  rw [← length_placesFrom 0 items]
  rfl

lemma expandList_eq_each (around : Ambient) (items : List Node) :
    (expandList expand (spot.below around) items).map Node.list =
      expandEach (fun kid => expand (spot.kid kid)) (itemSlots 0 [] around (Node.flatten items))
        (.list (Node.flatten items)) := by
  have h := expandItems_eq_each expand spot around ((Node.flatten items).countP Node.isStructured) 0 [] (Node.flatten items)
  rw [itemSlots_eq_placesFrom]
  exact h

lemma expandEach_content (e : Entity) (ex : Slot → Node → Option Node) (hex : ∀ kid, ex (kid.under 0 [.content]) = ex kid)
    (kids : List Slot) (n : Node) :
    expandEach ex (kids.map (Slot.under 0 [.content])) (.entity { e with content := some n }) =
      (expandEach ex kids n).map fun n => .entity { e with content := some n } := by
  induction kids generalizing n with
  | nil => rfl
  | cons kid kids ih =>
    rw [List.map_cons, expandEach, expandEach, Option.map_bind, hex]
    congr 1
    funext m
    exact ih (n.setAt m kid.path)

lemma expandContent_eq_each (around : Ambient) (e : Entity) :
    (match e.content with
      | none => some (Node.entity e)
      | some c => (expandContent expand (spot.below (e.aroundContent around)) c).map fun c =>
        .entity { e with content := some c }) =
      expandEach (fun kid => expand (spot.kid kid)) ((Node.entity e).sprout true around).2
        ((Node.entity e).sprout true around).1 := by
  have hself : ∀ c, e.content = some c → { e with content := some c } = e := by
    intro c hc
    cases e
    cases hc
    rfl
  cases hc : e.content with
  | none => simp only [Node.sprout, hc, expandEach]
  | some c =>
    cases c with
    | list items =>
      simp only [Node.sprout, hc]
      have hu := itemSlots_under 0 [.content] [] (e.aroundContent around) (Node.flatten items)
      rw [List.append_nil] at hu
      rw [hu, expandEach_content e _ (fun _ => rfl), ← expandList_eq_each, Option.map_map]
      simp only [expandContent, Option.map_map]
    | entity c =>
      simp only [Node.sprout, hc, expandContent, expandEach]
      have hat : (Node.entity e).at? [.content] = some (.entity c) := by simp [Node.at?, hc]
      have hset (m : Node) : (Node.entity e).setAt m [.content] = .entity { e with content := some m } := by
        simp [Node.setAt, hc]
      simp only [hat, hset, Option.bind_some]
      exact Option.map_eq_bind
    | _ => simp only [Node.sprout, hc, expandContent, expandEach, Option.map_some, hself _ hc]

end Sprouts

section Node

variable {env : Setting} {nested : Nested} {deep : Bool} {fuel : Nat} {spot : Spot}

lemma expandNode_plain {n : Node} (hn : n.entity? = none) :
    expandNode env nested deep (fuel + 1) spot n =
      expandEach (fun kid => expandNode env nested deep fuel (spot.kid kid)) (n.sprout deep spot.around).2
        (n.sprout deep spot.around).1 := by
  cases n with
  | list items => exact expandList_eq_each _ spot spot.around items
  | entity e => cases hn
  | _ => rfl

lemma expandNode_replaced {e : Entity} {f : Focus}
    (hj : judge env nested (spot.focus (e.adopt spot.around)) = some (.replaced, f)) :
    expandNode env nested deep (fuel + 1) spot (.entity e) =
      expandNode env nested deep fuel (spot.keeping f ((e.adopt spot.around).aroundContent spot.around)) f.node := by
  simp only [expandNode, hj, Option.bind_some]

lemma expandNode_kept {e d : Entity} {f : Focus}
    (hj : judge env nested (spot.focus (e.adopt spot.around)) = some (.kept, f)) (hd : f.node = .entity d) :
    expandNode env nested deep (fuel + 1) spot (.entity e) =
      expandEach (fun kid => expandNode env nested deep fuel
          ((spot.keeping f ((e.adopt spot.around).aroundContent spot.around)).kid kid))
        ((Node.entity d).sprout deep ((e.adopt spot.around).aroundContent spot.around)).2
        ((Node.entity d).sprout deep ((e.adopt spot.around).aroundContent spot.around)).1 := by
  simp only [expandNode, hj, Option.bind_some, hd]
  cases deep with
  | false => rfl
  | true => exact expandContent_eq_each _ _ _ d

end Node

end Bemjson
