import Bemjson.Expansion.Walk
import Bemjson.Proofs.Paths

/-! The slots for what is structured right below a node: where they stand, and that they miss nothing. -/

namespace Bemjson

def Slot.under (parent : Nat) (path : Path) (kid : Slot) : Slot :=
  { kid with path := path ++ kid.path, parent := some parent }

def Node.sprout (deep : Bool) (around : Ambient) : Node → Node × List Slot
  | .list items => (.list (flatten items), itemSlots 0 [] around (flatten items))
  | .entity e =>
    match deep, e.content with
    | true, some (.list items) =>
      (.entity { e with content := some (.list (flatten items)) },
        itemSlots 0 [.content] (e.aroundContent around) (flatten items))
    | true, some (.entity _) => (.entity e, [{ path := [.content], around := e.aroundContent around }])
    | _, _ => (.entity e, [])
  | n => (n, [])

def Path.Visible (deep : Bool) (p : Path) : Prop := deep = true ∨ Step.content ∉ p

lemma Path.Visible.append {deep : Bool} {p q : Path} (hp : p.Visible deep) (hq : q.Visible deep) :
    Path.Visible deep (p ++ q) := by
  rcases hp with hd | hp
  · exact Or.inl hd
  · refine hq.imp_right fun hq h => ?_
    exact (List.mem_append.mp h).elim hp hq

lemma Path.Visible.of_append {deep : Bool} {p q : Path} (h : Path.Visible deep (p ++ q)) : q.Visible deep :=
  h.imp_right fun h hq => h (List.mem_append_right p hq)

section Flat

mutual

lemma isList_splice (n : Node) (rest : List Node) (hr : ∀ m ∈ rest, m.isList = false) :
    ∀ m ∈ n.splice rest, m.isList = false := by
  cases n with
  | list items => exact isList_spliceAll items rest hr
  | _ =>
    intro m hm
    rcases List.mem_cons.mp hm with rfl | hm
    · rfl
    · exact hr m hm

lemma isList_spliceAll (ns rest : List Node) (hr : ∀ m ∈ rest, m.isList = false) :
    ∀ m ∈ Node.spliceAll ns rest, m.isList = false := by
  cases ns with
  | nil => exact hr
  | cons n ns => exact isList_splice n _ (isList_spliceAll ns rest hr)

end

lemma isList_flatten (items : List Node) : ∀ m ∈ Node.flatten items, m.isList = false := by
  unfold Node.flatten
  split
  · exact isList_spliceAll items [] (by simp)
  · rename_i h
    intro m hm
    simp only [List.any_eq_true, not_exists, not_and, Bool.not_eq_true] at h
    exact h m hm

lemma entity_of_mem_flatten {items : List Node} {m : Node} (hm : m ∈ Node.flatten items) (hs : m.isStructured) :
    ∃ e, m = .entity e := by
  have hl := isList_flatten items m hm
  cases m with
  | entity e => exact ⟨e, rfl⟩
  | list items => cases hl
  | _ => cases hs

end Flat

section Items

def places (items : List Node) : List Nat := (items.zipIdx.filter fun p => p.1.isStructured).map Prod.snd

lemma itemSlots_eq (parent : Nat) (path : Path) (around : Ambient) (items : List Node) :
    itemSlots parent path around items = (places items).zipIdx.map fun p =>
      { path := path ++ [.item p.1], parent := some parent, around, position := some (p.2 + 1),
        siblings := (places items).length } := rfl

lemma mem_places {items : List Node} {i : Nat} : i ∈ places items ↔ ∃ n, items[i]? = some n ∧ n.isStructured := by
  simp only [places, List.mem_map, List.mem_filter, Prod.exists, exists_eq_right]
  constructor
  · rintro ⟨n, hn, hs⟩
    exact ⟨n, List.mem_zipIdx_iff_getElem?.mp hn, hs⟩
  · rintro ⟨n, hn, hs⟩
    exact ⟨n, List.mem_zipIdx_iff_getElem?.mpr hn, hs⟩

lemma places_sorted (items : List Node) : (places items).Pairwise (· < ·) := by
  have hs : List.Sublist (places items) (items.zipIdx.map Prod.snd) := List.filter_sublist.map _
  rw [List.zipIdx_map_snd] at hs
  exact List.Pairwise.sublist hs (List.pairwise_lt_range' 1)

lemma places_nodup (items : List Node) : (places items).Nodup := (places_sorted items).imp Nat.ne_of_lt

lemma itemSlots_under (id : Nat) (p q : Path) (around : Ambient) (items : List Node) :
    itemSlots id (p ++ q) around items = (itemSlots 0 q around items).map (Slot.under id p) := by
  simp only [itemSlots_eq, List.map_map, Function.comp_def, Slot.under, List.append_assoc]

lemma map_path_itemSlots (parent : Nat) (path : Path) (around : Ambient) (items : List Node) :
    (itemSlots parent path around items).map Slot.path = (places items).map fun i => path ++ [.item i] := by
  rw [itemSlots_eq, List.map_map]
  have hz := congrArg (List.map fun i => path ++ [Step.item i]) (List.zipIdx_map_fst 0 (places items))
  rwa [List.map_map] at hz

lemma mem_itemSlots {parent : Nat} {path : Path} {around : Ambient} {items : List Node} {k : Slot}
    (hk : k ∈ itemSlots parent path around items) : ∃ i ∈ places items, k.path = path ++ [.item i] := by
  have hm := List.mem_map_of_mem (f := Slot.path) hk
  rw [map_path_itemSlots] at hm
  obtain ⟨i, hi, he⟩ := List.mem_map.mp hm
  exact ⟨i, hi, he.symm⟩

lemma exists_itemSlots (parent : Nat) (path : Path) (around : Ambient) {items : List Node} {i : Nat}
    (hi : i ∈ places items) : ∃ k ∈ itemSlots parent path around items, k.path = path ++ [.item i] := by
  have hm : path ++ [Step.item i] ∈ (itemSlots parent path around items).map Slot.path := by
    rw [map_path_itemSlots]
    exact List.mem_map_of_mem hi
  obtain ⟨k, hk, he⟩ := List.mem_map.mp hm
  exact ⟨k, hk, he⟩

lemma apart_items (path : Path) {i j : Nat} (h : i ≠ j) : Path.Apart (path ++ [.item i]) (path ++ [.item j]) := by
  apply Path.Apart.append
  constructor <;> simp [List.cons_prefix_cons, h, Ne.symm h]

lemma itemSlots_apart (parent : Nat) (path : Path) (around : Ambient) (items : List Node) :
    ((itemSlots parent path around items).map Slot.path).Pairwise Path.Apart := by
  rw [map_path_itemSlots, List.pairwise_map]
  exact (places_nodup items).imp fun h => apart_items path h

end Items

structure Sprouts (deep : Bool) (n : Node) (kids : List Slot) : Prop where
  found : ∀ k ∈ kids, ∃ e, n.at? k.path = some (.entity e)
  below : ∀ k ∈ kids, k.path ≠ []
  apart : (kids.map Slot.path).Pairwise Path.Apart
  visible : ∀ k ∈ kids, k.path.Visible deep
  covers : ∀ p e, n.at? p = some (.entity e) → p.Visible deep → p ≠ [] → ∃ k ∈ kids, k.path <+: p

namespace Sprouts

lemma of_items (deep : Bool) (around : Ambient) (items : List Node) :
    Sprouts deep (.list (Node.flatten items)) (itemSlots 0 [] around (Node.flatten items)) where
  found k hk := by
    obtain ⟨i, hi, hp⟩ := mem_itemSlots hk
    obtain ⟨m, hm, hs⟩ := mem_places.mp hi
    obtain ⟨e, rfl⟩ := entity_of_mem_flatten (List.mem_of_getElem? hm) hs
    exact ⟨e, by simp [hp, Node.at?, hm]⟩
  below k hk := by
    obtain ⟨i, _, hp⟩ := mem_itemSlots hk
    simp [hp]
  apart := itemSlots_apart _ _ _ _
  visible k hk := by
    obtain ⟨i, _, hp⟩ := mem_itemSlots hk
    exact Or.inr (by simp [hp])
  covers p e hp _ hne := by
    obtain ⟨step, p, rfl⟩ := List.exists_cons_of_ne_nil hne
    cases step with
    | content => cases hp
    | item i =>
      obtain ⟨m, hm, he⟩ := Option.bind_eq_some_iff.mp hp
      have hs : m.isStructured := by
        cases hs : m.isStructured with
        | true => rfl
        | false =>
          obtain ⟨_, rfl⟩ := Node.at?_of_simple hs he
          cases hs
      obtain ⟨k, hk, hkp⟩ := exists_itemSlots 0 [] around (mem_places.mpr ⟨m, hm, hs⟩)
      exact ⟨k, hk, by simp [hkp, List.cons_prefix_cons]⟩

lemma of_content_items (e : Entity) (around : Ambient) (items : List Node) :
    Sprouts true (.entity { e with content := some (.list (Node.flatten items)) })
      (itemSlots 0 [.content] around (Node.flatten items)) where
  found k hk := by
    obtain ⟨i, hi, hp⟩ := mem_itemSlots hk
    obtain ⟨m, hm, hs⟩ := mem_places.mp hi
    obtain ⟨d, rfl⟩ := entity_of_mem_flatten (List.mem_of_getElem? hm) hs
    exact ⟨d, by simp [hp, Node.at?, hm]⟩
  below k hk := by
    obtain ⟨i, _, hp⟩ := mem_itemSlots hk
    simp [hp]
  apart := itemSlots_apart _ _ _ _
  visible _ _ := Or.inl rfl
  covers p d hp hv hne := by
    obtain ⟨step, p, rfl⟩ := List.exists_cons_of_ne_nil hne
    cases step with
    | item i => cases hp
    | content =>
      have hl : (Node.list (Node.flatten items)).at? p = some (.entity d) := hp
      have hpne : p ≠ [] := by
        rintro rfl
        cases hl
      obtain ⟨k, hk, hpre⟩ := (of_items true around items).covers p d hl (Or.inl rfl) hpne
      obtain ⟨i, hi, hkp⟩ := mem_itemSlots hk
      obtain ⟨k', hk', hkp'⟩ := exists_itemSlots 0 [.content] around hi
      refine ⟨k', hk', ?_⟩
      rw [hkp] at hpre
      rw [hkp']
      exact List.cons_prefix_cons.mpr ⟨rfl, hpre⟩

lemma of_content_entity (deep : Bool) (hd : deep = true) (e c : Entity) (around : Ambient)
    (hc : e.content = some (.entity c)) : Sprouts deep (.entity e) [{ path := [.content], around }] where
  found k hk := by
    obtain rfl := List.mem_singleton.mp hk
    exact ⟨c, by simp [Node.at?, hc]⟩
  below k hk := by
    obtain rfl := List.mem_singleton.mp hk
    simp
  apart := by simp
  visible _ _ := Or.inl hd
  covers p d hp _ hne := by
    obtain ⟨step, p, rfl⟩ := List.exists_cons_of_ne_nil hne
    cases step with
    | item i => cases hp
    | content => exact ⟨_, List.mem_singleton_self _, by simp [List.cons_prefix_cons]⟩

lemma nil_of {deep : Bool} {n : Node}
    (h : ∀ p e, n.at? p = some (.entity e) → p.Visible deep → p = []) : Sprouts deep n [] where
  found k hk := by cases hk
  below k hk := by cases hk
  apart := List.Pairwise.nil
  visible k hk := by cases hk
  covers p e hp hv hne := absurd (h p e hp hv) hne

lemma of_simple (deep : Bool) {n : Node} (h : n.isStructured = false) : Sprouts deep n [] := by
  apply nil_of
  intro p e hp _
  exact (Node.at?_of_simple h hp).1

lemma of_shallow (e : Entity) : Sprouts false (.entity e) [] := by
  apply nil_of
  intro p d hp hv
  cases p with
  | nil => rfl
  | cons step p =>
    cases step with
    | item i => cases hp
    | content => rcases hv with hv | hv <;> simp at hv

lemma of_simple_content (deep : Bool) (e : Entity) (h : ∀ c, e.content = some c → c.isStructured = false) :
    Sprouts deep (.entity e) [] := by
  apply nil_of
  intro p d hp hv
  cases p with
  | nil => rfl
  | cons step p =>
    cases step with
    | item i => cases hp
    | content =>
      obtain ⟨c, hc, hd⟩ := Option.bind_eq_some_iff.mp hp
      have hs := h c hc
      obtain ⟨_, rfl⟩ := Node.at?_of_simple hs hd
      cases hs

end Sprouts

lemma sprout_sprouts (deep : Bool) (around : Ambient) (n : Node) :
    Sprouts deep (n.sprout deep around).1 (n.sprout deep around).2 := by
  cases n with
  | list items => exact Sprouts.of_items deep around items
  | entity e =>
    cases deep with
    | false => exact Sprouts.of_shallow e
    | true =>
      simp only [Node.sprout]
      split
      · exact Sprouts.of_content_items e _ _
      · rename_i c _ hc
        exact Sprouts.of_content_entity true rfl e c _ hc
      · rename_i hl he
        apply Sprouts.of_simple_content
        intro c hc
        cases c with
        | list items => exact absurd hc (hl items rfl)
        | entity c => exact absurd hc (he c rfl)
        | _ => rfl
  | _ => exact Sprouts.of_simple deep rfl

lemma sprout_entity (deep : Bool) (around : Ambient) (e : Entity) :
    ∃ d, ((Node.entity e).sprout deep around).1 = .entity d ∧ d.shell = e.shell := by
  simp only [Node.sprout]
  split <;> exact ⟨_, rfl, rfl⟩

end Bemjson
