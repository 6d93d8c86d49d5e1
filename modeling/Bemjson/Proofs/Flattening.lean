import Bemjson.Proofs.Chronicle.DocumentOrder
import Bemjson.Proofs.Markup.Alike
import Bemjson.Proofs.Sprout
import Bemjson.Proofs.Trees
import Mathlib.Algebra.Ring.Nat
import Mathlib.Logic.Relation

/-! The flat form of a list: how it is made with a stack, what is in it, and that mixes and markup cannot tell it from
the nested form. -/

namespace Bemjson

section Stack

/-- A list that is being made flat: what has been taken so far, and what is left of the lists that are open, the
innermost first. -/
structure Splicing where
  flat : List Node
  stack : List (List Node)

namespace Splicing

def start (items : List Node) : Splicing := ⟨[], [items]⟩

def step : Splicing → Option Splicing
  | ⟨_, []⟩ => none
  | ⟨flat, [] :: stack⟩ => some ⟨flat, stack⟩
  | ⟨flat, (.list items :: rest) :: stack⟩ => some ⟨flat, items :: rest :: stack⟩
  | ⟨flat, (n :: rest) :: stack⟩ => some ⟨flat ++ [n], rest :: stack⟩

abbrev Reaches : Splicing → Splicing → Prop := Relation.ReflTransGen fun s t => s.step = some t

def whole (s : Splicing) : List Node := s.flat ++ s.stack.flatMap Node.flatten

def weight (s : Splicing) : Nat := (s.stack.map fun items => 2 * Node.sizeOfItems items + 1).sum

variable {s t : Splicing}

lemma size_pos (n : Node) : 0 < n.size := by
  cases n with
  | entity e =>
    obtain ⟨_, _, _, _, _, _, _, content, _⟩ := e
    cases content <;> exact Nat.succ_pos _
  | _ => exact Nat.succ_pos _

lemma step_cases (h : s.step = some t) :
    (∃ stack, s.stack = [] :: stack ∧ t = ⟨s.flat, stack⟩) ∨
      (∃ items rest stack, s.stack = (.list items :: rest) :: stack ∧ t = ⟨s.flat, items :: rest :: stack⟩) ∨
      ∃ n rest stack, n.isList = false ∧ s.stack = (n :: rest) :: stack ∧ t = ⟨s.flat ++ [n], rest :: stack⟩ := by
  obtain ⟨flat, _ | ⟨_ | ⟨n, rest⟩, stack⟩⟩ := s
  · cases h
  · exact .inl ⟨stack, rfl, (Option.some.inj h).symm⟩
  · cases n with
    | list items => exact .inr (.inl ⟨items, rest, stack, rfl, (Option.some.inj h).symm⟩)
    | _ => exact .inr (.inr ⟨_, rest, stack, rfl, rfl, (Option.some.inj h).symm⟩)

lemma step_eq_none : s.step = none ↔ s.stack = [] := by
  obtain ⟨flat, _ | ⟨_ | ⟨n, rest⟩, stack⟩⟩ := s
  · simp [step]
  · simp [step]
  · cases n <;> simp [step]

lemma whole_step (h : s.step = some t) : t.whole = s.whole := by
  rcases step_cases h with ⟨stack, hs, rfl⟩ | ⟨items, rest, stack, hs, rfl⟩ | ⟨n, rest, stack, hn, hs, rfl⟩
  · rw [whole, whole, hs, List.flatMap_cons, Node.flatten_eq []]
    rfl
  · rw [whole, whole, hs, List.flatMap_cons, List.flatMap_cons, List.flatMap_cons, Node.flatten_eq (_ :: rest),
      List.flatMap_cons, Node.splice_list, ← Node.flatten_eq rest, List.append_assoc]
  · rw [whole, whole, hs, List.flatMap_cons, List.flatMap_cons, Node.flatten_eq (n :: rest), List.flatMap_cons,
      Node.splice_of_isList hn, ← Node.flatten_eq rest, List.append_assoc, List.append_assoc]

lemma weight_step (h : s.step = some t) : t.weight < s.weight := by
  rcases step_cases h with ⟨stack, hs, rfl⟩ | ⟨items, rest, stack, hs, rfl⟩ | ⟨n, rest, stack, _, hs, rfl⟩
  · simp [weight, hs, Node.sizeOfItems]
  · simp only [weight, hs, List.map_cons, List.sum_cons, Node.sizeOfItems, Node.size]
    omega
  · have hpos := size_pos n
    simp only [weight, hs, List.map_cons, List.sum_cons, Node.sizeOfItems]
    omega

lemma whole_reaches (h : s.Reaches t) : t.whole = s.whole := by
  induction h with
  | refl => rfl
  | tail _ hstep ih => exact (whole_step hstep).trans ih

lemma exists_done (s : Splicing) : ∃ t, s.Reaches t ∧ t.step = none := by
  induction hw : s.weight using Nat.strongRecOn generalizing s with
  | ind w ih =>
    subst hw
    cases h : s.step with
    | none => exact ⟨s, .refl, h⟩
    | some t =>
      obtain ⟨u, hu, hdone⟩ := ih t.weight (weight_step h) t rfl
      exact ⟨u, .head h hu, hdone⟩

lemma reaches_whole (s : Splicing) : s.Reaches ⟨s.whole, []⟩ := by
  obtain ⟨t, ht, hdone⟩ := exists_done s
  have hstack := step_eq_none.mp hdone
  have hwhole := whole_reaches ht
  rw [whole, hstack, List.flatMap_nil, List.append_nil] at hwhole
  have hlast : t = ⟨s.whole, []⟩ := by rw [← hwhole, ← hstack]
  exact hlast ▸ ht

lemma whole_start (items : List Node) : (start items).whole = Node.flatten items := by
  simp [start, whole]

end Splicing

end Stack

namespace Node

section Leaves

mutual

def leafWays : Node → List Path
  | list items => leafWaysFrom 0 items
  | _ => [[]]

def leafWaysFrom : Nat → List Node → List Path
  | _, [] => []
  | i, n :: ns => n.leafWays.map (.item i :: ·) ++ leafWaysFrom (i + 1) ns

end

lemma leafWaysFrom_eq (i : Nat) (items : List Node) :
    leafWaysFrom i items = (items.zipIdx i).flatMap fun p => p.1.leafWays.map (.item p.2 :: ·) := by
  induction items generalizing i with
  | nil => rfl
  | cons n ns ih => rw [leafWaysFrom, ih, List.zipIdx_cons, List.flatMap_cons]

lemma leafWays_list (items : List Node) :
    (list items).leafWays = items.zipIdx.flatMap fun p => p.1.leafWays.map (.item p.2 :: ·) :=
  leafWaysFrom_eq 0 items

lemma isList_of_leaf {n : Node} (h : n.isStructured = false) : n.isList = false := by
  cases n <;> first | rfl | cases h

lemma leafWays_of_isList {n : Node} (h : n.isList = false) : n.leafWays = [[]] := by
  cases n <;> first | rfl | cases h

lemma at?_list_item {items : List Node} {p : Node × Nat} (hp : p ∈ items.zipIdx) (q : Path) :
    (list items).at? (.item p.2 :: q) = p.1.at? q := by
  rw [at?, List.mem_zipIdx_iff_getElem?.mp hp, Option.bind_some]

lemma at?_of_isList {n m : Node} {p : Path} (hn : n.isList = false) (hp : Step.content ∉ p) (h : n.at? p = some m) :
    p = [] ∧ n = m := by
  cases p with
  | nil => exact ⟨rfl, Option.some.inj h⟩
  | cons step p =>
    cases step with
    | item i => cases n <;> first | (cases hn; done) | simp [at?] at h
    | content => exact absurd List.mem_cons_self hp

lemma mem_leafWays_of_isList {n : Node} (hn : n.isList = false) {p : Path} :
    p ∈ n.leafWays ↔ Step.content ∉ p ∧ ∃ m, n.at? p = some m ∧ m.isList = false := by
  rw [leafWays_of_isList hn, List.mem_singleton]
  constructor
  · rintro rfl
    exact ⟨List.not_mem_nil, n, rfl, hn⟩
  · rintro ⟨hp, m, hm, _⟩
    exact (at?_of_isList hn hp hm).1

lemma mem_leafWays {n : Node} {p : Path} :
    p ∈ n.leafWays ↔ Step.content ∉ p ∧ ∃ m, n.at? p = some m ∧ m.isList = false := by
  induction n using Node.induction generalizing p with
  | leaf n hn => exact mem_leafWays_of_isList (isList_of_leaf hn)
  | entity e _ _ => exact mem_leafWays_of_isList rfl
  | list items ih =>
    rw [leafWays_list, List.mem_flatMap]
    constructor
    · rintro ⟨k, hk, hp⟩
      obtain ⟨q, hq, rfl⟩ := List.mem_map.mp hp
      obtain ⟨hc, m, hm, hl⟩ := (ih k.1 (List.fst_mem_of_mem_zipIdx hk)).mp hq
      refine ⟨?_, m, (at?_list_item hk q).trans hm, hl⟩
      simpa using hc
    · rintro ⟨hc, m, hm, hl⟩
      cases p with
      | nil =>
        obtain rfl := Option.some.inj hm
        cases hl
      | cons step q =>
        cases step with
        | content => exact absurd List.mem_cons_self hc
        | item i =>
          obtain ⟨n, hn, hm⟩ := Option.bind_eq_some_iff.mp hm
          refine ⟨(n, i), List.mem_zipIdx_iff_getElem?.mpr hn, List.mem_map.mpr ⟨q, ?_, rfl⟩⟩
          exact (ih n (List.mem_of_getElem? hn)).mpr ⟨fun h => hc (List.mem_cons_of_mem _ h), m, hm, hl⟩

lemma leafWays_precede (n : Node) : n.leafWays.Pairwise Path.Precedes := by
  induction n using Node.induction with
  | leaf n hn =>
    rw [leafWays_of_isList (isList_of_leaf hn)]
    exact List.pairwise_singleton _ _
  | entity e _ _ => exact List.pairwise_singleton _ _
  | list items ih =>
    rw [leafWays_list, List.pairwise_flatMap]
    constructor
    · intro k hk
      rw [List.pairwise_map]
      exact (ih k.1 (List.fst_mem_of_mem_zipIdx hk)).imp .cons
    · have hsorted : (items.zipIdx.map Prod.snd).Pairwise (· < ·) := by
        rw [List.zipIdx_map_snd]
        exact List.pairwise_lt_range' 1
      refine (List.pairwise_map.mp hsorted).imp fun hlt p hp q hq => ?_
      obtain ⟨_, _, rfl⟩ := List.mem_map.mp hp
      obtain ⟨_, _, rfl⟩ := List.mem_map.mp hq
      exact .rel hlt

lemma map_at?_leafWays (n : Node) : n.leafWays.map n.at? = (n.splice []).map some := by
  induction n using Node.induction with
  | leaf n hn =>
    have hl := isList_of_leaf hn
    rw [leafWays_of_isList hl, splice_of_isList hl]
    cases n <;> rfl
  | entity e _ _ => rfl
  | list items ih =>
    have hitem : ∀ k ∈ items.zipIdx, (k.1.leafWays.map (.item k.2 :: ·)).map (list items).at? =
        (k.1.splice []).map some := by
      intro k hk
      rw [List.map_map, ← ih k.1 (List.fst_mem_of_mem_zipIdx hk)]
      exact List.map_congr_left fun q _ => at?_list_item hk q
    have hfst : items.zipIdx.flatMap (fun k => (k.1.splice []).map some) =
        (items.zipIdx.map Prod.fst).flatMap fun m => (m.splice []).map some := by rw [List.flatMap_map]
    rw [leafWays_list, List.map_flatMap, List.flatMap_congr hitem, hfst, List.zipIdx_map_fst, splice_list, flatten_eq,
      List.map_flatMap]

end Leaves

section Blind

lemma mixes_splice (n : Node) : (n.splice []).filterMap entity? = n.mixes := by
  induction n using Node.induction with
  | leaf n hn => cases n <;> first | rfl | cases hn
  | entity e _ _ => rfl
  | list items ih =>
    rw [mixes, mixesOfList_eq, splice_list, flatten_eq, List.filterMap_flatMap]
    exact List.flatMap_congr ih

lemma join_flatMap {α : Type} (f : α → List String) (xs : List α) :
    String.join (xs.flatMap f) = String.join (xs.map fun x => String.join (f x)) := by
  induction xs with
  | nil => rfl
  | cons x xs ih => rw [List.flatMap_cons, String.join_append, ih, List.map_cons, String.join_cons]

lemma markupWith_splice (o : Options) (custom : Entity → Option String → Option String) (n : Node) :
    String.join ((n.splice []).map fun m => m.markupWith o custom) = n.markupWith o custom := by
  induction n using Node.induction with
  | leaf n hn =>
    rw [splice_of_leaf hn, List.map_singleton, String.join_cons, String.join_nil, String.append_empty]
  | entity e _ _ => rw [splice_of_isList rfl, List.map_singleton, String.join_cons, String.join_nil, String.append_empty]
  | list items ih =>
    rw [markupWith_list, splice_list, flatten_eq, List.map_flatMap, join_flatMap]
    exact congrArg String.join (List.map_congr_left ih)

lemma markup_splice (o : Options) (n : Node) : String.join ((n.splice []).map fun m => m.markup o) = n.markup o :=
  markupWith_splice o _ n

end Blind

/-- The loop comes to an end, from wherever it stands, and has then made the flat list: all that is no list, each at
its place in the document and once. Mixes are the entities in it, and its markup is that of the nested list, whatever
hooks write for an entity. -/
theorem flatten_laws (items : List Node) :
    (∀ s, (Splicing.start items).Reaches s → s.Reaches ⟨flatten items, []⟩) ∧
      (∃ ways : List Path, ways.Pairwise Path.Precedes ∧
        (∀ p, p ∈ ways ↔ Step.content ∉ p ∧ ∃ n, (list items).at? p = some n ∧ n.isList = false) ∧
        ways.map (list items).at? = (flatten items).map some) ∧
      (∀ n ∈ flatten items, n.isList = false) ∧
      ((∀ n ∈ items, n.isList = false) → flatten items = items) ∧
      flatten (flatten items) = flatten items ∧
      (list items).mixes = (flatten items).filterMap entity? ∧
      ∀ o : Options, (list (flatten items)).markup o = (list items).markup o ∧
        ∀ custom, (list (flatten items)).markupWith o custom = (list items).markupWith o custom := by
  have hmarkup : ∀ o custom, (list (flatten items)).markupWith o custom = (list items).markupWith o custom := by
    intro o custom
    rw [← markupWith_splice o custom (list items), splice_list, markupWith_list]
  refine ⟨fun s hs => ?_, ⟨(list items).leafWays, leafWays_precede _, fun p => mem_leafWays, ?_⟩, isList_flatten items,
    flatten_of_isList, flatten_of_isList (isList_flatten items), ?_, fun o => ⟨hmarkup o _, hmarkup o⟩⟩
  · have hwhole := Splicing.whole_reaches hs
    rw [Splicing.whole_start] at hwhole
    exact hwhole ▸ Splicing.reaches_whole s
  · rw [map_at?_leafWays, splice_list]
  · rw [← mixes_splice, splice_list]

end Node

end Bemjson
