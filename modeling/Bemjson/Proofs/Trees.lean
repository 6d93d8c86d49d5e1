import Bemjson.Expansion.Path
import Mathlib.Data.List.Basic

namespace Bemjson

section Induction

lemma Entity.sizeOf_content {e : Entity} {c : Node} (h : c ∈ e.content) : sizeOf c < sizeOf e := by
  obtain ⟨_, _, _, _, _, _, _, content, _⟩ := e
  obtain rfl : content = some c := h
  simp
  omega

lemma Entity.sizeOf_mix {e m : Entity} {ms : List Entity} (hms : ms ∈ e.mix) (hm : m ∈ ms) :
    sizeOf m < sizeOf e := by
  obtain ⟨_, _, _, _, _, mix, _⟩ := e
  obtain rfl : mix = some ms := hms
  have hlt := List.sizeOf_lt_of_mem hm
  simp
  omega

@[elab_as_elim]
lemma Node.induction {P : Node → Prop} (leaf : ∀ n, n.isStructured = false → P n)
    (list : ∀ items, (∀ n ∈ items, P n) → P (.list items))
    (entity : ∀ e : Entity, (∀ c ∈ e.content, P c) → (∀ ms ∈ e.mix, ∀ m ∈ ms, P (.entity m)) → P (.entity e))
    (n : Node) : P n :=
  match n with
  | .list items => list items fun n _ => n.induction leaf list entity
  | .entity e =>
    entity e (fun c _ => c.induction leaf list entity) fun _ _ m _ => (Node.entity m).induction leaf list entity
  | .null | .bool _ | .number _ | .text _ => leaf _ rfl
termination_by sizeOf n
decreasing_by
  · have hlt := List.sizeOf_lt_of_mem ‹n ∈ items›
    simp
    omega
  · have hlt := Entity.sizeOf_content ‹c ∈ e.content›
    simp
    omega
  · have hlt := Entity.sizeOf_mix ‹_ ∈ e.mix› ‹m ∈ _›
    simp
    omega

end Induction

mutual

def Node.All (P : Entity → Prop) : Node → Prop
  | .list items => Node.AllItems P items
  | .entity e => e.All P
  | _ => True

def Node.AllItems (P : Entity → Prop) : List Node → Prop
  | [] => True
  | n :: ns => n.All P ∧ Node.AllItems P ns

def Entity.All (P : Entity → Prop) : Entity → Prop
  | e@{ content, mix, .. } =>
    P e ∧
      (match content with
      | some c => c.All P
      | none => True) ∧
      match mix with
      | some ms => Entity.AllMixed P ms
      | none => True

def Entity.AllMixed (P : Entity → Prop) : List Entity → Prop
  | [] => True
  | m :: ms => m.All P ∧ Entity.AllMixed P ms

end

section All

variable {P Q : Entity → Prop}

lemma Node.allItems_iff {items : List Node} : Node.AllItems P items ↔ ∀ n ∈ items, n.All P := by
  induction items with
  | nil => simp [Node.AllItems]
  | cons n ns ih => simp [Node.AllItems, ih]

lemma Entity.allMixed_iff {ms : List Entity} : Entity.AllMixed P ms ↔ ∀ m ∈ ms, m.All P := by
  induction ms with
  | nil => simp [Entity.AllMixed]
  | cons m ms ih => simp [Entity.AllMixed, ih]

lemma Node.all_list {items : List Node} : (Node.list items).All P ↔ ∀ n ∈ items, n.All P := Node.allItems_iff

lemma Node.all_entity {e : Entity} : (Node.entity e).All P ↔ e.All P := Iff.rfl

lemma Node.all_of_leaf {n : Node} (h : n.isStructured = false) : n.All P := by
  cases n <;> trivial

lemma Entity.all_iff {e : Entity} :
    e.All P ↔ P e ∧ (∀ c ∈ e.content, c.All P) ∧ ∀ ms ∈ e.mix, ∀ m ∈ ms, m.All P := by
  obtain ⟨_, _, _, _, _, mix, _, content, _⟩ := e
  cases mix <;> cases content <;> simp [Entity.All, Entity.allMixed_iff]

lemma Node.All.mono (hPQ : ∀ e, P e → Q e) {n : Node} (h : n.All P) : n.All Q := by
  induction n using Node.induction with
  | leaf n hn => exact Node.all_of_leaf hn
  | list items ih =>
    rw [Node.all_list] at h ⊢
    exact fun n hn => ih n hn (h n hn)
  | entity e hcontent hmix =>
    rw [Node.all_entity, Entity.all_iff] at h ⊢
    obtain ⟨he, hc, hm⟩ := h
    exact ⟨hPQ e he, fun c hc' => hcontent c hc' (hc c hc'), fun ms hms m hm' => hmix ms hms m hm' (hm ms hms m hm')⟩

lemma Node.All.at? {n m : Node} {p : Path} (h : n.All P) (hm : n.at? p = some m) : m.All P := by
  induction p generalizing n with
  | nil => exact Option.some.inj hm ▸ h
  | cons step p ih =>
    cases step with
    | item i =>
      cases n with
      | list items =>
        obtain ⟨k, hk, hm⟩ := Option.bind_eq_some_iff.mp hm
        exact ih (Node.all_list.mp h k (List.mem_of_getElem? hk)) hm
      | _ => cases hm
    | content =>
      cases n with
      | entity e =>
        obtain ⟨c, hc, hm⟩ := Option.bind_eq_some_iff.mp hm
        exact ih ((Entity.all_iff.mp h).2.1 c hc) hm
      | _ => cases hm

lemma Node.All.setAt (hP : ∀ e c, P e → P { e with content := c }) {n new : Node} {p : Path} (h : n.All P)
    (hnew : new.All P) : (n.setAt new p).All P := by
  induction p generalizing n with
  | nil => exact hnew
  | cons step p ih =>
    cases step with
    | item i =>
      cases n with
      | list items =>
        refine Node.all_list.mpr fun m hm => ?_
        obtain ⟨j, hj⟩ := List.getElem?_of_mem hm
        rw [List.getElem?_modify] at hj
        obtain ⟨k, hk, rfl⟩ := Option.map_eq_some_iff.mp hj
        have hkP := Node.all_list.mp h k (List.mem_of_getElem? hk)
        split
        · exact ih hkP
        · exact hkP
      | _ => exact h
    | content =>
      cases n with
      | entity e =>
        obtain ⟨he, hc, hm⟩ := Entity.all_iff.mp h
        refine Entity.all_iff.mpr ⟨hP e _ he, fun c hc' => ?_, hm⟩
        obtain ⟨k, hk, rfl⟩ := Option.map_eq_some_iff.mp hc'
        exact ih (hc k hk)
      | _ => exact h

lemma Node.exists_at?_list {items : List Node} {d : Entity} :
    (∃ p, (Node.list items).at? p = some (.entity d)) ↔ ∃ n ∈ items, ∃ p, n.at? p = some (.entity d) := by
  constructor
  · rintro ⟨p, hp⟩
    cases p with
    | nil => cases hp
    | cons step p =>
      cases step with
      | content => cases hp
      | item i =>
        obtain ⟨n, hn, hp⟩ := Option.bind_eq_some_iff.mp hp
        exact ⟨n, List.mem_of_getElem? hn, p, hp⟩
  · rintro ⟨n, hn, p, hp⟩
    obtain ⟨i, hi⟩ := List.getElem?_of_mem hn
    exact ⟨.item i :: p, by rw [at?, hi, Option.bind_some, hp]⟩

lemma Node.exists_at?_entity {e d : Entity} :
    (∃ p, (Node.entity e).at? p = some (.entity d)) ↔ d = e ∨ ∃ c ∈ e.content, ∃ p, c.at? p = some (.entity d) := by
  constructor
  · rintro ⟨p, hp⟩
    cases p with
    | nil => exact .inl (entity.inj (Option.some.inj hp)).symm
    | cons step p =>
      cases step with
      | item i => cases hp
      | content =>
        obtain ⟨c, hc, hp⟩ := Option.bind_eq_some_iff.mp hp
        exact .inr ⟨c, hc, p, hp⟩
  · rintro (rfl | ⟨c, hc, p, hp⟩)
    · exact ⟨[], rfl⟩
    · exact ⟨.content :: p, by rw [at?, hc, Option.bind_some, hp]⟩

lemma Node.mixesOfList_eq (items : List Node) : Node.mixesOfList items = items.flatMap Node.mixes := by
  induction items with
  | nil => rfl
  | cons n ns ih => rw [Node.mixesOfList, ih, List.flatMap_cons]

lemma Node.All.mixes {n : Node} (h : n.All P) : ∀ e ∈ n.mixes, e.All P := by
  induction n using Node.induction with
  | leaf n hn =>
    cases n with
    | list items => cases hn
    | entity e => cases hn
    | _ => simp [Node.mixes]
  | list items ih =>
    rw [Node.mixes, Node.mixesOfList_eq]
    intro e he
    obtain ⟨n, hn, he⟩ := List.mem_flatMap.mp he
    exact ih n hn (Node.all_list.mp h n hn) e he
  | entity e _ _ =>
    intro m hm
    rw [List.mem_singleton.mp hm]
    exact h

end All

section Flat

lemma Node.splice_eq (n : Node) (rest : List Node) : n.splice rest = n.splice [] ++ rest := by
  have h := n.splice_append [] rest
  rwa [List.nil_append] at h

lemma Node.spliceAll_eq (items : List Node) : Node.spliceAll items [] = items.flatMap fun n => n.splice [] := by
  induction items with
  | nil => rfl
  | cons n ns ih => rw [Node.spliceAll, Node.splice_eq, ih, List.flatMap_cons]

lemma Node.splice_of_isList {n : Node} (h : n.isList = false) : n.splice [] = [n] := by
  cases n <;> first | rfl | cases h

lemma Node.splice_of_leaf {n : Node} (h : n.isStructured = false) : n.splice [] = [n] := by
  cases n <;> first | rfl | cases h

lemma Node.flatten_eq (items : List Node) : Node.flatten items = items.flatMap fun n => n.splice [] := by
  unfold Node.flatten
  split
  · exact Node.spliceAll_eq items
  · rename_i h
    simp only [List.any_eq_true, not_exists, not_and, Bool.not_eq_true] at h
    have hs : ∀ n ∈ items, n.splice [] = [n] := fun n hn => Node.splice_of_isList (h n hn)
    rw [List.flatMap_congr hs, List.flatMap_singleton']

lemma Node.splice_list (items : List Node) : (Node.list items).splice [] = Node.flatten items := by
  rw [Node.splice, Node.spliceAll_eq, Node.flatten_eq]

lemma Node.flatten_of_isList {items : List Node} (h : ∀ n ∈ items, n.isList = false) : Node.flatten items = items := by
  unfold Node.flatten
  split
  · rename_i hany
    obtain ⟨n, hn, hl⟩ := List.any_eq_true.mp hany
    simp [h n hn] at hl
  · rfl

@[elab_as_elim]
lemma Node.flatInduction {P : Node → Prop} (leaf : ∀ n, n.isStructured = false → P n)
    (list : ∀ items, (∀ n ∈ Node.flatten items, P n) → P (.list items))
    (entity : ∀ e : Entity, (∀ c ∈ e.content, P c) → P (.entity e)) (n : Node) : P n := by
  have hboth : P n ∧ ∀ m ∈ n.splice [], P m := by
    induction n using Node.induction with
    | leaf n hn =>
      rw [Node.splice_of_leaf hn]
      exact ⟨leaf n hn, fun m hm => List.mem_singleton.mp hm ▸ leaf n hn⟩
    | list items ih =>
      have hflat : ∀ m ∈ Node.flatten items, P m := by
        rw [Node.flatten_eq]
        intro m hm
        obtain ⟨n, hn, hm⟩ := List.mem_flatMap.mp hm
        exact (ih n hn).2 m hm
      rw [Node.splice_list]
      exact ⟨list items hflat, hflat⟩
    | entity e hcontent _ =>
      have he := entity e fun c hc => (hcontent c hc).1
      rw [Node.splice_of_isList rfl]
      exact ⟨he, fun m hm => List.mem_singleton.mp hm ▸ he⟩
  exact hboth.1

lemma Node.at?_of_mem_splice {n m : Node} (h : m ∈ n.splice []) : ∃ p, n.at? p = some m := by
  induction n using Node.induction with
  | list items ih =>
    rw [Node.splice, Node.spliceAll_eq] at h
    obtain ⟨n, hn, hm⟩ := List.mem_flatMap.mp h
    obtain ⟨p, hp⟩ := ih n hn hm
    obtain ⟨i, hi⟩ := List.getElem?_of_mem hn
    exact ⟨.item i :: p, by rw [Node.at?, hi, Option.bind_some, hp]⟩
  | leaf n hn =>
    rw [Node.splice_of_leaf hn, List.mem_singleton] at h
    exact ⟨[], by rw [h]; cases n <;> rfl⟩
  | entity e _ _ =>
    rw [Node.splice_of_isList rfl, List.mem_singleton] at h
    exact ⟨[], by rw [h]; rfl⟩

lemma Node.All.splice {P : Entity → Prop} {n : Node} (h : n.All P) : ∀ m ∈ n.splice [], m.All P := by
  induction n using Node.induction with
  | leaf n hn =>
    rw [Node.splice_of_leaf hn]
    exact fun m hm => List.mem_singleton.mp hm ▸ h
  | list items ih =>
    rw [Node.splice, Node.spliceAll_eq]
    intro m hm
    obtain ⟨n, hn, hm⟩ := List.mem_flatMap.mp hm
    exact ih n hn (Node.all_list.mp h n hn) m hm
  | entity e _ _ => exact fun m hm => List.mem_singleton.mp hm ▸ h

lemma Node.all_flatten {P : Entity → Prop} {items : List Node} (h : (Node.list items).All P) :
    ∀ m ∈ Node.flatten items, m.All P := by
  have hs := Node.All.splice h
  rwa [Node.splice_list] at hs

end Flat

end Bemjson
