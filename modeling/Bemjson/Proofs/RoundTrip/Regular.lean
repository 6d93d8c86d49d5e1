import Bemjson.Node.Edit
import Bemjson.Proofs.Trees
import Mathlib.Data.List.Nodup

/-! The trees whose fields are as JSON gives them, and what is left of a tree once it has been JSON. -/

namespace Bemjson

/-- An entity with fields as JSON gives them; with `nulls`, its behavior may be null. -/
structure Entity.Regular (nulls : Prop) (e : Entity) : Prop where
  block : e.block ≠ some ""
  elem : e.elem ≠ some ""
  keys : e.params.keys.Nodup
  names : ∀ k ∈ e.params.keys, Key.ofName k = .param k
  js : e.js = some .null → nulls
  hook : e.hook = none

def Node.Regular (nulls : Prop) (n : Node) : Prop := n.All (Entity.Regular nulls)

mutual

/-- The tree as its JSON shows it: which rules have been run is not seen, nor whether more may be, and to have no
behavior is the same as to have null for it. -/
def Node.bare : Node → Node
  | .list items => .list (Node.bareItems items)
  | .entity e => .entity e.bare
  | n => n

def Node.bareItems : List Node → List Node
  | [] => []
  | n :: ns => n.bare :: Node.bareItems ns

def Entity.bare : Entity → Entity
  | e@{ content, mix, .. } =>
    { e with
      content := match content with
        | some c => some c.bare
        | none => none
      mix := match mix with
        | some ms => some (Entity.bareMixed ms)
        | none => none
      js := e.js.bind Json.present
      fired := []
      stopped := false }

def Entity.bareMixed : List Entity → List Entity
  | [] => []
  | m :: ms => m.bare :: Entity.bareMixed ms

end

section Bare

lemma Node.bare_list (items : List Node) : (Node.list items).bare = .list (items.map Node.bare) := by
  rw [Node.bare, Node.list.injEq]
  induction items with
  | nil => rfl
  | cons n ns ih => rw [Node.bareItems, ih, List.map_cons]

lemma Entity.bareMixed_eq (ms : List Entity) : Entity.bareMixed ms = ms.map Entity.bare := by
  induction ms with
  | nil => rfl
  | cons m ms ih => rw [Entity.bareMixed, ih, List.map_cons]

lemma Entity.bare_eq (e : Entity) :
    e.bare = { e with
      content := e.content.map Node.bare
      mix := e.mix.map fun ms => ms.map Entity.bare
      js := e.js.bind Json.present
      fired := []
      stopped := false } := by
  obtain ⟨_, _, _, _, _, mix, _, content, _⟩ := e
  cases mix <;> cases content <;> simp [Entity.bare, Entity.bareMixed_eq]

lemma Node.bare_of_all {n : Node} (h : n.All fun e => e.js ≠ some .null ∧ e.fired = [] ∧ e.stopped = false) :
    n.bare = n := by
  induction n using Node.induction with
  | leaf n hn => cases n <;> first | rfl | cases hn
  | list items ih =>
    rw [Node.bare_list, List.map_congr_left fun n hn => ih n hn (Node.all_list.mp h n hn), List.map_id']
  | entity e hcontent hmix =>
    obtain ⟨⟨hjs, hfired, hstopped⟩, hc, hm⟩ := Entity.all_iff.mp h
    have hcontent' : e.content.map Node.bare = e.content := by
      cases he : e.content with
      | none => rfl
      | some c => exact congrArg some (hcontent c he (hc c he))
    have hmix' : (e.mix.map fun ms => ms.map Entity.bare) = e.mix := by
      cases he : e.mix with
      | none => rfl
      | some ms =>
        have hb : ∀ m ∈ ms, m.bare = m := fun m hms => Node.entity.inj (hmix ms he m hms (hm ms he m hms))
        rw [Option.map_some, List.map_congr_left hb, List.map_id']
    have hjs' : e.js.bind Json.present = e.js := by
      cases he : e.js with
      | none => rfl
      | some v => cases v <;> first | rfl | exact absurd he hjs
    rw [Node.bare, Entity.bare_eq, hcontent', hmix', hjs']
    cases e
    cases hfired
    cases hstopped
    rfl

end Bare

section Reading

variable {P : Entity → Prop}

def Entity.KeptByWriting (P : Entity → Prop) : Prop := ∀ e name v n, P e → P (e.write (.ofName name) v n)

lemma Entity.all_write (hwrite : Entity.KeptByWriting P) {e : Entity} {name : String} {v : Json} {n : Node}
    (he : e.All P) (hn : n.All P) : (e.write (.ofName name) v n).All P := by
  obtain ⟨hP, hc, hm⟩ := Entity.all_iff.mp he
  have hP' := hwrite e name v n hP
  refine Entity.all_iff.mpr ⟨hP', ?_⟩
  cases Key.ofName name with
  | mix =>
    refine ⟨hc, ?_⟩
    rintro ms ⟨⟩
    exact hn.mixes
  | content =>
    refine ⟨?_, hm⟩
    rintro c ⟨⟩
    exact hn
  | _ => exact ⟨hc, hm⟩

mutual

lemma Node.all_ofJson (hempty : P {}) (hwrite : Entity.KeptByWriting P) (v : Json) : (Node.ofJson v).All P := by
  cases v with
  | array items => exact Node.all_list.mpr (Node.all_ofItems hempty hwrite items)
  | object fields => exact Entity.all_ofFields hempty hwrite fields (Entity.all_iff.mpr ⟨hempty, nofun, nofun⟩)
  | _ => trivial

lemma Node.all_ofItems (hempty : P {}) (hwrite : Entity.KeptByWriting P) (items : List Json) :
    ∀ n ∈ Node.ofItems items, n.All P := by
  cases items with
  | nil => simp [Node.ofItems]
  | cons v vs =>
    exact List.forall_mem_cons.mpr ⟨Node.all_ofJson hempty hwrite v, Node.all_ofItems hempty hwrite vs⟩

lemma Entity.all_ofFields (hempty : P {}) (hwrite : Entity.KeptByWriting P) {e : Entity}
    (fields : List (String × Json)) (he : e.All P) : (e.ofFields fields).All P := by
  cases fields with
  | nil => exact he
  | cons p fields =>
    obtain ⟨k, v⟩ := p
    exact Entity.all_ofFields hempty hwrite fields (Entity.all_write hwrite he (Node.all_ofJson hempty hwrite v))

end

end Reading

section Kept

variable {nulls : Prop}

lemma Key.ofName_of_param {s name : String} (h : Key.ofName s = .param name) : name = s := by
  unfold Key.ofName at h
  cases hf : Key.known.find? fun k => k.name == s with
  | none =>
    rw [hf] at h
    exact (Key.param.inj h).symm
  | some k =>
    rw [hf] at h
    have hk := List.mem_of_find?_eq_some hf
    rw [show k = .param name from h] at hk
    simp [Key.known] at hk

lemma Json.toName_ne_empty (v : Json) : v.toName ≠ some "" := by
  intro h
  simpa using (Option.filter_eq_some_iff.mp h).2

lemma Json.present_ne_null (v : Json) : v.present ≠ some .null := by
  cases v <;> simp [Json.present]

namespace Entity.Regular

lemma empty : Entity.Regular nulls {} := ⟨nofun, nofun, List.nodup_nil, nofun, nofun, rfl⟩

lemma write {e : Entity} (h : e.Regular nulls) (name : String) (v : Json) (n : Node) :
    (e.write (.ofName name) v n).Regular nulls := by
  cases hk : Key.ofName name with
  | block => exact ⟨v.toName_ne_empty, h.elem, h.keys, h.names, h.js, h.hook⟩
  | elem => exact ⟨h.block, v.toName_ne_empty, h.keys, h.names, h.js, h.hook⟩
  | js => exact ⟨h.block, h.elem, h.keys, h.names, fun hv => absurd hv v.present_ne_null, h.hook⟩
  | param s =>
    have hs := Key.ofName_of_param hk
    subst hs
    refine ⟨h.block, h.elem, ?_, ?_, h.js, h.hook⟩
    · change (e.params.insert s v).keys.Nodup
      rw [Assoc.keys_insert]
      split
      · exact h.keys
      · rename_i hn
        simpa using h.keys.concat hn
    · change ∀ k ∈ (e.params.insert s v).keys, Key.ofName k = .param k
      rw [Assoc.keys_insert]
      split
      · exact h.names
      · intro k hk'
        rcases List.mem_append.mp hk' with hk' | hk'
        · exact h.names k hk'
        · rwa [List.mem_singleton.mp hk']
  | _ => exact ⟨h.block, h.elem, h.keys, h.names, h.js, h.hook⟩

end Entity.Regular

end Kept

end Bemjson
