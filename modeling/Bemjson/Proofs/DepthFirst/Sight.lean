import Bemjson.Proofs.Simulation

/-! What rules can see of a run, and that they do the same wherever they see the same. -/

namespace Bemjson

section Chains

def chain (slots : List Slot) : Nat → Nat → List (Assoc Json)
  | 0, _ => []
  | steps + 1, id =>
    match slots[id]? with
    | none => []
    | some s =>
      match s.parent with
      | none => [s.kept]
      | some p => s.kept :: chain slots steps p

lemma lookup_eq_chain (r : Run) (key : String) (steps id : Nat) :
    r.lookup key steps id = (chain r.slots steps id).findSome? fun kept => kept.get? key := by
  induction steps generalizing id with
  | zero => rfl
  | succ steps ih =>
    rw [Run.lookup, chain]
    cases hs : r.slots[id]? with
    | none => rfl
    | some s =>
      cases hp : s.parent with
      | none => cases hk : s.kept.get? key <;> simp [hp, hk]
      | some p => cases hk : s.kept.get? key <;> simp [hp, hk, ih]

def Ordered (slots : List Slot) : Prop :=
  ∀ (id : Nat) slot p, slots[id]? = some slot → slot.parent = some p → p < id

def Slot.hold (s : Slot) : Assoc Json × Option Nat := (s.kept, s.parent)

lemma chain_congr {slots others : List Slot} {P : Nat → Prop}
    (hsame : ∀ i, P i → others[i]?.map Slot.hold = slots[i]?.map Slot.hold)
    (hup : ∀ i slot p, P i → slots[i]? = some slot → slot.parent = some p → P p) (steps : Nat) {id : Nat} (h : P id) :
    chain others steps id = chain slots steps id := by
  induction steps generalizing id with
  | zero => rfl
  | succ steps ih =>
    have hid := hsame id h
    rw [chain, chain]
    cases hs : slots[id]? with
    | none =>
      rw [hs, Option.map_none, Option.map_eq_none_iff] at hid
      rw [hid]
    | some s =>
      rw [hs, Option.map_some] at hid
      obtain ⟨t, ht, he⟩ := Option.map_eq_some_iff.mp hid
      have hkept : t.kept = s.kept := congrArg Prod.fst he
      have hparent : t.parent = s.parent := congrArg Prod.snd he
      rw [ht]
      simp only [hkept, hparent]
      cases hp : s.parent with
      | none => rfl
      | some p => simp only [ih (hup id s p h hs hp)]

def keeps (slots : List Slot) (id : Nat) : List (Assoc Json) := chain slots (id + 1) id

lemma chain_eq_keeps {slots : List Slot} (ho : Ordered slots) {id steps : Nat} (h : id < steps) :
    chain slots steps id = keeps slots id := by
  induction id using Nat.strongRecOn generalizing steps with
  | ind id ih =>
    obtain ⟨k, rfl⟩ : ∃ k, steps = k + 1 := ⟨steps - 1, by omega⟩
    rw [keeps, chain, chain]
    cases hs : slots[id]? with
    | none => rfl
    | some s =>
      cases hp : s.parent with
      | none => simp only [hp]
      | some p =>
        have hlt := ho id s p hs hp
        simp only [hp]
        rw [ih p hlt (show p < k by omega), ih p hlt hlt]

lemma keeps_eq {slots : List Slot} (ho : Ordered slots) {id : Nat} {s : Slot} (hs : slots[id]? = some s) :
    keeps slots id = s.kept :: (s.parent.map (keeps slots)).getD [] := by
  rw [keeps, chain, hs]
  cases hp : s.parent with
  | none => simp [hp]
  | some p => simp [hp, chain_eq_keeps ho (ho id s p hs hp)]

lemma ordered_of_hold {slots others : List Slot} (ho : Ordered slots)
    (h : others.map Slot.hold = slots.map Slot.hold) : Ordered others := by
  intro id slot p hs hp
  have hid := congrArg (fun l : List (Assoc Json × Option Nat) => l[id]?) h
  simp only [List.getElem?_map, hs, Option.map_some] at hid
  obtain ⟨t, ht, he⟩ := Option.map_eq_some_iff.mp hid.symm
  exact ho id t p ht ((congrArg Prod.snd he).trans hp)

lemma keeps_modify {slots : List Slot} (ho : Ordered slots) {id : Nat} {kept : Assoc Json} {above : List (Assoc Json)}
    (hk : keeps slots id = kept :: above) (put : Assoc Json → Assoc Json) :
    Ordered (slots.modify id fun s => { s with kept := put s.kept }) ∧
      keeps (slots.modify id fun s => { s with kept := put s.kept }) id = put kept :: above := by
  obtain ⟨s, hs⟩ : ∃ s, slots[id]? = some s := by
    cases hs : slots[id]? with
    | none => simp [keeps, chain, hs] at hk
    | some s => exact ⟨s, rfl⟩
  have hget : ∀ i, (slots.modify id fun s => { s with kept := put s.kept })[i]? =
      (slots[i]?).map fun s => if id = i then { s with kept := put s.kept } else s := by
    intro i
    rw [List.getElem?_modify]
    rfl
  have ho' : Ordered (slots.modify id fun s => { s with kept := put s.kept }) := by
    intro i slot p hi hp
    rw [hget] at hi
    obtain ⟨t, ht, rfl⟩ := Option.map_eq_some_iff.mp hi
    apply ho i t p ht
    split at hp <;> exact hp
  refine ⟨ho', ?_⟩
  have hid : (slots.modify id fun s => { s with kept := put s.kept })[id]? = some { s with kept := put s.kept } := by
    rw [hget, hs, Option.map_some, if_pos rfl]
  rw [keeps_eq ho hs] at hk
  obtain ⟨rfl, rfl⟩ := List.cons.inj hk
  rw [keeps_eq ho' hid]
  congr 1
  cases hp : s.parent with
  | none => rfl
  | some p =>
    have hlt := ho id s p hs hp
    have hsame : ∀ i, i < id → (slots.modify id fun s => { s with kept := put s.kept })[i]?.map Slot.hold =
        slots[i]?.map Slot.hold := by
      intro i hi
      rw [List.getElem?_modify_ne _ _ (Nat.ne_of_gt hi)]
    exact chain_congr hsame (fun i slot q hi hq hp => by have := ho i slot q hq hp; omega) _ hlt

end Chains

namespace Focus

structure Sane (f : Focus) : Prop where
  ordered : Ordered f.run.slots
  known : f.slot < f.run.slots.length
  sound : f.run.error = none

structure Alike (f g : Focus) : Prop where
  node : f.node = g.node
  replaced : f.replaced = g.replaced
  place : f.place = g.place
  keeps : keeps f.run.slots f.slot = keeps g.run.slots g.slot
  left : f.Sane
  right : g.Sane

lemma Alike.symm {f g : Focus} (h : f.Alike g) : g.Alike f :=
  ⟨h.node.symm, h.replaced.symm, h.place.symm, h.keeps.symm, h.right, h.left⟩

lemma Sane.inherited {f : Focus} (h : f.Sane) (key : String) :
    f.run.inherited f.slot key = (Bemjson.keeps f.run.slots f.slot).findSome? fun kept => kept.get? key := by
  rw [Run.inherited, lookup_eq_chain, chain_eq_keeps h.ordered h.known]

lemma Alike.mapEntity {f g : Focus} (h : f.Alike g) (change : Entity → Entity) :
    (f.mapEntity change).Alike (g.mapEntity change) :=
  ⟨congrArg (Node.mapEntity change) h.node, h.replaced, h.place, h.keeps, ⟨h.left.ordered, h.left.known, h.left.sound⟩,
    ⟨h.right.ordered, h.right.known, h.right.sound⟩⟩

lemma Alike.replace {f g : Focus} (h : f.Alike g) (n : Node) : (f.replace n).Alike (g.replace n) :=
  ⟨rfl, rfl, h.place, h.keeps, ⟨h.left.ordered, h.left.known, h.left.sound⟩,
    ⟨h.right.ordered, h.right.known, h.right.sound⟩⟩

lemma Alike.mapRun {f g : Focus} (h : f.Alike g) (c d : Run → Run) (hc : (c f.run).slots = f.run.slots)
    (hd : (d g.run).slots = g.run.slots) (hce : (c f.run).error = f.run.error) (hde : (d g.run).error = g.run.error) :
    (f.mapRun c).Alike (g.mapRun d) where
  node := h.node
  replaced := h.replaced
  place := by
    have hp := h.place
    simp only [Focus.place, Focus.mapRun, hc, hd] at hp ⊢
    exact hp
  keeps := by
    have hk := h.keeps
    simp only [Focus.mapRun, hc, hd]
    exact hk
  left := ⟨hc.symm ▸ h.left.ordered, hc.symm ▸ h.left.known, hce.trans h.left.sound⟩
  right := ⟨hd.symm ▸ h.right.ordered, hd.symm ▸ h.right.known, hde.trans h.right.sound⟩

lemma Sane.keep {f : Focus} (h : f.Sane) (key : String) (value : Json) (force : Bool) :
    (f.mapRun fun r => r.keep f.slot key value force).Sane ∧
      (f.mapRun fun r => r.keep f.slot key value force).place = f.place ∧
      ∃ kept above, Bemjson.keeps f.run.slots f.slot = kept :: above ∧
        Bemjson.keeps (f.run.keep f.slot key value force).slots f.slot = kept.put force key value :: above := by
  have hs := List.getElem?_eq_getElem h.known
  have hk := keeps_eq h.ordered hs
  obtain ⟨ho, hput⟩ := keeps_modify h.ordered hk fun kept => kept.put force key value
  refine ⟨⟨ho, ?_, h.sound⟩, ?_, _, _, hk, hput⟩
  · simpa [Focus.mapRun, Run.keep, Run.modifySlot] using h.known
  · simp [Focus.place, Focus.mapRun, Run.keep, Run.modifySlot, hs]

lemma Alike.keep {f g : Focus} (h : f.Alike g) (key : String) (value : Json) (force : Bool) :
    (f.mapRun fun r => r.keep f.slot key value force).Alike (g.mapRun fun r => r.keep g.slot key value force) := by
  obtain ⟨hf, hfp, kept, above, hk, hput⟩ := h.left.keep key value force
  obtain ⟨hg, hgp, kept', above', hk', hput'⟩ := h.right.keep key value force
  obtain ⟨rfl, rfl⟩ := List.cons.inj (hk.symm.trans (h.keeps.trans hk'))
  exact ⟨h.node, h.replaced, hfp.trans (h.place.trans hgp.symm), hput.trans hput'.symm, hf, hg⟩

end Focus

abbrev Nested.Mimics (A B : Nested) : Prop := A.Simulates (fun _ => True) Focus.Alike B

section Simulation

variable {env : Setting} {a b : Nested}

lemma alike_twin (hi : ∀ rule ∈ env.index.rules, rule.body.IdFree) :
    env.Twin env (fun c => c ≠ .freshId) (fun _ => True) Focus.Alike where
  index := rfl
  bodies rule hr := (hi rule hr).indifferent env.options env.options rfl
  back := ⟨fun _ h => h, fun _ _ _ _ _ h => h, fun _ _ h => h, fun _ _ _ _ h => h, fun _ h => h, fun _ _ h => h,
    fun _ _ h => h, fun _ _ h => h⟩
  node _ _ h := h.node
  replaced _ _ h := h.replaced
  place _ _ h := h.place
  inherited _ _ key h := by rw [h.left.inherited, h.keeps, ← h.right.inherited]
  change _ _ c h := h.mapEntity c
  replace _ _ n h := h.replace n
  keep _ _ key value force h := h.keep key value force
  write _ _ entry h := h.mapRun _ _ rfl rfl rfl rfl
  count _ _ id h := h.mapRun _ _ rfl rfl rfl rfl
  issue h := absurd rfl h

lemma judge_alike (hi : ∀ rule ∈ env.index.rules, rule.body.IdFree) (hs : a.Mimics b) {f g f' : Focus}
    (h : f.Alike g) {fate : Fate} (hf : judge env a f = some (fate, f')) :
    ∃ g', judge env b g = some (fate, g') ∧ f'.Alike g' :=
  judge_simulates (alike_twin hi) ⟨fun _ _ _ h => h, fun _ _ _ _ _ h => h⟩ hs h hf trivial

end Simulation

end Bemjson
