import Bemjson.Proofs.DepthFirst.Patches
import Bemjson.Proofs.DepthFirst.Sight
import Bemjson.Proofs.Slots

namespace Bemjson

section Lines

lemma ordered_concat {slots : List Slot} (ho : Ordered slots) {slot : Slot}
    (h : ∀ p, slot.parent = some p → p < slots.length) : Ordered (slots ++ [slot]) := by
  intro id s p hs hp
  by_cases hid : id < slots.length
  · rw [List.getElem?_append_left hid] at hs
    exact ho id s p hs hp
  · have hlt := (List.getElem?_eq_some_iff.mp hs).1
    rw [List.length_append, List.length_singleton] at hlt
    obtain rfl : id = slots.length := by omega
    rw [List.getElem?_concat_length] at hs
    obtain rfl := Option.some.inj hs
    exact h p hp

lemma keeps_append {slots : List Slot} (ho : Ordered slots) (more : List Slot) {id : Nat} (h : id < slots.length) :
    keeps (slots ++ more) id = keeps slots id := by
  have hsame : ∀ i, i < slots.length → (slots ++ more)[i]?.map Slot.hold = slots[i]?.map Slot.hold := by
    intro i hi
    rw [List.getElem?_append_left hi]
  refine chain_congr hsame ?_ _ h
  intro i s p hi hs hp
  have hlt := ho i s p hs hp
  omega

lemma last_lt {n p : Nat} (h : Spot.last n = some p) : n = p + 1 := by
  cases n with
  | zero => cases h
  | succ n =>
    cases h
    rfl

namespace Spot

lemma length_line (above : List (Assoc Json)) : (line above).length = above.length := by
  induction above with
  | nil => rfl
  | cons kept above ih => rw [line, List.length_append, ih, List.length_singleton, List.length_cons]

lemma ordered_line (above : List (Assoc Json)) : Ordered (line above) := by
  induction above with
  | nil =>
    intro id s p hs _
    cases hs
  | cons kept above ih =>
    refine ordered_concat ih fun p hp => ?_
    have hlast := last_lt (h := hp)
    rw [length_line]
    omega

lemma keeps_line (above : List (Assoc Json)) (slot : Slot) (h : slot.parent = last above.length) :
    Ordered (line above ++ [slot]) ∧ keeps (line above ++ [slot]) above.length = slot.kept :: above := by
  have ho : Ordered (line above ++ [slot]) := by
    refine ordered_concat (ordered_line above) fun p hp => ?_
    have hlast := last_lt (h.symm.trans hp)
    rw [length_line]
    omega
  refine ⟨ho, ?_⟩
  induction above generalizing slot with
  | nil =>
    rw [keeps_eq ho (by rfl), h]
    rfl
  | cons kept above ih =>
    have hget : (line (kept :: above) ++ [slot])[(kept :: above).length]? = some slot := by
      rw [← length_line (kept :: above)]
      exact List.getElem?_concat_length
    rw [keeps_eq ho hget, h]
    have hlt : above.length < (line (kept :: above)).length := by
      rw [length_line, List.length_cons]
      omega
    have hkept := ih { parent := last above.length, kept } rfl (ordered_line (kept :: above))
    exact congrArg (slot.kept :: ·) ((keeps_append (ordered_line _) [slot] hlt).trans hkept)

end Spot

end Lines

def spotAt (slots : List Slot) (id : Nat) : Option Spot :=
  slots[id]?.map fun slot =>
    { around := slot.around, position := slot.position, siblings := slot.siblings, kept := slot.kept
      above := (slot.parent.map (keeps slots)).getD [] }

section Spots

variable {slots : List Slot} {id : Nat} {spot : Spot}

lemma spotAt_eq_some : spotAt slots id = some spot ↔ ∃ slot, slots[id]? = some slot ∧ slot.around = spot.around ∧
    slot.position = spot.position ∧ slot.siblings = spot.siblings ∧ slot.kept = spot.kept ∧
      (slot.parent.map (keeps slots)).getD [] = spot.above := by
  constructor
  · intro h
    obtain ⟨slot, hs, rfl⟩ := Option.map_eq_some_iff.mp h
    exact ⟨slot, hs, rfl, rfl, rfl, rfl, rfl⟩
  · rintro ⟨slot, hs, ha, hp, hn, hk, hu⟩
    refine Option.map_eq_some_iff.mpr ⟨slot, hs, ?_⟩
    cases spot
    simp only [Spot.mk.injEq]
    exact ⟨ha, hp, hn, hk, hu⟩

lemma keeps_of_spotAt (ho : Ordered slots) (h : spotAt slots id = some spot) :
    keeps slots id = spot.kept :: spot.above := by
  obtain ⟨slot, hs, _, _, _, hk, hu⟩ := spotAt_eq_some.mp h
  rw [keeps_eq ho hs, hk, hu]

lemma spotAt_congr {others : List Slot} {P : Nat → Prop} (hsame : ∀ i, P i → others[i]? = slots[i]?)
    (hup : ∀ i slot p, P i → slots[i]? = some slot → slot.parent = some p → P p) (h : P id) :
    spotAt others id = spotAt slots id := by
  rw [spotAt, spotAt, hsame id h]
  cases hs : slots[id]? with
  | none => rfl
  | some slot =>
    cases hp : slot.parent with
    | none => simp [hp]
    | some p =>
      have hkeeps : keeps others p = keeps slots p :=
        chain_congr (fun i hi => by rw [hsame i hi]) hup _ (hup id slot p h hs hp)
      simp [hp, hkeeps]

lemma spotAt_kid (ho : Ordered slots) (h : spotAt slots id = some spot) (path : Path) (kids : List Slot) {c : Nat}
    {kid : Slot} (hc : kids[c]? = some kid) :
    spotAt (slots ++ kids.map (Slot.under id path)) (slots.length + c) = some (spot.kid kid) := by
  obtain ⟨slot, hs, _⟩ := spotAt_eq_some.mp h
  have hid := (List.getElem?_eq_some_iff.mp hs).1
  refine spotAt_eq_some.mpr ⟨kid.under id path, ?_, rfl, rfl, rfl, rfl, ?_⟩
  · rw [List.getElem?_append_right (Nat.le_add_right _ _), Nat.add_sub_cancel_left, List.getElem?_map, hc, Option.map_some]
  · exact (keeps_append ho _ hid).trans (keeps_of_spotAt ho h)

lemma spotAt_modify (ho : Ordered slots) {slot : Slot} (hs : slots[id]? = some slot) (g : Slot → Slot)
    (hg : (g slot).parent = slot.parent) : spotAt (slots.modify id g) id = some
      { around := (g slot).around, position := (g slot).position, siblings := (g slot).siblings, kept := (g slot).kept
        above := (slot.parent.map (keeps slots)).getD [] } := by
  refine spotAt_eq_some.mpr ⟨g slot, ?_, rfl, rfl, rfl, rfl, ?_⟩
  · rw [List.getElem?_modify_eq, hs]
    rfl
  · rw [hg]
    cases hparent : slot.parent with
    | none => rfl
    | some p =>
      have hlt := ho id slot p hs hparent
      refine chain_congr (P := fun i => i < id) ?_ ?_ _ hlt
      · intro i hi
        rw [List.getElem?_modify_ne _ _ (Nat.ne_of_gt hi)]
      · intro i s q hi hs hq
        have := ho i s q hs hq
        omega

end Spots

namespace State

variable {env : Setting} {nested : Nested} {deep : Bool} {s u : State} {id : Nat} {slot : Slot} {spot : Spot}

def spot? (s : State) (id : Nat) : Option Spot := spotAt s.run.slots id

lemma Tidy.ordered (ht : s.Tidy) : Ordered s.run.slots := fun id slot p hs hp => (ht.parents id slot p hs hp).1

lemma look_alike (ht : s.Tidy) (he : s.run.error = none) (hs : s.run.slots[id]? = some slot)
    (hspot : s.spot? id = some spot) (e : Entity) : (s.look id slot e).Alike (spot.focus (e.adopt spot.around)) := by
  obtain ⟨slot', hs', ha, hp, hn, hk, hu⟩ := spotAt_eq_some.mp hspot
  obtain rfl := Option.some.inj (hs.symm.trans hs')
  have hmap : (s.look id slot e).run.slots.map Slot.hold = s.run.slots.map Slot.hold :=
    map_modify_of_eq Slot.hold _ id (fun slot => { slot with visits := slot.visits + 1 }) fun _ => rfl
  have ho := ordered_of_hold ht.ordered hmap
  have hlook : spotAt (s.look id slot e).run.slots id = some spot := by
    apply (spotAt_modify ht.ordered hs (fun slot => { slot with visits := slot.visits + 1 }) rfl).trans
    simp only [ha, hp, hn, hk, hu]
  have hget : (s.look id slot e).run.slots[id]? = some { slot with visits := slot.visits + 1 } := by
    have hmod := List.getElem?_modify_eq (fun slot : Slot => { slot with visits := slot.visits + 1 }) id s.run.slots
    rw [hs] at hmod
    exact hmod
  obtain ⟨hline, hkeeps⟩ := Spot.keeps_line spot.above spot.slot rfl
  have hlast : (Spot.line spot.above ++ [spot.slot])[spot.above.length]? = some spot.slot := by
    rw [← Spot.length_line spot.above]
    exact List.getElem?_concat_length
  have hplace : (s.look id slot e).place = (spot.focus (e.adopt spot.around)).place := by
    have hf : (spot.focus (e.adopt spot.around)).run.slots[(spot.focus (e.adopt spot.around)).slot]? = some spot.slot := hlast
    have hl : (s.look id slot e).run.slots[(s.look id slot e).slot]? = some { slot with visits := slot.visits + 1 } := hget
    simp only [Focus.place, hf, hl, hp, hn]
    rfl
  exact ⟨congrArg (fun around => Node.entity (e.adopt around)) ha, rfl, hplace,
    (keeps_of_spotAt ho hlook).trans hkeeps.symm, ⟨ho, (List.getElem?_eq_some_iff.mp hget).1, he⟩,
    ⟨hline, (List.getElem?_eq_some_iff.mp hlast).1, rfl⟩⟩

lemma judge_spot (hn : nested.Within Focus.Onward) (ht : s.Tidy) (hspot : s.spot? id = some spot) {e : Entity}
    {fate : Fate} {f g : Focus} (h : judge env nested (s.look id slot e) = some (fate, f)) (ha : f.Alike g)
    (around : Ambient) : spotAt f.run.slots id = some { spot with kept := (spot.keeping g around).kept } := by
  obtain ⟨hslot, kept, hk⟩ := judge_slots hn h
  obtain ⟨slot', hs, hsa, hsp, hsn, _, hsu⟩ := spotAt_eq_some.mp hspot
  have hmod := spotAt_modify ht.ordered hs (fun slot => { slot with kept, visits := slot.visits + 1 }) rfl
  rw [← hk] at hmod
  simp only [hsa, hsp, hsn, hsu] at hmod
  have hkept : (spot.keeping g around).kept = kept := by
    have hleft := keeps_of_spotAt ha.left.ordered hmod
    have hg := List.getElem?_eq_getElem ha.right.known
    have hright := keeps_eq ha.right.ordered hg
    have hkeeps := ha.keeps
    rw [hslot, hleft, hright] at hkeeps
    rw [Spot.keeping, hg]
    exact (List.cons.inj hkeeps).1.symm
  rw [hkept]
  exact hmod

lemma replacement_spot {r : Run} (ho : Ordered r.slots) {around : Ambient} {g : Focus}
    (h : spotAt r.slots id = some { spot with kept := (spot.keeping g around).kept }) :
    spotAt (r.countReplacement id around).slots id = some (spot.keeping g around) := by
  obtain ⟨slot, hs, _, hp, hn, hk, hu⟩ := spotAt_eq_some.mp h
  apply (spotAt_modify ho hs (fun slot => { slot with around }) rfl).trans
  simp only [hp, hn, hk, hu]
  rfl

lemma Turn.slot_other (hn : nested.Within Focus.Onward) (h : Turn env nested deep s id slot u) {j : Nat}
    (hj : j < s.run.slots.length) (hne : id ≠ j) : u.run.slots[j]? = s.run.slots[j]? := by
  cases h.effect hn with
  | still r root hr _ _ => exact hr.other hne
  | grown r m n kids hr _ _ _ =>
    have hlt : j < r.slots.length := hr.length ▸ hj
    exact (List.getElem?_append_left hlt).trans (hr.other hne)
  | requeued r e f hr _ => exact hr.other hne

lemma Turn.spot_other (hn : nested.Within Focus.Onward) (ht : s.Tidy) (hh : s.Held id slot.path)
    (h : Turn env nested deep s id slot u) {other : Nat} (ho : other ∈ s.queue) : u.spot? other = s.spot? other := by
  refine spotAt_congr (P := fun i => i < s.run.slots.length ∧ ∀ p, s.path? i = some p → ¬slot.path <+: p) ?_ ?_ ?_
  · rintro i ⟨hi, hp⟩
    apply h.slot_other hn hi
    rintro rfl
    exact hp slot.path hh.path (List.prefix_refl _)
  · rintro i t p ⟨hi, hp⟩ hs hparent
    obtain ⟨hlt, q, hq, hpre⟩ := ht.parents i t p hs hparent
    refine ⟨by omega, ?_⟩
    intro q' hq' hbelow
    obtain rfl := Option.some.inj (hq.symm.trans hq')
    have hpath : s.path? i = some t.path := by rw [path?, hs, Option.map_some]
    exact hp t.path hpath (hbelow.trans hpre)
  · refine ⟨ht.lt ho, ?_⟩
    intro p hp
    exact (ht.apart hh ho hp).1

end State

end Bemjson
