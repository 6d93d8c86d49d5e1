import Bemjson.Proofs.Invariant

namespace Bemjson

section Counting

def Event.isVisit (id : Nat) : Event → Bool
  | .visited slot => slot == id
  | _ => false

def visitsOf (id : Nat) (trace : List Event) : Nat := trace.countP (Event.isVisit id)

mutual

def Event.total : Event → Nat
  | .visited _ => 1
  | .inner trace => totalOf trace
  | _ => 0

def totalOf : List Event → Nat
  | [] => 0
  | e :: trace => e.total + totalOf trace

end

mutual

def Event.aborts : Event → Bool
  | .failed _ => true
  | .inner trace => aborted trace
  | _ => false

def aborted : List Event → Bool
  | [] => false
  | e :: trace => e.aborts || aborted trace

end

def Event.isInner : Event → Bool
  | .inner _ => true
  | _ => false

mutual

def Event.restarts : Event → Bool
  | .inner trace => restarted trace
  | _ => false

/-- In the run, or in one inside it, a further run was started after one had been aborted. -/
def restarted : List Event → Bool
  | [] => false
  | e :: trace => e.isInner && aborted trace || e.restarts || restarted trace

end

inductive Calm : List Event → Prop
  | intro (trace : List Event) : (∀ id, visitsOf id trace ≤ slotLimit) →
      (∀ within, .inner within ∈ trace → Calm within) → Calm trace

namespace Calm

variable {trace later : List Event}

lemma slots (h : Calm trace) (id : Nat) : visitsOf id trace ≤ slotLimit := by
  cases h with
  | intro _ hs _ => exact hs id

lemma within {inside : List Event} (h : Calm trace) (hm : .inner inside ∈ trace) : Calm inside := by
  cases h with
  | intro _ _ hi => exact hi inside hm

lemma of_suffix (h : Calm later) (hs : trace <:+ later) : Calm trace :=
  .intro trace (fun id => Nat.le_trans hs.sublist.countP_le (h.slots id)) fun _ hm => h.within (hs.subset hm)

lemma nil : Calm [] := .intro [] (fun _ => Nat.zero_le _) nofun

lemma cons (h : Calm trace) (e : Event) (hv : ∀ id, visitsOf id (e :: trace) ≤ slotLimit)
    (hi : ∀ inside, e = .inner inside → Calm inside) : Calm (e :: trace) := by
  refine .intro _ hv fun inside hm => ?_
  rcases List.mem_cons.mp hm with he | hm
  · exact hi inside he.symm
  · exact h.within hm

lemma cons_quiet (h : Calm trace) (e : Event) (hv : ∀ id, e.isVisit id = false)
    (hi : ∀ inside, e = .inner inside → Calm inside) : Calm (e :: trace) := by
  apply h.cons e _ hi
  intro id
  rw [visitsOf, List.countP_cons, hv id]
  exact h.slots id

end Calm

end Counting

section Slots

def Run.visitsAt (r : Run) (id : Nat) : Nat := (r.slots[id]?.map Slot.visits).getD 0

lemma visitsAt_modifySlot (r : Run) (id other : Nat) (f : Slot → Slot) (hf : ∀ s, (f s).visits = s.visits) :
    (r.modifySlot id f).visitsAt other = r.visitsAt other := by
  simp only [Run.visitsAt, Run.modifySlot, List.getElem?_modify]
  cases r.slots[other]? with
  | none => rfl
  | some s => by_cases h : id = other <;> simp [h, hf]

lemma visitsAt_countVisit (r : Run) (id other : Nat) (h : id < r.slots.length) :
    (r.countVisit id).visitsAt other = r.visitsAt other + if id = other then 1 else 0 := by
  simp only [Run.visitsAt, Run.countVisit, Run.modifySlot, Run.note, List.getElem?_modify]
  by_cases hid : id = other
  · subst hid
    simp [h]
  · simp [hid]

lemma visitsAt_push (r : Run) (kids : List Slot) (hk : ∀ k ∈ kids, k.visits = 0) (id : Nat) :
    Run.visitsAt { r with slots := r.slots ++ kids } id = r.visitsAt id := by
  simp only [Run.visitsAt]
  by_cases h : id < r.slots.length
  · rw [List.getElem?_append_left h]
  · rw [List.getElem?_append_right (by omega), List.getElem?_eq_none (by omega : r.slots.length ≤ id)]
    cases hget : kids[id - r.slots.length]? with
    | none => rfl
    | some k => exact hk k (List.mem_of_getElem? hget)

end Slots

structure Run.Tallied (start : Nat) (r : Run) : Prop where
  slots : ∀ id, visitsOf id r.trace = r.visitsAt id
  error : r.error.isSome = aborted r.trace
  total : r.error = none → r.visits = start + totalOf r.trace

namespace Run.Tallied

variable {start : Nat} {r : Run}

lemma of_same (h : r.Tallied start) {later : Run} (ht : later.trace = r.trace)
    (hs : ∀ id, later.visitsAt id = r.visitsAt id) (he : later.error = r.error) (hv : later.visits = r.visits) :
    later.Tallied start where
  slots id := by rw [ht, hs, h.slots]
  error := by rw [he, ht, h.error]
  total hn := by rw [hv, ht, h.total (he.symm.trans hn)]

lemma quiet (h : r.Tallied start) (e : Event) (hv : ∀ id, e.isVisit id = false) (ht : e.total = 0)
    (ha : e.aborts = false) : (r.note e).Tallied start where
  slots id := by
    change visitsOf id (e :: r.trace) = r.visitsAt id
    rw [visitsOf, List.countP_cons, hv id, ← h.slots]
    rfl
  error := by
    change r.error.isSome = aborted (e :: r.trace)
    rw [aborted, ha, h.error]
    rfl
  total hn := by
    change r.visits = start + totalOf (e :: r.trace)
    rw [totalOf, ht, Nat.zero_add]
    exact h.total hn

lemma countVisit (h : r.Tallied start) {id : Nat} (hlt : id < r.slots.length) : (r.countVisit id).Tallied start where
  slots other := by
    change visitsOf other (.visited id :: r.trace) = _
    rw [visitsAt_countVisit r id other hlt, ← h.slots, visitsOf, List.countP_cons]
    simp only [Event.isVisit, beq_iff_eq]
    rfl
  error := by
    change r.error.isSome = aborted (.visited id :: r.trace)
    rw [h.error]
    rfl
  total hn := by
    change r.visits + 1 = start + (1 + totalOf r.trace)
    rw [h.total hn]
    omega

lemma fail (h : r.Tallied start) (err : LoopError) : (r.fail err).Tallied start where
  slots id := by
    change visitsOf id (.failed err :: r.trace) = r.visitsAt id
    rw [← h.slots]
    rfl
  error := rfl
  total hn := nomatch hn

lemma absorb {f : Focus} (h : f.run.Tallied start) {s : State} (hs : s.run.Tallied f.run.visits) :
    (f.absorb s).2.run.Tallied start := by
  have hslots : ∀ id, visitsOf id (.inner s.run.trace :: f.run.trace) = f.run.visitsAt id := by
    intro id
    rw [← h.slots]
    rfl
  have herror := hs.error
  cases he : s.run.error with
  | some e =>
    rw [Focus.absorb, he]
    refine ⟨hslots, ?_, fun hn => absurd hn (Option.some_ne_none _)⟩
    change true = (aborted s.run.trace || aborted f.run.trace)
    rw [← herror, he]
    rfl
  | none =>
    rw [Focus.absorb, he]
    refine ⟨hslots, ?_, ?_⟩
    · change f.run.error.isSome = (aborted s.run.trace || aborted f.run.trace)
      rw [← herror, he, h.error]
      rfl
    · intro hn
      change s.run.visits = start + (totalOf s.run.trace + totalOf f.run.trace)
      rw [hs.total he, h.total hn]
      omega

lemma invariant (env : Setting) : Run.Invariant env Run.Tallied where
  start tree block visits journal := by
    refine ⟨fun id => ?_, rfl, fun _ => rfl⟩
    cases id <;> rfl
  keep n r id key value force h := h.of_same rfl (fun _ => visitsAt_modifySlot r id _ _ fun _ => rfl) rfl rfl
  issue n r h := h.of_same rfl (fun _ => rfl) rfl rfl
  write n r entry h := h.of_same rfl (fun _ => rfl) rfl rfl
  count n r rule id h := (h.quiet (.fired rule id) (fun _ => rfl) rfl rfl).of_same rfl (fun _ => rfl) rfl rfl
  pop n r id h := h.quiet (.popped id) (fun _ => rfl) rfl rfl
  push n r kids hk h := h.of_same rfl (visitsAt_push r kids hk) rfl rfl
  visit n r id e h _ hlt _ := h.countVisit hlt
  fail n r id e err h _ hlt _ := (h.countVisit hlt).fail err
  replace n r id around h :=
    (h.quiet (.replaced id) (fun _ => rfl) rfl rfl).of_same rfl
      (fun _ => visitsAt_modifySlot _ id _ _ fun _ => rfl) rfl rfl
  absorb n f s h hs := h.absorb hs

end Run.Tallied

end Bemjson
