import Bemjson.Proofs.LoopGuard.Tally
import Bemjson.Proofs.Simulation

/-! Two settings in which a run that comes to a good end takes the same steps, apart from what the journal says. -/

namespace Bemjson

variable {j : Journal → Journal}

def Run.rejournal (j : Journal → Journal) (r : Run) : Run := { r with journal := j r.journal }

def Focus.rejournal (j : Journal → Journal) (f : Focus) : Focus := f.mapRun (Run.rejournal j)

def State.rejournal (j : Journal → Journal) (s : State) : State := { s with run := s.run.rejournal j }

/-- What makes runs in two settings keep step. The loop guard need only agree on the runs that may still end well. -/
structure Setting.InStep (a b : Setting) (j : Journal → Journal) (calls : Call → Prop) (Good : Run → Prop) : Prop where
  index : b.index = a.index
  bodies : ∀ rule ∈ a.index.rules, rule.body.Indifferent calls a.options b.options
  write : ∀ journal entry, j { journal with log := entry :: journal.log } =
    { j journal with log := entry :: (j journal).log }
  issue : calls .freshId → b.idStart = a.idStart ∧ ∀ journal, j journal = journal
  back : ∀ r later, r.Before later → Good later → Good r
  inner : ∀ (f : Focus) (s : State), Good (f.absorb s).2.run → Good s.run
  guard : ∀ n r id e, r.Tallied n → Good r → (∀ err, overrun a r id e = some err → Good (r.fail err)) →
    overrun b r id e = overrun a r id e

section Steps

variable {a b : Setting} {A B : Nested} {calls : Call → Prop} {Good : Run → Prop} {deep : Bool}

lemma settle_rejournal (id : Nat) (path : Path) (around : Ambient) (s : State) (fate : Fate) (f : Focus) :
    settle deep id path around (s.rejournal j) fate (f.rejournal j) =
      (settle deep id path around s fate f).rejournal j := by
  have hdescend : ∀ s : State, descend deep id path around f.node (s.rejournal j) =
      (descend deep id path around f.node s).rejournal j := by
    intro s
    unfold descend
    split
    · unfold State.pushContent
      split <;> rfl
    · rfl
  have herror : (f.rejournal j).run.error = f.run.error := rfl
  simp only [settle, herror]
  split
  · rfl
  · exact hdescend { s with root := s.root.setAt f.node path, run := f.run }
  · rfl

lemma absorb_rejournal (f : Focus) (s : State) :
    (f.rejournal j).absorb (s.rejournal j) = ((f.absorb s).1, (f.absorb s).2.rejournal j) := by
  have herror : (s.rejournal j).run.error = s.run.error := rfl
  simp only [Focus.absorb, herror]
  cases s.run.error <;> rfl

namespace Setting.InStep

variable (h : a.InStep b j calls Good)
include h

lemma twin : a.Twin b calls (fun f => Good f.run) fun f g => g = f.rejournal j where
  index := h.index
  bodies := h.bodies
  back := by
    refine ⟨fun _ hg => hg, fun _ _ _ hfg hgh hg => hfg (hgh hg), fun _ _ hg => hg, ?_, ?_, ?_, ?_, fun _ _ hg => hg⟩
    · exact fun f key value force => h.back _ _ (.of_eq rfl rfl rfl)
    · exact fun f => h.back _ _ (.of_eq rfl rfl rfl)
    · exact fun f entry => h.back _ _ (.of_eq rfl rfl rfl)
    · exact fun f id => h.back _ _ ⟨Nat.le_refl _, fun hn => hn, List.suffix_cons _ _⟩
  node := by
    rintro f g rfl
    rfl
  replaced := by
    rintro f g rfl
    rfl
  place := by
    rintro f g rfl
    rfl
  inherited := by
    rintro f g key rfl
    have hlookup : ∀ steps id, (f.run.rejournal j).lookup key steps id = f.run.lookup key steps id := by
      intro steps
      induction steps with
      | zero => exact fun _ => rfl
      | succ steps ih =>
        intro id
        simp only [Run.lookup]
        rw [funext ih]
        rfl
    exact (hlookup _ _).symm
  change := by
    rintro f g c rfl
    rfl
  replace := by
    rintro f g n rfl
    rfl
  keep := by
    rintro f g key value force rfl
    rfl
  write := by
    rintro f g entry rfl
    simp only [Focus.rejournal, Focus.mapRun, Run.write, Run.rejournal, h.write]
  count := by
    rintro f g id rfl
    rfl
  issue := by
    rintro hcalls f g rfl
    obtain ⟨hstart, hid⟩ := h.issue hcalls
    simp only [Focus.rejournal, Focus.mapRun, Run.issueId, Run.rejournal, hid, hstart, and_self]

lemma inner_rejournal (f : Focus) (tree : Node) : (f.rejournal j).inner b tree = (f.inner a tree).rejournal j := by
  simp only [Focus.inner, State.start, h.index]
  rfl

lemma back_within (hA : A.Within Focus.Onward) : A.Within fun f g => Good g.run → Good f.run where
  tryRest f g hr := h.back _ _ (hA.tryRest f g hr).run
  expand tree f n g hr := h.back _ _ (hA.expand tree f n g hr).run

variable (hA : A.Within Focus.Onward) (hs : A.Simulates (fun f => Good f.run) (fun f g => g = f.rejournal j) B)
include hA hs

lemma visit_rejournal {n id : Nat} {slot : Slot} {e : Entity} {s u : State} (ht : s.run.Tallied n)
    (hlt : id < s.run.slots.length) (hu : visit a A deep id slot e s = some u) (hgood : Good u.run) :
    visit b B deep id slot e (s.rejournal j) = some (u.rejournal j) := by
  have htally : (s.look id slot e).run.Tallied n := ht.countVisit hlt
  have hsame : overrun b ((s.rejournal j).look id slot e).run id (e.adopt slot.around) =
    overrun b (s.look id slot e).run id (e.adopt slot.around) := rfl
  rw [visit_eq_judge] at hu ⊢
  rw [hsame]
  -- Where the guard of `a` stops the visit, the failed run itself is still good, and the guard of `b` has to agree.
  cases ho : overrun a (s.look id slot e).run id (e.adopt slot.around) with
  | some err =>
    simp only [ho] at hu
    cases hu
    have hlook : Good (s.look id slot e).run := h.back _ _ (.fail _ err) hgood
    have hfail : ∀ err', overrun a (s.look id slot e).run id (e.adopt slot.around) = some err' →
        Good ((s.look id slot e).run.fail err') := by
      intro err' ho'
      obtain rfl := Option.some.inj (ho.symm.trans ho')
      exact hgood
    rw [h.guard n _ id _ htally hlook hfail, ho]
    rfl
  | none =>
    simp only [ho] at hu
    obtain ⟨⟨fate, f⟩, hj, rfl⟩ := Option.map_eq_some_iff.mp hu
    have hf : Good f.run := h.back _ _ (settle_before deep id _ _ s fate f) hgood
    have hlook : Good (s.look id slot e).run := h.back _ _ (judge_onward hA hj).run hf
    obtain ⟨g, hg, rfl⟩ := judge_simulates h.twin (h.back_within hA) hs rfl hj hf
    rw [h.guard n _ id _ htally hlook (fun err he => nomatch ho.symm.trans he), ho]
    change (judge b B ((s.look id slot e).rejournal j)).map _ = _
    rw [hg, Option.map_some, settle_rejournal]

lemma attend_rejournal {n id : Nat} {s u : State} (ht : s.run.Tallied n) (hu : attend a A deep id s = some u)
    (hgood : Good u.run) : attend b B deep id (s.rejournal j) = some (u.rejournal j) := by
  have hpop : (s.run.note (.popped id)).Tallied n := ht.quiet _ (fun _ => rfl) rfl rfl
  have hslots : ((s.rejournal j).run.note (.popped id)).slots[id]? = (s.run.note (.popped id)).slots[id]? := rfl
  have hroot : (s.rejournal j).root = s.root := rfl
  simp only [attend, hslots, hroot] at hu ⊢
  cases hslot : (s.run.note (.popped id)).slots[id]? with
  | none =>
    simp only [hslot] at hu ⊢
    cases hu
    rfl
  | some slot =>
    have hlt := (List.getElem?_eq_some_iff.mp hslot).1
    simp only [hslot] at hu ⊢
    cases hnode : s.root.at? slot.path with
    | none =>
      simp only [hnode] at hu ⊢
      cases hu
      rfl
    | some m =>
      simp only [hnode] at hu ⊢
      cases m with
      | entity e => exact h.visit_rejournal (s := { s with run := s.run.note (.popped id) }) hA hs hpop hlt hu hgood
      | _ =>
        cases hu
        rfl

lemma next_rejournal {n : Nat} {s t : State} (ht : s.run.Tallied n) (hst : s.Next a A deep t) (hgood : Good t.run) :
    (s.rejournal j).Next b B deep (t.rejournal j) := by
  obtain ⟨he, id, queue, u, hq, hu, rfl⟩ := hst
  exact ⟨he, id, queue, u.rejournal j, hq, h.attend_rejournal (s := { s with queue }) hA hs ht hu hgood, rfl⟩

lemma reaches_rejournal (htally : A.Within (Run.Invariant.Keeps Run.Tallied)) {n : Nat} {s t : State}
    (ht : s.run.Tallied n) (hst : s.Reaches a A deep t) (hgood : Good t.run) :
    (s.rejournal j).Reaches b B deep (t.rejournal j) := by
  induction hst with
  | refl => exact .refl
  | tail hsu hut ih =>
    -- Only the end is known to be good, so that is carried back before the induction hypothesis applies.
    have hu := (Run.Tallied.invariant a).reaches htally hA ht hsu
    exact (ih (h.back _ _ (hut.before hA) hgood)).tail (h.next_rejournal hA hs hu hut hgood)

omit hA hs

lemma drain_rejournal {fuel n : Nat}
    (hs : (Nested.ofFuel a fuel).Simulates (fun f => Good f.run) (fun f g => g = f.rejournal j) (.unbounded b))
    {s t : State} (ht : s.run.Tallied n) (hd : drain a (.ofFuel a fuel) deep fuel s = some t) (hgood : Good t.run) :
    ∃ steps, drain b (.unbounded b) deep steps (s.rejournal j) = some (t.rejournal j) := by
  obtain ⟨hr, hover⟩ := drain_iff_run.mp ⟨fuel, hd⟩
  have hreaches := h.reaches_rejournal (ofFuel_within a fuel) hs ((Run.Tallied.invariant a).ofFuel fuel) ht hr hgood
  exact drain_iff_run.mpr ⟨hreaches, hover⟩

lemma simulates :
    ∀ fuel, (Nested.ofFuel a fuel).Simulates (fun f => Good f.run) (fun f g => g = f.rejournal j) (.unbounded b) := by
  refine .of_expand h.twin (fun _ _ => ⟨rfl, rfl⟩) (fun _ _ => rfl) (fun fuel => h.back_within (ofFuel_within a fuel))
    (fun g g' fate hg => (tryRest_unbounded b g g').mpr ⟨fate, hg⟩) ?_
  rintro fuel ih tree f g m f' rfl hf hgood
  obtain ⟨s, hd, hr⟩ := Option.map_eq_some_iff.mp hf
  obtain ⟨rfl, rfl⟩ := Prod.ext_iff.mp hr
  obtain ⟨steps, hsteps⟩ := h.drain_rejournal ih ((Run.Tallied.invariant a).start tree _ _ _) hd (h.inner f s hgood)
  refine ⟨(f.absorb s).2.rejournal j, ?_, rfl⟩
  refine (expand_unbounded b tree (f.rejournal j) _).mpr ⟨steps, s.rejournal j, ?_, absorb_rejournal f s⟩
  rw [h.inner_rejournal]
  exact hsteps

lemma expand_rejournal {fuel : Nat} {tree : Node} {block : Option String} {journal : Journal} {s : State}
    (hs : expand a fuel deep tree block journal = some s) (hgood : Good s.run) :
    ∃ fuel, expand b fuel deep tree block (j journal) = some (s.rejournal j) := by
  obtain ⟨steps, hsteps⟩ :=
    h.drain_rejournal (h.simulates fuel) ((Run.Tallied.invariant a).start tree block 0 journal) hs hgood
  have hstart : (State.start a tree block 0 journal).rejournal j = .start b tree block 0 (j journal) := by
    simp only [State.start, h.index]
    rfl
  rw [hstart] at hsteps
  exact (drain_unbounded b deep _ _).mp ⟨steps, hsteps⟩

end Setting.InStep

end Steps

end Bemjson
