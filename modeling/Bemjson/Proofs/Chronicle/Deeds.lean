import Bemjson.Proofs.Stopped

/-! All that an expansion does, told in the order in which it is done, and with it what is done in the expansions that
its rules ask for. -/

namespace Bemjson

inductive Deed where
  | take (slot : Nat)
  | visit (slot : Nat)
  | refuse (slot : Nat) (e : LoopError)
  | act (slot : Nat) (a : Act)
  | expand (slot : Nat) (tree : Node) (within : List Deed)
  | requeue (slot : Nat)

/-- Where an expansion stands: between two slots, or in the trial of the rules on the node at the head of the queue. -/
inductive Site where
  | between (s : State)
  | amid (s : State) (x : Point)

namespace Site

def run : Site → Run
  | between s => s.run
  | amid _ x => x.focus.run

def queue : Site → List Nat
  | between s => s.queue
  | amid s _ => s.queue.tail

def Reached (env : Setting) (deep : Bool) (first : State) : Site → Prop
  | between s => first.Reaches env (.unbounded env) deep s
  | amid s x => first.Reaches env (.unbounded env) deep s ∧ ∃ f acts, s.Visits env f ∧ (f.trial env).Does env acts x

end Site

inductive State.Meets (env : Setting) (s : State) : List Deed → Prop
  | pass (id : Nat) (queue : List Nat) : s.queue = id :: queue → (s.designated id).bind Node.entity? = none →
      Meets env s [.take id]
  | refuse (id : Nat) (queue : List Nat) (slot : Slot) (e : Entity) (err : LoopError) : s.queue = id :: queue →
      s.run.slots[id]? = some slot → s.root.at? slot.path = some (.entity e) →
      overrun env ((s.pop id queue).look id slot e).run id (e.adopt slot.around) = some err →
      Meets env s [.take id, .visit id, .refuse id err]
  | closed (id : Nat) (queue : List Nat) (slot : Slot) (e : Entity) : s.queue = id :: queue →
      s.run.slots[id]? = some slot → s.root.at? slot.path = some (.entity e) →
      overrun env ((s.pop id queue).look id slot e).run id (e.adopt slot.around) = none → e.stopped = true →
      Meets env s [.take id, .visit id]

/-- What has been done from the first state on, the latest at the end. -/
inductive State.Tells (env : Setting) : Bool → State → List Deed → Site → Prop
  | start (deep : Bool) (first : State) : Tells env deep first [] (.between first)
  | meet (deep : Bool) (first s t : State) (deeds told : List Deed) : Tells env deep first deeds (.between s) →
      s.Meets env told → s.Next env (.unbounded env) deep t → Tells env deep first (deeds ++ told) (.between t)
  | visit (deep : Bool) (first s : State) (deeds : List Deed) (f : Focus) : Tells env deep first deeds (.between s) →
      s.Visits env f → Tells env deep first (deeds ++ [.take f.slot, .visit f.slot]) (.amid s (f.trial env))
  | act (deep : Bool) (first s : State) (deeds : List Deed) (x y : Point) (a : Act) :
      Tells env deep first deeds (.amid s x) → (∀ tree, a ≠ .call (.expand tree)) → x.Step env a y →
      Tells env deep first (deeds ++ [.act x.focus.slot a]) (.amid s y)
  | expand (deep : Bool) (first s u : State) (deeds within : List Deed) (x y : Point) (tree : Node) :
      Tells env deep first deeds (.amid s x) → x.Step env (.call (.expand tree)) y →
      Tells env true (x.focus.inner env tree) within (.between u) → u.Over → y.focus = (x.focus.absorb u).2 →
      Tells env deep first (deeds ++ [.expand x.focus.slot tree within]) (.amid s y)
  | keep (deep : Bool) (first s t : State) (deeds : List Deed) (g : Focus) :
      Tells env deep first deeds (.amid s ⟨g, []⟩) → s.Next env (.unbounded env) deep t → g.slot ∉ t.queue →
      Tells env deep first deeds (.between t)
  | requeue (deep : Bool) (first s t : State) (deeds : List Deed) (g : Focus) :
      Tells env deep first deeds (.amid s ⟨g, []⟩) → s.Next env (.unbounded env) deep t → g.slot ∈ t.queue →
      Tells env deep first (deeds ++ [.requeue g.slot]) (.between t)

section Steps

variable {env : Setting}

lemma Point.Step.within {R : Focus → Focus → Prop} (hR : Focus.Closed env R) (hn : (Nested.unbounded env).Within R)
    {x y : Point} {a : Act} (h : x.Step env a y) : R x.focus y.focus := by
  cases h with
  | call c next f g r k _ hp => exact perform_within hR.carried hn f g c r hp
  | fire c cs chosen f k _ => exact hR.trans _ _ _ (hR.change f _) (hR.count _ c.id)
  | replace n cs chosen f k => exact hR.replace f n
  | _ => exact hR.refl _

lemma Point.Does.within {R : Focus → Focus → Prop} (hR : Focus.Closed env R) (hn : (Nested.unbounded env).Within R)
    {x y : Point} {acts : List Act} (h : x.Does env acts y) : R x.focus y.focus := by
  induction h with
  | start => exact hR.refl _
  | step acts a y z _ hs ih => exact hR.trans _ _ _ ih (hs.within hR hn)

lemma Point.Step.onward {x y : Point} {a : Act} (h : x.Step env a y) : x.focus.Onward y.focus :=
  h.within (Focus.Onward.closed env) (unbounded_within env)

lemma Point.Does.onward {x y : Point} {acts : List Act} (h : x.Does env acts y) : x.focus.Onward y.focus :=
  h.within (Focus.Onward.closed env) (unbounded_within env)

def Act.effect (env : Setting) (slot : Nat) (r : Run) : Act → Run
  | call (.keep key value force) => r.keep slot key value force
  | call .freshId => (r.issueId env.idStart).2
  | call (.log entry) => r.write entry
  | fire rule => r.countFire rule slot
  | _ => r

lemma Point.Step.effect {x y : Point} {a : Act} (h : x.Step env a y) (ha : ∀ tree, a ≠ .call (.expand tree)) :
    y.focus.run = a.effect env x.focus.slot x.focus.run := by
  cases h with
  | call c next f g r k hc hp =>
    cases c with
    | tryRest => exact absurd rfl hc
    | expand tree => exact absurd rfl (ha tree)
    | _ =>
      cases hp
      rfl
  | _ => rfl

lemma Point.Step.expands {x y : Point} {tree : Node} (h : x.Step env (.call (.expand tree)) y) :
    ∃ u : State, (x.focus.inner env tree).Reaches env (.unbounded env) true u ∧ u.Over ∧
      y.focus = (x.focus.absorb u).2 := by
  cases h with
  | call c next f g r k hc hp =>
    obtain ⟨steps, u, hu, he⟩ := (expand_unbounded env tree f (r, g)).mp hp
    obtain ⟨hr, hover⟩ := drain_iff_run.mp ⟨steps, hu⟩
    exact ⟨u, hr, hover, (congrArg Prod.snd he).symm⟩

end Steps

section Depth

mutual

def Event.depth : Event → Nat
  | .inner trace => depthOf trace + 1
  | _ => 0

def depthOf : List Event → Nat
  | [] => 0
  | e :: trace => max e.depth (depthOf trace)

end

lemma depthOf_le {trace later : List Event} (h : trace <:+ later) : depthOf trace ≤ depthOf later := by
  induction later with
  | nil =>
    obtain rfl := List.suffix_nil.mp h
    exact Nat.le_refl _
  | cons e later ih =>
    rw [depthOf]
    rcases List.suffix_cons_iff.mp h with rfl | h
    · rw [depthOf]
    · exact Nat.le_trans (ih h) (Nat.le_max_right _ _)

end Depth

namespace State

variable {env : Setting} {deep : Bool} {first s t : State} {deeds told : List Deed} {site : Site}

def Begins (env : Setting) (first : State) : Prop := ∃ tree block visits journal, first = .start env tree block visits journal

lemma Begins.tidy (hf : first.Begins env) (h : first.Reaches env (.unbounded env) deep s) : s.Tidy := by
  obtain ⟨tree, block, visits, journal, rfl⟩ := hf
  exact (Tidy.start env tree block visits journal).reaches (unbounded_within env) h

lemma Tells.reached (h : first.Tells env deep deeds site) : site.Reached env deep first := by
  induction h with
  | start => exact .refl
  | meet deep first s t deeds told _ _ hn ih => exact ih.tail hn
  | visit deep first s deeds f _ hf ih => exact ⟨ih, f, [], hf, .start⟩
  | act deep first s deeds x y a _ _ hs ih =>
    obtain ⟨hr, f, acts, hf, hd⟩ := ih
    exact ⟨hr, f, acts ++ [a], hf, .step acts a x y hd hs⟩
  | expand deep first s u deeds within x y tree _ hs _ _ _ ih _ =>
    obtain ⟨hr, f, acts, hf, hd⟩ := ih
    exact ⟨hr, f, _, hf, .step acts _ x y hd hs⟩
  | keep deep first s t deeds g _ hn _ ih => exact ih.1.tail hn
  | requeue deep first s t deeds g _ hn _ ih => exact ih.1.tail hn

section Exists

variable {n : Nat} (hinner : ∀ m < n, ∀ first s : State, first.Tidy → first.Reaches env (.unbounded env) true s →
  depthOf s.run.trace ≤ m → ∃ deeds, first.Tells env true deeds (.between s))

include hinner

lemma tells_of_does (hs : first.Tells env deep deeds (.between s)) {f : Focus} (hf : s.Visits env f) {acts : List Act}
    {x : Point} (h : (f.trial env).Does env acts x) (hx : depthOf x.focus.run.trace ≤ n) :
    ∃ deeds, first.Tells env deep deeds (.amid s x) := by
  induction h with
  | start => exact ⟨_, .visit deep first s deeds f hs hf⟩
  | step acts a y z _ hstep ih =>
    obtain ⟨earlier, hy⟩ := ih (Nat.le_trans (depthOf_le hstep.onward.run.trace) hx)
    by_cases ha : ∃ tree, a = .call (.expand tree)
    · obtain ⟨tree, rfl⟩ := ha
      obtain ⟨u, hr, hover, hz⟩ := hstep.expands
      rw [hz, trace_absorb, depthOf, Event.depth] at hx
      obtain ⟨within, hw⟩ := hinner (depthOf u.run.trace) (by omega) _ u (Tidy.start env tree _ _ _) hr (Nat.le_refl _)
      exact ⟨_, .expand deep first s u earlier within y z tree hy hstep hw hover hz⟩
    · exact ⟨_, .act deep first s earlier y z a hy (fun tree he => ha ⟨tree, he⟩) hstep⟩

lemma tells_of_next (ht : s.Tidy) (hs : first.Tells env deep deeds (.between s))
    (h : s.Next env (.unbounded env) deep t) (hd : depthOf t.run.trace ≤ n) :
    ∃ deeds, first.Tells env deep deeds (.between t) := by
  obtain ⟨id, queue, slot, u, he, hq, hslot, _, _, hturn, rfl⟩ := Next.turn (unbounded_within env) ht h
  have hnode : s.designated id = s.root.at? slot.path := by rw [designated, path?, hslot, Option.map_some, Option.bind_some]
  have hjudge : ∀ e fate g, (s.pop id queue).root.at? slot.path = some (.entity e) →
      overrun env ((s.pop id queue).look id slot e).run id (e.adopt slot.around) = none →
      judge env (.unbounded env) ((s.pop id queue).look id slot e) = some (fate, g) →
      g.run.trace <:+ u.run.trace → ∃ deeds, first.Tells env deep deeds (.between u.measured) := by
    intro e fate g hm ho hj hg
    cases hstop : e.stopped with
    | true => exact ⟨_, .meet deep first s _ deeds _ hs (.closed id queue slot e hq hslot hm ho hstop) h⟩
    | false =>
      have hopen : ((s.pop id queue).look id slot e).isOpen = true := by
        simp [Focus.isOpen, look, Node.entity?, e.stopped_adopt, hstop]
      rw [judge, if_pos hopen] at hj
      obtain ⟨acts, hacts⟩ := (Point.tryAll_iff_does _ g).mp ⟨fate, hj⟩
      obtain ⟨told, htold⟩ := tells_of_does hinner hs ⟨he, id, queue, slot, e, hq, hslot, hm, ho, rfl, hopen⟩ hacts
        (Nat.le_trans (depthOf_le hg) hd)
      by_cases hagain : g.slot ∈ u.measured.queue
      · exact ⟨_, .requeue deep first s _ told g htold h hagain⟩
      · exact ⟨_, .keep deep first s _ told g htold h hagain⟩
  cases hturn with
  | missing hnone =>
    refine ⟨_, .meet deep first s _ deeds _ hs (.pass id queue hq ?_) h⟩
    rw [hnode, show s.root.at? slot.path = none from hnone, Option.bind_none]
  | plain m hm hplain =>
    refine ⟨_, .meet deep first s _ deeds _ hs (.pass id queue hq ?_) h⟩
    rw [hnode, show s.root.at? slot.path = some m from hm, Option.bind_some, hplain]
  | overrun e err hm ho => exact ⟨_, .meet deep first s _ deeds _ hs (.refuse id queue slot e err hq hslot hm ho) h⟩
  | failed e fate g err hm ho hj _ => exact hjudge e fate g hm ho hj (List.suffix_refl _)
  | kept e d g hj _ => exact hjudge e _ g hj.entity hj.allowed hj.judge (List.suffix_refl _)
  | replaced e g hj =>
    exact hjudge e _ g hj.entity hj.allowed hj.judge (Run.Before.countReplacement g.run id _).trace

lemma tells_of_reaches (ht : first.Tidy) (h : first.Reaches env (.unbounded env) deep s)
    (hd : depthOf s.run.trace ≤ n) : ∃ deeds, first.Tells env deep deeds (.between s) := by
  induction h with
  | refl => exact ⟨_, .start deep first⟩
  | tail hr hstep ih =>
    have hbefore := hstep.before (unbounded_within env)
    obtain ⟨deeds, hs⟩ := ih (Nat.le_trans (depthOf_le hbefore.trace) hd)
    exact tells_of_next hinner (ht.reaches (unbounded_within env) hr) hs hstep hd

end Exists

lemma tells_inner (n : Nat) (first s : State) (ht : first.Tidy) (h : first.Reaches env (.unbounded env) true s)
    (hd : depthOf s.run.trace ≤ n) : ∃ deeds, first.Tells env true deeds (.between s) := by
  induction n using Nat.strongRecOn generalizing first s with
  | ind n ih => exact tells_of_reaches ih ht h hd

theorem reached_iff_tells (ht : first.Tidy) : site.Reached env deep first ↔ ∃ deeds, first.Tells env deep deeds site := by
  constructor
  · intro h
    have hinner : ∀ n, ∀ m < n, ∀ first s : State, first.Tidy → first.Reaches env (.unbounded env) true s →
        depthOf s.run.trace ≤ m → ∃ deeds, first.Tells env true deeds (.between s) := fun _ m _ => tells_inner m
    cases site with
    | between s => exact tells_of_reaches (hinner _) ht h (Nat.le_refl _)
    | amid s x =>
      obtain ⟨hr, f, acts, hf, hx⟩ := h
      obtain ⟨deeds, hs⟩ := tells_of_reaches (hinner _) ht hr (Nat.le_refl _)
      exact tells_of_does (hinner _) hs hf hx (Nat.le_refl _)
  · rintro ⟨deeds, h⟩
    exact h.reached

end State

end Bemjson
