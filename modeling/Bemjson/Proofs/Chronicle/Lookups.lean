import Bemjson.Proofs.Chronicle.Counters
import Bemjson.Proofs.Chronicle.Inheritance
import Bemjson.Proofs.Numbering

namespace Bemjson

namespace Site

/-- The sites of an expansion and of all those that its rules ask for, also of such that come to no end. -/
inductive Arises (env : Setting) : Bool → State → Site → Prop
  | here (deep : Bool) (first : State) (site : Site) : site.Reached env deep first → Arises env deep first site
  | inside (deep : Bool) (first s : State) (x : Point) (tree : Node) (next : Node → Body) (k : List Task) (site : Site) :
      (amid s x).Reached env deep first → x.tasks = .body (.call (.expand tree) next) :: k →
      Arises env true (x.focus.inner env tree) site → Arises env deep first site

inductive HoldsSlot : Site → Nat → Prop
  | queued (site : Site) (id : Nat) : id ∈ site.queue → HoldsSlot site id
  | attended (s : State) (x : Point) : HoldsSlot (amid s x) x.focus.slot
  | parent (site : Site) (slot : Slot) (id : Nat) : slot ∈ site.run.slots → slot.parent = some id → HoldsSlot site id

inductive HoldsRule : Site → Nat → Prop
  | candidate (s : State) (x : Point) (cs : List Candidate) (chosen : Bool) (c : Candidate) :
      .candidates cs chosen ∈ x.tasks → c ∈ cs → HoldsRule (amid s x) c.id

end Site

section Trials

variable {env : Setting}

def Task.Listed (env : Setting) : Task → Prop
  | .body _ => True
  | .candidates cs _ => ∀ c ∈ cs, env.index.Lists c

lemma Point.Step.listed {x y : Point} {a : Act} (h : x.Step env a y) (hx : ∀ task ∈ x.tasks, task.Listed env) :
    ∀ task ∈ y.tasks, task.Listed env := by
  cases h with
  | call c next f g r k _ _ =>
    rw [List.forall_mem_cons] at hx ⊢
    exact ⟨trivial, hx.2⟩
  | enter next f k =>
    rw [List.forall_mem_cons] at hx
    rw [List.forall_mem_cons, List.forall_mem_cons]
    exact ⟨fun c hc => .inl hc, trivial, hx.2⟩
  | skip c cs chosen f k _ =>
    rw [List.forall_mem_cons] at hx ⊢
    exact ⟨fun d hd => hx.1 d (List.mem_cons_of_mem c hd), hx.2⟩
  | fire c cs chosen f k _ =>
    rw [List.forall_mem_cons] at hx
    rw [List.forall_mem_cons, List.forall_mem_cons]
    exact ⟨trivial, fun d hd => hx.1 d (List.mem_cons_of_mem c hd), hx.2⟩
  | choose e f k _ =>
    rw [List.forall_mem_cons] at hx ⊢
    refine ⟨fun c hc => ?_, hx.2⟩
    rcases List.mem_append.mp hc with hc | hc
    · exact .inr (.inl ⟨e.block, e.elem, hc⟩)
    · exact .inr (.inr hc)
  | resume cs chosen f k _ _ => exact (List.forall_mem_cons.mp hx).2
  | replace n cs chosen f k => exact (List.forall_mem_cons.mp (List.forall_mem_cons.mp hx).2).2
  | ended cs chosen f k _ => exact (List.forall_mem_cons.mp (List.forall_mem_cons.mp hx).2).2
  | lost f k _ => exact (List.forall_mem_cons.mp hx).2
  | through f k => exact (List.forall_mem_cons.mp hx).2

lemma Point.Does.listed {f : Focus} {acts : List Act} {x : Point} (h : (f.trial env).Does env acts x) :
    ∀ task ∈ x.tasks, task.Listed env := by
  induction h with
  | start => exact List.forall_mem_singleton.mpr fun c hc => .inl hc
  | step acts a y z _ hs ih => exact hs.listed ih

end Trials

namespace Site

variable {env : Setting} {deep : Bool} {first : State} {site : Site}

structure InRange (env : Setting) (site : Site) : Prop where
  counters : site.run.fired.length = env.index.rules.length
  slots : ∀ id, site.HoldsSlot id → id < site.run.slots.length
  rules : ∀ id, site.HoldsRule id → id < env.index.rules.length

lemma Reached.counters (hf : first.Begins env) (h : site.Reached env deep first) :
    site.run.fired.length = env.index.rules.length := by
  obtain ⟨tree, block, visits, journal, hfirst⟩ := hf
  have ht : first.Tidy := hfirst ▸ State.Tidy.start env tree block visits journal
  obtain ⟨deeds, hd⟩ := (State.reached_iff_tells ht).mp h
  have hfired : site.run.Fired env.index.rules.length deeds :=
    (Run.Fired.invariant env).tells hd ⟨tree, block, visits, journal, hfirst⟩
  rw [hfired, List.length_map, List.length_range]

lemma Reached.slots (hf : first.Begins env) (h : site.Reached env deep first) {id : Nat} (hid : site.HoldsSlot id) :
    id < site.run.slots.length := by
  cases hid with
  | queued _ _ hmem =>
    cases site with
    | between s => exact (hf.tidy h).lt hmem
    | amid s x =>
      obtain ⟨hr, f, acts, hv, hx⟩ := h
      obtain ⟨_, _, hlen⟩ := hv.does_known hx
      exact Nat.lt_of_lt_of_eq ((hf.tidy hr).lt (List.mem_of_mem_tail hmem)) hlen.symm
  | attended s x =>
    obtain ⟨hr, f, acts, hv, hx⟩ := h
    obtain ⟨_, hlt, hlen⟩ := hv.does_known hx
    exact Nat.lt_of_lt_of_eq hlt hlen.symm
  | parent _ slot _ hslot hparent =>
    obtain ⟨tree, block, visits, journal, rfl⟩ := hf
    obtain ⟨i, hi⟩ := List.mem_iff_getElem?.mp hslot
    exact ((h.nests.parents i slot id hi hparent).1).trans (List.getElem?_eq_some_iff.mp hi).1

lemma Arises.inRange (hlists : ∀ c, env.index.Lists c → c.id < env.index.rules.length) (h : site.Arises env deep first)
    (hf : first.Begins env) : site.InRange env := by
  induction h with
  | here deep first site hr =>
    refine ⟨hr.counters hf, fun id hid => hr.slots hf hid, fun id hid => ?_⟩
    cases hid with
    | candidate s x cs chosen c htask hc =>
      obtain ⟨_, f, acts, _, hx⟩ := hr
      exact hlists c (hx.listed _ htask c hc)
  | inside deep first s x tree next k site _ _ _ ih => exact ih ⟨tree, _, _, _, rfl⟩

end Site

/-- Rules are numbered as they are registered, from 0 on and without those of a batch that is refused. Each number is in
one place of the index, whatever the order of the rules. In an expansion, and in those within it, numbers of rules are
in the range of the rules, of their labels and of the counters, and numbers of slots in that of the slots. -/
theorem Engine.numbers_in_range {options : Options} {idStart : String} {ops : List Operation} {engine : Engine}
    (h : (fresh options idStart).after ops = engine) :
    ((ops.flatMap Operation.rules).foldl enroll [] = engine.rules.zipIdx ∧
      engine.rules.zipIdx.map Prod.snd = List.range engine.rules.length) ∧
    (engine.index.rules = engine.rules ∧ (engine.rules.map Rule.label).length = engine.rules.length ∧
      (engine.index.entries.map Candidate.id).Perm (List.range engine.rules.length)) ∧
    ∀ deep tree block visits journal site,
      Site.Arises engine.setting deep (.start engine.setting tree block visits journal) site →
        site.InRange engine.setting := by
  subst h
  have hfresh : (fresh options idStart).Sound := nofun
  have hindex := (hfresh.after ops).index
  have hrules := rules_after (fresh options idStart) ops
  refine ⟨⟨?_, ?_⟩, ⟨?_, List.length_map _, ?_⟩, fun deep tree block visits journal site hsite => ?_⟩
  · rw [foldl_enroll, hrules]
    rfl
  · rw [List.zipIdx_map_snd, List.range_eq_range']
  · rw [hindex, RuleIndex.rules_build]
  · rw [hindex]
    exact RuleIndex.ids_build _ _
  · refine hsite.inRange (fun c hc => ?_) ⟨tree, block, visits, journal, rfl⟩
    change ((fresh options idStart).after ops).index.Lists c at hc
    change c.id < ((fresh options idStart).after ops).index.rules.length
    rw [hindex] at hc ⊢
    rw [RuleIndex.rules_build]
    exact RuleIndex.lists_build hc

section Enrolling

def enrolling : List Operation :=
  [.registerAfter (.done none),
    .register [("a", .done none), ("", .done none)],
    .registerBefore (.call (.expand (.entity { block := some "b" })) fun _ => .done none),
    .patch (.object [("ruleOrder", .string "latestFirst")])]

def enrolled : Engine := (Engine.fresh {} "x").after enrolling

def enrolledStart : State := .start enrolled.setting (.entity { block := some "a" }) none 0 {}

def enrolledFocus : Focus := (enrolledStart.pop 0 []).look 0 {} { block := some "a" }

def enrolledPoint : Point :=
  ⟨enrolledFocus.started 1,
    [.body (.call (.expand (.entity { block := some "b" })) fun _ => .done none), .candidates [] false]⟩

lemma enrolled_reached : (Site.amid enrolledStart enrolledPoint).Reached enrolled.setting true enrolledStart := by
  have hvisits : enrolledStart.Visits enrolled.setting enrolledFocus := ⟨rfl, 0, [], _, _, rfl, rfl, rfl, rfl, rfl, rfl⟩
  have hfire : (enrolledFocus.trial enrolled.setting).Step enrolled.setting (.fire 1) enrolledPoint :=
    .fire { id := 1 } [] false enrolledFocus [] rfl
  exact ⟨.refl, enrolledFocus, _, hvisits, hfire.does⟩

def enrolledInner : Site :=
  let s := enrolledPoint.focus.inner enrolled.setting (.entity { block := some "b" })
  .amid s (((s.pop 0 []).look 0 { around := ⟨some "a", none⟩ } { block := some "b" }).trial enrolled.setting)

theorem numbers_in_range_enrolled : (Engine.fresh {} "x").after enrolling = enrolled ∧ enrolled.rules.length = 2 ∧
    Site.Arises enrolled.setting true enrolledStart enrolledInner ∧
      enrolledInner.HoldsRule 1 ∧ 1 < enrolled.index.rules.length ∧
      enrolledInner.HoldsSlot 0 ∧ 0 < enrolledInner.run.slots.length := by
  have hreach : (Engine.fresh {} "x").after enrolling = enrolled := rfl
  obtain ⟨_, _, hsites⟩ := Engine.numbers_in_range hreach
  have hinner : enrolledInner.Reached enrolled.setting true
      (enrolledPoint.focus.inner enrolled.setting (.entity { block := some "b" })) :=
    ⟨.refl, _, [], ⟨rfl, 0, [], _, _, rfl, rfl, rfl, rfl, rfl, rfl⟩, .start⟩
  have harises : Site.Arises enrolled.setting true enrolledStart enrolledInner :=
    .inside true _ _ enrolledPoint _ _ _ _ enrolled_reached rfl (.here true _ _ hinner)
  have hrange := hsites true _ none 0 {} _ harises
  have hrule : enrolledInner.HoldsRule 1 :=
    .candidate _ _ [{ id := 1 }] false { id := 1 } (List.mem_singleton_self _) (List.mem_singleton_self _)
  have hslot : enrolledInner.HoldsSlot 0 := .attended _ _
  exact ⟨hreach, rfl, harises, hrule, hrange.rules 1 hrule, hslot, hrange.slots 0 hslot⟩

end Enrolling

end Bemjson
