import Bemjson.Proofs.Acts
import Bemjson.Proofs.Coverage
import Bemjson.Proofs.LoopGuard.Ends

namespace Bemjson

def Node.isOpen (n : Node) : Bool := n.entity?.any fun e => !e.stopped

lemma Focus.isOpen_eq (f : Focus) : f.isOpen = f.node.isOpen := by
  unfold Focus.isOpen Node.isOpen
  cases f.node.entity? <;> rfl

section Closing

variable {env : Setting}

lemma Focus.closed_mapEntity {f : Focus} (h : f.isOpen = false) {c : Entity → Entity}
    (hc : ∀ e, e.stopped = true → (c e).stopped = true) : (f.mapEntity c).isOpen = false := by
  rw [Focus.isOpen_eq] at h ⊢
  cases hn : f.node with
  | entity e =>
    have he : e.stopped = true := by simpa [Node.isOpen, Node.entity?, hn] using h
    simp [Focus.mapEntity, Node.isOpen, Node.mapEntity, Node.entity?, hn, hc e he]
  | _ => simp [Focus.mapEntity, Node.isOpen, Node.mapEntity, Node.entity?, hn]

lemma Focus.closed_stop (f : Focus) : (f.mapEntity fun e => { e with stopped := true }).isOpen = false := by
  rw [Focus.isOpen_eq]
  cases hn : f.node <;> simp [Focus.mapEntity, Node.isOpen, Node.mapEntity, Node.entity?, hn]

lemma perform_closed {c : Call} {f g : Focus} {r : c.Reply} (hc : c ≠ .tryRest)
    (h : c.perform env (.unbounded env) f = some (r, g)) (hf : f.isOpen = false) : g.isOpen = false := by
  cases c with
  | edit change force =>
    cases h
    exact Focus.closed_mapEntity hf fun e he => (e.stopped_edit force change).trans he
  | stop =>
    cases h
    exact f.closed_stop
  | tryRest => exact absurd rfl hc
  | expand tree =>
    obtain ⟨_, s, _, hs⟩ := (expand_unbounded env tree f (r, g)).mp h
    have hg : g.node = f.node := by
      rw [← node_absorb f s, hs]
    rwa [Focus.isOpen_eq, hg, ← Focus.isOpen_eq]
  | _ =>
    cases h
    exact hf

lemma Point.Step.closed {x y : Point} {a : Act} (h : x.Step env a y) (hx : x.focus.isOpen = false)
    (hr : ∀ n, a = .replace n → n.isOpen = false) : y.focus.isOpen = false := by
  cases h with
  | call c next f g r k hc hp => exact perform_closed hc hp hx
  | fire c cs chosen f k ha => exact Focus.closed_mapEntity hx fun _ he => he
  | replace n cs chosen f k =>
    rw [Focus.isOpen_eq]
    exact hr n rfl
  | _ => exact hx

lemma Point.Step.stop {x y : Point} (h : x.Step env (.call .stop) y) : y.focus.isOpen = false := by
  cases h with
  | call c next f g r k hc hp =>
    cases hp
    exact f.closed_stop

lemma Point.Does.closed {x y : Point} {acts : List Act} (h : x.Does env acts y) (hx : x.focus.isOpen = false)
    (hr : ∀ n, .replace n ∈ acts → n.isOpen = false) : y.focus.isOpen = false := by
  induction h with
  | start => exact hx
  | step acts a y z _ hs ih =>
    apply hs.closed (ih fun n hn => hr n (List.mem_append_left _ hn))
    rintro n rfl
    exact hr n (List.mem_append_right _ (List.mem_singleton_self _))

end Closing

section Entering

variable {env : Setting}

def JustEntered (acts : List Act) : Prop :=
  ∃ earlier passed, acts = earlier ++ .enter :: passed ∧ ∀ a ∈ passed, a = .skip ∨ a = .choose

lemma JustEntered.enter (acts : List Act) : JustEntered (acts ++ [.enter]) := ⟨acts, [], rfl, by simp⟩

lemma JustEntered.pass {acts : List Act} (h : JustEntered acts) {a : Act} (ha : a = .skip ∨ a = .choose) :
    JustEntered (acts ++ [a]) := by
  obtain ⟨earlier, passed, rfl, hp⟩ := h
  refine ⟨earlier, passed ++ [a], by simp, fun b hb => ?_⟩
  rcases List.mem_append.mp hb with hb | hb
  · exact hp b hb
  · obtain rfl := List.mem_singleton.mp hb
    exact ha

lemma JustEntered.after {before after : List Act} {a : Act} (h : JustEntered (before ++ a :: after))
    (ha : a ≠ .enter ∧ a ≠ .skip ∧ a ≠ .choose) : JustEntered after := by
  obtain ⟨earlier, passed, he, hp⟩ := h
  rcases List.append_eq_append_iff.mp he with ⟨l, rfl, hl⟩ | ⟨l, rfl, hl⟩
  · cases l with
    | nil => exact absurd (List.cons.inj hl).1 ha.1
    | cons b l => exact ⟨l, passed, (List.cons.inj hl).2, hp⟩
  · cases l with
    | nil => exact absurd (List.cons.inj hl).1.symm ha.1
    | cons b l =>
      have hmem : a ∈ passed := by simp [(List.cons.inj hl).2]
      rcases hp a hmem with h | h
      · exact absurd h ha.2.1
      · exact absurd h ha.2.2

def paired : List Task → Prop
  | [] => True
  | .body _ :: .candidates _ _ :: k => paired k
  | _ => False

/-- Where candidates are next for a node that is closed, the trial of them has only just begun. -/
inductive Point.Guarded (acts : List Act) : Point → Prop
  | running (f : Focus) (k : List Task) : paired k → Guarded acts ⟨f, k⟩
  | trying (cs : List Candidate) (chosen : Bool) (f : Focus) (k : List Task) : paired k →
      (f.isOpen = false → JustEntered acts) → Guarded acts ⟨f, .candidates cs chosen :: k⟩

lemma paired_body {p q : Body} {k : List Task} (h : paired (.body p :: k)) : paired (.body q :: k) := by
  cases k with
  | nil => exact h
  | cons task k => cases task <;> exact h

lemma Point.Guarded.step {acts : List Act} {x y : Point} {a : Act} (hx : x.Guarded acts) (h : x.Step env a y) :
    y.Guarded (acts ++ [a]) := by
  cases h with
  | call c next f g r k hc hp =>
    cases hx with
    | running _ _ hk => exact .running g _ (paired_body hk)
  | enter next f k =>
    cases hx with
    | running _ _ hk => exact .trying _ false f _ (paired_body hk) fun _ => .enter acts
  | skip c cs chosen f k hn =>
    cases hx with
    | running _ _ hk => cases hk
    | trying _ _ _ _ hk hclosed => exact .trying cs chosen f k hk fun hf => (hclosed hf).pass (Or.inl rfl)
  | fire c cs chosen f k ha =>
    cases hx with
    | running _ _ hk => cases hk
    | trying _ _ _ _ hk _ => exact .running _ _ hk
  | replace n cs chosen f k =>
    cases hx with
    | running _ _ hk => exact .running _ k hk
  | resume cs chosen f k hr ho =>
    -- only an open node lets the candidates below a body go on, so nothing is due here
    cases hx with
    | running _ _ hk => exact .trying cs chosen f k hk fun hf => by simp [ho] at hf
  | ended cs chosen f k hr =>
    cases hx with
    | running _ _ hk => exact .running f k hk
  | choose e f k he =>
    cases hx with
    | running _ _ hk => cases hk
    | trying _ _ _ _ hk hclosed => exact .trying _ true f k hk fun hf => (hclosed hf).pass (Or.inr rfl)
  | lost f k he =>
    cases hx with
    | running _ _ hk => cases hk
    | trying _ _ _ _ hk _ => exact .running f k hk
  | through f k =>
    cases hx with
    | running _ _ hk => cases hk
    | trying _ _ _ _ hk _ => exact .running f k hk

lemma Point.Does.guarded {f : Focus} (hf : f.isOpen = true) {acts : List Act} {x : Point}
    (h : (f.trial env).Does env acts x) : x.Guarded acts := by
  induction h with
  | start => exact .trying _ _ _ [] trivial fun hn => by simp [hf] at hn
  | step acts a y z _ hs ih => exact ih.step hs

lemma Point.Does.fire_closed {f : Focus} (hf : f.isOpen = true) {acts : List Act} {x y : Point} {rule : Nat}
    (h : (f.trial env).Does env acts x) (hx : x.focus.isOpen = false) (hs : x.Step env (.fire rule) y) :
    JustEntered acts := by
  have hg := h.guarded hf
  cases hs with
  | fire c cs chosen g k ha =>
    cases hg with
    | running _ _ hk => cases hk
    | trying _ _ _ _ _ hclosed => exact hclosed hx

end Entering

namespace State

variable {env : Setting} {nested : Nested} {deep : Bool} {s t u : State} {id : Nat}

def Spent (s : State) (id : Nat) : Prop :=
  (∃ p, s.path? id = some p) ∧ (id ∈ s.queue → ∃ n, s.designated id = some n ∧ n.isOpen = false)

lemma judge_closed {slot : Slot} {e : Entity} (h : (Node.entity e).isOpen = false) {r : Fate × Focus}
    (hj : judge env nested (s.look id slot e) = some r) : r = (.kept, s.look id slot e) := by
  have hstopped : (e.adopt slot.around).stopped = true := by
    rw [e.stopped_adopt]
    simpa [Node.isOpen, Node.entity?] using h
  rw [judge_look, if_pos hstopped] at hj
  exact (Option.some.inj hj).symm

lemma Spent.next (hn : nested.Within Focus.Onward) (ht : s.Tidy) (hs : s.Spent id) (h : s.Next env nested deep t) :
    t.Spent id := by
  obtain ⟨head, queue, slot, u, _, hq, _, hpop, hh, hturn, rfl⟩ := Next.turn hn ht h
  obtain ⟨⟨p, hp⟩, hnode⟩ := hs
  refine ⟨⟨p, hturn.path?_old hn hp⟩, fun hmem => ?_⟩
  by_cases hid : id = head
  · -- Its own turn cannot bring it back into the queue.
    subst hid
    cases hturn.effect hn with
    | still r root _ _ _ => exact absurd hmem hh.absent
    | grown r m n kids hr _ _ _ => exact absurd hmem (not_mem_grow hr _ _ hh.path hh.absent)
    | requeued r e f _ hj =>
      obtain ⟨n, hd, hclosed⟩ := hnode (by simp [hq])
      have he : s.designated id = some (.entity e) := (designated_of_path? hh.path).trans hj.entity
      obtain rfl := Option.some.inj (hd.symm.trans he)
      cases judge_closed hclosed hj.judge
  · by_cases hwaits : id ∈ queue
    · obtain ⟨n, hd, hclosed⟩ := hnode (by simp [hq, hwaits])
      exact ⟨n, ((hturn.tidy hn hpop hh).2 id hwaits).2.trans hd, hclosed⟩
    · exact absurd hmem (hturn.not_mem_queue hn hp hid hwaits)

lemma Spent.reaches (hn : nested.Within Focus.Onward) (ht : s.Tidy) (hs : s.Spent id) (h : s.Reaches env nested deep t) :
    t.Spent id := by
  induction h with
  | refl => exact hs
  | tail hr hstep ih => exact ih.next hn (ht.reaches hn hr) hstep

lemma Spent.not_visits (hs : s.Spent id) {f : Focus} (hf : s.Visits env f) : f.slot ≠ id := by
  rintro rfl
  obtain ⟨_, id, queue, slot, e, hq, hslot, hm, _, rfl, hopen⟩ := hf
  obtain ⟨n, hd, hclosed⟩ := hs.2 (by simp [hq, look])
  have hp : s.path? id = some slot.path := by rw [path?, hslot, Option.map_some]
  have he : s.designated id = some (.entity e) := (designated_of_path? hp).trans hm
  obtain rfl := Option.some.inj (hd.symm.trans he)
  simp only [Node.isOpen, Node.entity?, Option.any_some, Bool.not_eq_false'] at hclosed
  simp [Focus.isOpen, look, Node.entity?, e.stopped_adopt, hclosed] at hopen

lemma Visits.spent (ht : s.Tidy) {f g : Focus} {fate : Fate} (hf : s.Visits env f)
    (hj : tryAll env (.unbounded env) f = some (fate, g)) (hg : g.isOpen = false) (h : s.Next env (.unbounded env) deep t)
    (he : t.run.error = none) : t.Spent f.slot := by
  have hn := unbounded_within env
  obtain ⟨_, id, queue, slot, e, hq, hslot, hm, ho, rfl, hopen⟩ := hf
  obtain ⟨id', queue', slot', u, _, hq', hslot', _, hh, hturn, rfl⟩ := Next.turn hn ht h
  obtain ⟨rfl, rfl⟩ := List.cons.inj (hq.symm.trans hq')
  obtain rfl := Option.some.inj (hslot.symm.trans hslot')
  have hp := hturn.path?_old hn hh.path
  refine ⟨⟨slot.path, hp⟩, fun hmem => ?_⟩
  cases hturn.effect hn with
  | still r root _ _ hover =>
    rcases hover with herr | hnone
    · have he : r.error = none := he
      simp [he] at herr
    · cases hm.symm.trans hnone
  | grown r m n kids hr _ _ _ => exact absurd hmem (not_mem_grow hr _ _ hh.path hh.absent)
  | requeued r d f _ hj' =>
    obtain rfl := Node.entity.inj (Option.some.inj (hm.symm.trans hj'.entity))
    have hjudge := hj'.judge
    rw [judge, if_pos hopen, hj] at hjudge
    obtain rfl := congrArg Prod.snd (Option.some.inj hjudge)
    have hat := Node.at?_setAt s.root g.node slot.path
    rw [hm, Option.map_some] at hat
    exact ⟨g.node, (designated_of_path? hp).trans hat, g.isOpen_eq ▸ hg⟩

lemma Visits.not_again (ht : s.Tidy) {f g : Focus} {fate : Fate} (hf : s.Visits env f)
    (hj : tryAll env (.unbounded env) f = some (fate, g)) (hg : g.isOpen = false) (h : s.Next env (.unbounded env) deep t)
    (hu : t.Reaches env (.unbounded env) deep u) {f' : Focus} (hf' : u.Visits env f') : f'.slot ≠ f.slot := by
  have hn := unbounded_within env
  cases he : t.run.error with
  | none => exact ((Visits.spent ht hf hj hg h he).reaches hn (ht.next hn h) hu).not_visits hf'
  | some err =>
    have hover : t.Over := Or.inl (by rw [he]; rfl)
    rcases Relation.ReflTransGen.cases_head hu with rfl | ⟨v, hv, _⟩
    · exact absurd (hf'.1.symm.trans he) (by simp)
    · exact absurd hv (not_next_of_over hover)

end State

/-- Once a rule has stopped a node, and until a rule that is running puts an open one in its place, rules are run on it
only where a running rule has the remaining rules tried, one rule each time. When the trial is over no rule is tried
for its slot again. -/
theorem fire_after_stop (env : Setting) {deep : Bool} {tree : Node} {block : Option String} {visits : Nat}
    {journal : Journal} {s : State} {f : Focus}
    (hs : (State.start env tree block visits journal).Reaches env (.unbounded env) deep s) (hf : s.Visits env f) :
    (∀ g, (∃ fate, tryAll env (.unbounded env) f = some (fate, g)) ↔ ∃ acts, (f.trial env).Does env acts ⟨g, []⟩) ∧
      ∀ before after x, (f.trial env).Does env (before ++ .call .stop :: after) x →
        (∀ n, .replace n ∈ after → n.isOpen = false) →
        (∀ rule y, x.Step env (.fire rule) y → JustEntered after) ∧
          ∀ t u g, x.tasks = [] → s.Next env (.unbounded env) deep t → t.Reaches env (.unbounded env) deep u →
            u.Visits env g → g.slot ≠ f.slot := by
  have ht : s.Tidy := (State.Tidy.start env tree block visits journal).reaches (unbounded_within env) hs
  have hopen : f.isOpen = true := by
    obtain ⟨_, _, _, _, _, _, _, _, _, _, hopen⟩ := hf
    exact hopen
  refine ⟨fun g => Point.tryAll_iff_does f g, fun before after x hx hr => ?_⟩
  have hclosed : x.focus.isOpen = false := by
    obtain ⟨_, _, _, hstop, hafter⟩ := hx.split
    exact hafter.closed hstop.stop hr
  constructor
  · intro rule y hstep
    exact (hx.fire_closed hopen hclosed hstep).after ⟨nofun, nofun, nofun⟩
  · rintro t u g hdone hnext hu hg
    obtain ⟨g', tasks⟩ := x
    subst hdone
    obtain ⟨fate, hj⟩ := (Point.tryAll_iff_does f g').mpr ⟨_, hx⟩
    exact hf.not_again ht hj hclosed hnext hu hg

section Stopping

def stopping : Engine where
  rules := [⟨.selector { block := { name := "a", cond := none }, elem := none },
      .call .stop fun _ => .call .tryRest fun _ => .done none⟩,
    ⟨.selector { block := { name := "a", cond := none }, elem := none },
      .call (.edit (.attr "x" (.string "1")) false) fun _ => .done none⟩]

def stoppingStart : State := .start stopping.setting (.entity { block := some "a" }) none 0 {}

def stoppingFocus : Focus := (stoppingStart.pop 0 []).look 0 {} { block := some "a" }

lemma stopping_visits : stoppingStart.Visits stopping.setting stoppingFocus :=
  ⟨rfl, 0, [], _, _, rfl, rfl, rfl, rfl, rfl, rfl⟩

lemma stopping_choose {f : Focus} {e : Entity} (k : List Task) (h : f.node.entity? = some e) (hb : e.block = some "a")
    (he : e.elem = none) : Point.Step stopping.setting ⟨f, .candidates [] false :: k⟩ .choose
      ⟨f, .candidates [{ id := 0 }, { id := 1 }] true :: k⟩ := by
  have hs : Point.Step stopping.setting ⟨f, .candidates [] false :: k⟩ .choose _ := .choose e f k h
  rw [hb, he] at hs
  exact hs

lemma stopping_does : ∃ x y,
    (stoppingFocus.trial stopping.setting).Does stopping.setting
      ([.choose, .fire 0] ++ .call .stop :: [.enter, .choose, .skip]) x ∧
    x.Step stopping.setting (.fire 1) y := by
  have hrun := Point.Does.cons (stopping_choose [] (f := stoppingFocus) rfl rfl rfl)
    (.cons (.fire _ _ true _ [] rfl) (.cons (.call .stop _ _ _ () _ nofun rfl) (.cons (.enter _ _ _)
      (.cons (stopping_choose _ rfl rfl rfl) (.cons (.skip _ _ true _ _ Bool.false_ne_true) .start)))))
  exact ⟨_, _, hrun, .fire _ _ true _ _ rfl⟩

theorem fire_after_stop_of_entered : ∃ x y, stoppingStart.Visits stopping.setting stoppingFocus ∧
    (stoppingFocus.trial stopping.setting).Does stopping.setting
      ([.choose, .fire 0] ++ .call .stop :: [.enter, .choose, .skip]) x ∧
    x.Step stopping.setting (.fire 1) y ∧ JustEntered [.enter, .choose, .skip] := by
  obtain ⟨x, y, hx, hy⟩ := stopping_does
  have hreaches : stoppingStart.Reaches stopping.setting (.unbounded stopping.setting) true stoppingStart := .refl
  have hafter := (fire_after_stop stopping.setting hreaches stopping_visits).2 _ _ x hx (by simp)
  exact ⟨x, y, stopping_visits, hx, hy, hafter.1 1 y hy⟩

theorem stopping_fires_both :
    (stopping.expand 5 (.entity { block := some "a" }) none true {}).map (fun s => (s.run.fired, s.run.replacements)) =
      some ([1, 1], 0) ∧
    stoppingStart.Visits stopping.setting stoppingFocus ∧
    ¬∀ before after x y rule,
      (stoppingFocus.trial stopping.setting).Does stopping.setting (before ++ .call .stop :: after) x →
      (∀ n, .replace n ∈ after → n.isOpen = false) → ¬x.Step stopping.setting (.fire rule) y := by
  refine ⟨rfl, stopping_visits, fun h => ?_⟩
  obtain ⟨x, y, hx, hy⟩ := stopping_does
  exact h _ _ x y 1 hx (by simp) hy

end Stopping

end Bemjson
