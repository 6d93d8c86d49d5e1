import Bemjson.Proofs.LoopGuard.Calls
import Mathlib.Data.List.Induction

/-! A trial of the rules as one act after the other, with the rules that are at work at each point of it. -/

namespace Bemjson

/-- What is still to be done for a node: the rest of a body, or the candidates that are left. Once those for all nodes
are through, the ones for its block and element are `chosen`. -/
inductive Task where
  | body (p : Body)
  | candidates (cs : List Candidate) (chosen : Bool)

structure Point where
  focus : Focus
  tasks : List Task

inductive Act where
  | call (c : Call)
  | enter
  | skip
  | choose
  | fire (rule : Nat)
  | replace (n : Node)
  | resume
  | leave

def RuleIndex.body (index : RuleIndex) (id : Nat) : Body := (index.rules[id]?.map Rule.body).getD (.done none)

/-- A body always stands right above the candidates that come after its rule. -/
inductive Point.Step (env : Setting) : Point → Act → Point → Prop
  | call (c : Call) (next : c.Reply → Body) (f g : Focus) (r : c.Reply) (k : List Task) : c ≠ .tryRest →
      c.perform env (.unbounded env) f = some (r, g) →
      Step env ⟨f, .body (.call c next) :: k⟩ (.call c) ⟨g, .body (next r) :: k⟩
  | enter (next : Unit → Body) (f : Focus) (k : List Task) :
      Step env ⟨f, .body (.call .tryRest next) :: k⟩ .enter
        ⟨f, .candidates env.index.before false :: .body (next ()) :: k⟩
  | skip (c : Candidate) (cs : List Candidate) (chosen : Bool) (f : Focus) (k : List Task) :
      ¬f.node.entity?.any c.accepts →
      Step env ⟨f, .candidates (c :: cs) chosen :: k⟩ .skip ⟨f, .candidates cs chosen :: k⟩
  | fire (c : Candidate) (cs : List Candidate) (chosen : Bool) (f : Focus) (k : List Task) :
      f.node.entity?.any c.accepts →
      Step env ⟨f, .candidates (c :: cs) chosen :: k⟩ (.fire c.id)
        ⟨f.started c.id, .body (env.index.body c.id) :: .candidates cs chosen :: k⟩
  | replace (n : Node) (cs : List Candidate) (chosen : Bool) (f : Focus) (k : List Task) :
      Step env ⟨f, .body (.done (some n)) :: .candidates cs chosen :: k⟩ (.replace n) ⟨f.replace n, k⟩
  | resume (cs : List Candidate) (chosen : Bool) (f : Focus) (k : List Task) : f.replaced = false → f.isOpen = true →
      Step env ⟨f, .body (.done none) :: .candidates cs chosen :: k⟩ .resume ⟨f, .candidates cs chosen :: k⟩
  | ended (cs : List Candidate) (chosen : Bool) (f : Focus) (k : List Task) : (f.replaced = false → f.isOpen = false) →
      Step env ⟨f, .body (.done none) :: .candidates cs chosen :: k⟩ .leave ⟨f, k⟩
  | choose (e : Entity) (f : Focus) (k : List Task) : f.node.entity? = some e →
      Step env ⟨f, .candidates [] false :: k⟩ .choose
        ⟨f, .candidates (env.index.candidates e.block e.elem ++ env.index.after) true :: k⟩
  | lost (f : Focus) (k : List Task) : f.node.entity? = none →
      Step env ⟨f, .candidates [] false :: k⟩ .leave ⟨f, k⟩
  | through (f : Focus) (k : List Task) : Step env ⟨f, .candidates [] true :: k⟩ .leave ⟨f, k⟩

inductive Point.Does (env : Setting) (x : Point) : List Act → Point → Prop
  | start : Does env x [] x
  | step (acts : List Act) (a : Act) (y z : Point) : Does env x acts y → y.Step env a z → Does env x (acts ++ [a]) z

def Focus.trial (env : Setting) (f : Focus) : Point := ⟨f, [.candidates env.index.before false]⟩

namespace Point

variable {env : Setting} {nested : Nested}

lemma Step.does {x y : Point} {a : Act} (h : x.Step env a y) : x.Does env [a] y := .step [] a x y .start h

lemma does_append {x z : Point} {first later : List Act} :
    x.Does env (first ++ later) z ↔ ∃ y, x.Does env first y ∧ y.Does env later z := by
  constructor
  · intro h
    induction later using List.reverseRecOn generalizing z with
    | nil => exact ⟨z, by simpa using h, .start⟩
    | append_singleton later a ih =>
      rw [← List.append_assoc] at h
      generalize hacts : first ++ later ++ [a] = acts at h
      cases h with
      | start => simp at hacts
      | step acts b y _ hy hs =>
        obtain ⟨rfl, rfl⟩ := List.append_singleton_inj.mp hacts
        obtain ⟨w, hw, hl⟩ := ih hy
        exact ⟨w, hw, .step later a y z hl hs⟩
  · rintro ⟨y, hy, hz⟩
    induction hz with
    | start => simpa using hy
    | step later a w z _ hs ih => simpa using Does.step _ a w z ih hs

lemma Does.split {x z : Point} {first later : List Act} {a : Act} (h : x.Does env (first ++ a :: later) z) :
    ∃ y w, x.Does env first y ∧ y.Step env a w ∧ w.Does env later z := by
  rw [List.append_cons] at h
  obtain ⟨w, hw, hz⟩ := does_append.mp h
  generalize hacts : first ++ [a] = acts at hw
  cases hw with
  | start => simp at hacts
  | step acts b y _ hy hs =>
    obtain ⟨rfl, rfl⟩ := List.append_singleton_inj.mp hacts
    exact ⟨y, w, hy, hs, hz⟩

lemma Does.cons {x y z : Point} {a : Act} {acts : List Act} (h : x.Step env a y) (hz : y.Does env acts z) :
    x.Does env (a :: acts) z := by
  have hall : x.Does env ([a] ++ acts) z := does_append.mpr ⟨y, h.does, hz⟩
  exact hall

section Forward

def Leads (env : Setting) (x y : Point) : Prop := ∃ acts, x.Does env acts y

lemma Leads.refl (x : Point) : x.Leads env x := ⟨[], .start⟩

lemma Leads.trans {x y z : Point} (hxy : x.Leads env y) (hyz : y.Leads env z) : x.Leads env z := by
  obtain ⟨first, hf⟩ := hxy
  obtain ⟨later, hl⟩ := hyz
  exact ⟨first ++ later, does_append.mpr ⟨y, hf, hl⟩⟩

lemma Leads.step {x y z : Point} {a : Act} (h : x.Step env a y) (hyz : y.Leads env z) : x.Leads env z :=
  Leads.trans ⟨[a], h.does⟩ hyz

lemma fire_eq_body (env : Setting) (nested : Nested) (id : Nat) (f : Focus) :
    Bemjson.fire env nested id f = ((env.index.body id).exec env nested (f.started id)).map fun
      | (some node, f) => (true, f.replace node)
      | (none, f) => (f.replaced, f) := by
  cases h : env.index.rules[id]? with
  | none =>
    simp only [Bemjson.fire, RuleIndex.body, h]
    rfl
  | some rule =>
    rw [fire_eq env nested h]
    simp only [RuleIndex.body, h]
    rfl

variable (hle : nested.Le (.unbounded env))
variable (hrest : ∀ f g, nested.tryRest f = some g → ∀ k : List Task,
  Leads env ⟨f, .candidates env.index.before false :: k⟩ ⟨g, k⟩)
include hle hrest

lemma leads_exec {p : Body} {f g : Focus} {r : Option Node} (h : p.exec env nested f = some (r, g)) (k : List Task) :
    Leads env ⟨f, .body p :: k⟩ ⟨g, .body (.done r) :: k⟩ := by
  induction p generalizing f with
  | done a =>
    cases h
    exact .refl _
  | call c next ih =>
    obtain ⟨⟨reply, f'⟩, hc, hp⟩ := Option.bind_eq_some_iff.mp h
    by_cases hcall : c = .tryRest
    · subst hcall
      obtain ⟨g', hg, he⟩ := Option.map_eq_some_iff.mp hc
      cases he
      exact .step (.enter next f k) ((hrest f f' hg _).trans (ih () hp))
    · have hsame := (perform_finitary env f c).mono _ _ _ hle hc
      exact .step (.call c next f f' reply k hcall hsame) (ih reply hp)

lemma leads_tryRules {cs : List Candidate} {f g : Focus} {ended : Option Fate} (chosen : Bool) (k : List Task)
    (h : tryRules env nested cs f = some (ended, g)) :
    Leads env ⟨f, .candidates cs chosen :: k⟩ ⟨g, if ended.isSome then k else .candidates [] chosen :: k⟩ := by
  induction cs generalizing f with
  | nil =>
    cases h
    exact .refl _
  | cons c cs ih =>
    simp only [tryRules] at h
    split at h
    · rename_i haccepts
      obtain ⟨⟨b, f'⟩, hf, he⟩ := Option.bind_eq_some_iff.mp h
      rw [fire_eq_body] at hf
      obtain ⟨⟨ending, f''⟩, hexec, hend⟩ := Option.map_eq_some_iff.mp hf
      refine .step (.fire c cs chosen f k haccepts) ((leads_exec hle hrest hexec _).trans ?_)
      cases ending with
      | some n =>
        cases hend
        cases he
        exact .step (.replace n cs chosen f'' k) (.refl _)
      | none =>
        obtain ⟨rfl, rfl⟩ := Prod.ext_iff.mp hend
        cases hr : f''.replaced with
        | true =>
          simp only [hr] at he
          cases he
          exact .step (.ended cs chosen _ k (fun hn => by simp [hr] at hn)) (.refl _)
        | false =>
          simp only [hr] at he
          split at he
          · rename_i ho
            exact .step (.resume cs chosen _ k hr ho) (ih he)
          · rename_i ho
            cases he
            exact .step (.ended cs chosen _ k fun _ => by simpa using ho) (.refl _)
    · rename_i haccepts
      exact .step (.skip c cs chosen f k haccepts) (ih h)

lemma leads_tryAll {f g : Focus} {fate : Fate} (h : tryAll env nested f = some (fate, g)) (k : List Task) :
    Leads env ⟨f, .candidates env.index.before false :: k⟩ ⟨g, k⟩ := by
  obtain ⟨⟨ended, f'⟩, hf, he⟩ := Option.bind_eq_some_iff.mp h
  have hfirst := leads_tryRules hle hrest false k hf
  cases ended with
  | some fate' =>
    cases he
    exact hfirst
  | none =>
    refine hfirst.trans ?_
    simp only at he
    split at he
    · rename_i hn
      cases he
      exact .step (.lost _ k hn) (.refl _)
    · rename_i e hn
      obtain ⟨⟨ended', g'⟩, hg, heq⟩ := Option.map_eq_some_iff.mp he
      cases heq
      have hlater := leads_tryRules hle hrest true k hg
      refine .step (.choose e f' k hn) (hlater.trans ?_)
      cases ended' with
      | some fate' => exact .refl _
      | none => exact .step (.through g' k) (.refl _)

omit hle hrest

lemma leads_tryRest (fuel : Nat) (f g : Focus) (h : (Nested.ofFuel env fuel).tryRest f = some g) (k : List Task) :
    Leads env ⟨f, .candidates env.index.before false :: k⟩ ⟨g, k⟩ := by
  induction fuel generalizing f g k with
  | zero => cases h
  | succ fuel ih =>
    obtain ⟨⟨fate, g'⟩, hf, rfl⟩ := Option.map_eq_some_iff.mp h
    exact leads_tryAll (ofFuel_le env fuel) (fun f g h k => ih f g h k) hf k

end Forward

section Backward

noncomputable def tryChosen (env : Setting) : Bool → Focus → Option Focus
  | true, f => some f
  | false, f =>
    match f.node.entity? with
    | none => some f
    | some e =>
      (tryRules env (.unbounded env) (env.index.candidates e.block e.elem ++ env.index.after) f).map Prod.snd

noncomputable def tryFrom (env : Setting) (cs : List Candidate) (chosen : Bool) (f : Focus) : Option Focus :=
  (tryRules env (.unbounded env) cs f).bind fun
    | (some _, f) => some f
    | (none, f) => tryChosen env chosen f

noncomputable def finish (env : Setting) : List Task → Focus → Option Focus
  | [], f => some f
  | .candidates cs chosen :: k, f => (tryFrom env cs chosen f).bind (finish env k)
  | .body p :: .candidates cs chosen :: k, f =>
    (p.exec env (.unbounded env) f).bind fun
      | (some n, f) => finish env k (f.replace n)
      | (none, f) => if f.replaced = false ∧ f.isOpen = true then (tryFrom env cs chosen f).bind (finish env k)
        else finish env k f
  | .body _ :: _, _ => none

lemma tryRest_unbounded_eq (f : Focus) :
    (Nested.unbounded env).tryRest f = (tryAll env (.unbounded env) f).map Prod.snd := by
  apply Option.ext
  intro g
  rw [tryRest_unbounded, Option.map_eq_some_iff]
  exact ⟨fun ⟨fate, h⟩ => ⟨_, h, rfl⟩, fun ⟨r, h, hg⟩ => ⟨r.1, hg ▸ h⟩⟩

lemma tryFrom_before (f : Focus) :
    tryFrom env env.index.before false f = (tryAll env (.unbounded env) f).map Prod.snd := by
  rw [tryFrom, tryAll, Option.map_bind]
  congr 1
  funext r
  obtain ⟨_ | fate, g⟩ := r
  · cases hg : g.node.entity? <;> simp [tryChosen, hg, Function.comp_def]
  · rfl

lemma tryFrom_skip {c : Candidate} (cs : List Candidate) (chosen : Bool) {f : Focus}
    (h : ¬f.node.entity?.any c.accepts) : tryFrom env (c :: cs) chosen f = tryFrom env cs chosen f := by
  rw [tryFrom, tryRules, if_neg h, tryFrom]

lemma tryFrom_fire {c : Candidate} (cs : List Candidate) (chosen : Bool) {f : Focus}
    (h : f.node.entity?.any c.accepts) (k : List Task) :
    (tryFrom env (c :: cs) chosen f).bind (finish env k) =
      finish env (.body (env.index.body c.id) :: .candidates cs chosen :: k) (f.started c.id) := by
  rw [tryFrom, tryRules, if_pos h, fire_eq_body, finish, Option.bind_map, Option.bind_assoc, Option.bind_assoc]
  congr 1
  funext r
  obtain ⟨_ | n, g⟩ := r
  · cases hr : g.replaced <;> cases ho : g.isOpen <;> simp [hr, ho, tryFrom, Option.bind_assoc]
  · rfl

lemma tryFrom_choose {f : Focus} {e : Entity} (h : f.node.entity? = some e) :
    tryFrom env [] false f = tryFrom env (env.index.candidates e.block e.elem ++ env.index.after) true f := by
  simp only [tryFrom, tryRules, Option.bind_some, tryChosen, h, Option.map_eq_bind]
  congr 1
  funext r
  obtain ⟨_ | fate, g⟩ := r <;> rfl

lemma Step.finish_eq {x y : Point} {a : Act} (h : x.Step env a y) :
    finish env x.tasks x.focus = finish env y.tasks y.focus := by
  cases h with
  | call c next f g r k hc hp =>
    cases k with
    | nil => rfl
    | cons task k =>
      cases task with
      | body p => rfl
      | candidates cs chosen => simp only [finish, Program.exec, hp, Option.bind_some]
  | enter next f k =>
    cases k with
    | nil => simp [finish]
    | cons task k =>
      cases task with
      | body p => simp [finish]
      | candidates cs chosen =>
        simp only [finish, Program.exec, Call.perform, tryRest_unbounded_eq, tryFrom_before, Option.bind_map,
          Option.map_map, Option.bind_assoc]
        rfl
  | skip c cs chosen f k hn => simp only [finish, tryFrom_skip cs chosen hn]
  | fire c cs chosen f k ha => exact tryFrom_fire cs chosen ha k
  | replace n cs chosen f k => rfl
  | resume cs chosen f k hr ho => simp [finish, Program.exec, hr, ho]
  | ended cs chosen f k hr =>
    have hstop : ¬(f.replaced = false ∧ f.isOpen = true) := fun h => by simp [hr h.1] at h
    simp only [finish, Program.exec, Option.bind_some, if_neg hstop]
  | choose e f k he => simp only [finish, tryFrom_choose he]
  | lost f k he => simp [finish, tryFrom, tryRules, tryChosen, he]
  | through f k => rfl

lemma Does.finish_eq {x y : Point} {acts : List Act} (h : x.Does env acts y) :
    finish env x.tasks x.focus = finish env y.tasks y.focus := by
  induction h with
  | start => rfl
  | step _ _ _ _ _ hs ih => exact ih.trans hs.finish_eq

end Backward

theorem tryAll_iff_does (f g : Focus) :
    (∃ fate, tryAll env (.unbounded env) f = some (fate, g)) ↔ ∃ acts, (f.trial env).Does env acts ⟨g, []⟩ := by
  constructor
  · rintro ⟨fate, h⟩
    obtain ⟨fuel, hfuel⟩ := (unbounded_iff env (tryAll_finitary env f) (fate, g)).mp h
    exact leads_tryAll (ofFuel_le env fuel) (leads_tryRest fuel) hfuel []
  · -- no act changes what the tasks come to, and nothing is left of them at the end
    rintro ⟨acts, h⟩
    have he := h.finish_eq
    simp only [Focus.trial, finish, tryFrom_before, Option.bind_map] at he
    obtain ⟨r, hr, hg⟩ := Option.bind_eq_some_iff.mp he
    obtain rfl := Option.some.inj hg
    exact ⟨r.1, hr⟩

end Point

end Bemjson
