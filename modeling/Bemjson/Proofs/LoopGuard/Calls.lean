import Bemjson.Proofs.Frame

namespace Bemjson

variable {env : Setting}

inductive Program.Asks {α : Type} (env : Setting) : Program α → Focus → Call → Focus → Prop
  | here (c : Call) (next : c.Reply → Program α) (f : Focus) : Asks env (.call c next) f c f
  | later (c : Call) (next : c.Reply → Program α) (f f' : Focus) (r : c.Reply) (d : Call) (g : Focus) :
      c.perform env (.unbounded env) f = some (r, f') → Asks env (next r) f' d g → Asks env (.call c next) f d g

def Focus.started (f : Focus) (id : Nat) : Focus :=
  (f.mapEntity fun e => e.fire id).mapRun fun r => r.countFire id f.slot

inductive RulesAsk (env : Setting) : List Candidate → Focus → Call → Focus → Prop
  | body (c : Candidate) (cs : List Candidate) (f : Focus) (rule : Rule) (d : Call) (g : Focus) :
      f.node.entity?.any c.accepts → env.index.rules[c.id]? = some rule →
      rule.body.Asks env (f.started c.id) d g → RulesAsk env (c :: cs) f d g
  | next (c : Candidate) (cs : List Candidate) (f f' : Focus) (d : Call) (g : Focus) :
      f.node.entity?.any c.accepts → fire env (.unbounded env) c.id f = some (false, f') → f'.isOpen →
      RulesAsk env cs f' d g → RulesAsk env (c :: cs) f d g
  | skip (c : Candidate) (cs : List Candidate) (f : Focus) (d : Call) (g : Focus) :
      ¬f.node.entity?.any c.accepts → RulesAsk env cs f d g → RulesAsk env (c :: cs) f d g

inductive Focus.Asks (env : Setting) (f : Focus) (d : Call) (g : Focus) : Prop
  | first : RulesAsk env env.index.before f d g → Asks env f d g
  | rest (f' : Focus) (e : Entity) : tryRules env (.unbounded env) env.index.before f = some (none, f') →
      f'.node.entity? = some e → RulesAsk env (env.index.candidates e.block e.elem ++ env.index.after) f' d g →
      Asks env f d g

lemma fire_eq (env : Setting) (nested : Nested) {id : Nat} {rule : Rule} (h : env.index.rules[id]? = some rule)
    (f : Focus) : fire env nested id f = (rule.body.exec env nested (f.started id)).map fun
      | (some node, f) => (true, f.replace node)
      | (none, f) => (f.replaced, f) := by
  simp only [fire, h]
  rfl

section Stuck

lemma exec_stuck {α : Type} (p : Program α) {f : Focus} (h : p.exec env (.unbounded env) f = none) :
    ∃ d g, p.Asks env f d g ∧ d.perform env (.unbounded env) g = none := by
  induction p generalizing f with
  | done a => cases h
  | call c next ih =>
    cases hc : c.perform env (.unbounded env) f with
    | none => exact ⟨c, f, .here c next f, hc⟩
    | some r =>
      rw [Program.exec, hc, Option.bind_some] at h
      obtain ⟨d, g, hasks, hd⟩ := ih r.1 h
      exact ⟨d, g, .later c next f r.2 r.1 d g hc hasks, hd⟩

lemma tryRules_stuck (cs : List Candidate) {f : Focus} (h : tryRules env (.unbounded env) cs f = none) :
    ∃ d g, RulesAsk env cs f d g ∧ d.perform env (.unbounded env) g = none := by
  induction cs generalizing f with
  | nil => cases h
  | cons c cs ih =>
    rw [tryRules] at h
    by_cases hc : f.node.entity?.any c.accepts
    · rw [if_pos hc] at h
      cases hfire : fire env (.unbounded env) c.id f with
      | none =>
        cases hrule : env.index.rules[c.id]? with
        | none => simp [fire, hrule] at hfire
        | some rule =>
          rw [fire_eq env _ hrule, Option.map_eq_none_iff] at hfire
          obtain ⟨d, g, hasks, hd⟩ := exec_stuck rule.body hfire
          exact ⟨d, g, .body c cs f rule d g hc hrule hasks, hd⟩
      | some r =>
        obtain ⟨out, f'⟩ := r
        rw [hfire, Option.bind_some] at h
        cases out with
        | true => cases h
        | false =>
          simp only at h
          split at h
          · rename_i ho
            obtain ⟨d, g, hasks, hd⟩ := ih h
            exact ⟨d, g, .next c cs f f' d g hc hfire ho hasks, hd⟩
          · cases h
    · rw [if_neg hc] at h
      obtain ⟨d, g, hasks, hd⟩ := ih h
      exact ⟨d, g, .skip c cs f d g hc hasks, hd⟩

lemma tryAll_stuck {f : Focus} (h : tryAll env (.unbounded env) f = none) :
    ∃ d g, f.Asks env d g ∧ d.perform env (.unbounded env) g = none := by
  rw [tryAll] at h
  cases hfirst : tryRules env (.unbounded env) env.index.before f with
  | none =>
    obtain ⟨d, g, hasks, hd⟩ := tryRules_stuck _ hfirst
    exact ⟨d, g, .first hasks, hd⟩
  | some r =>
    obtain ⟨ended, f'⟩ := r
    rw [hfirst, Option.bind_some] at h
    cases ended with
    | some fate => cases h
    | none =>
      simp only at h
      split at h
      · cases h
      · rename_i e he
        rw [Option.map_eq_none_iff] at h
        obtain ⟨d, g, hasks, hd⟩ := tryRules_stuck _ h
        exact ⟨d, g, .rest f' e hfirst he hasks, hd⟩

lemma perform_stuck {d : Call} {g : Focus} (h : d.perform env (.unbounded env) g = none) :
    (d = .tryRest ∧ tryAll env (.unbounded env) g = none) ∨
      ∃ tree, d = .expand tree ∧ (Nested.unbounded env).expand tree g = none := by
  cases d with
  | tryRest =>
    refine Or.inl ⟨rfl, ?_⟩
    cases hg : tryAll env (.unbounded env) g with
    | none => rfl
    | some r =>
      have hr := (tryRest_unbounded env g r.2).mpr ⟨r.1, hg⟩
      simp [Call.perform, hr] at h
  | expand tree => exact Or.inr ⟨tree, rfl, h⟩
  | _ => cases h

end Stuck

section Answered

variable {nested : Nested} (hle : nested.Le (.unbounded env))
include hle

lemma exec_answered {α : Type} {p : Program α} {f : Focus} {d : Call} {g : Focus} (h : p.Asks env f d g) {r : α × Focus}
    (hp : p.exec env nested f = some r) : ∃ a, d.perform env nested g = some a := by
  induction h with
  | here c next f =>
    obtain ⟨a, ha, _⟩ := Option.bind_eq_some_iff.mp hp
    exact ⟨a, ha⟩
  | later c next f f' reply d g hc _ ih =>
    obtain ⟨a, ha, hrest⟩ := Option.bind_eq_some_iff.mp hp
    have hsame := (perform_finitary env f c).mono _ _ a hle ha
    obtain rfl := Option.some.inj (hc.symm.trans hsame)
    exact ih hrest

lemma tryRules_answered {cs : List Candidate} {f : Focus} {d : Call} {g : Focus} (h : RulesAsk env cs f d g)
    {r : Option Fate × Focus} (hcs : tryRules env nested cs f = some r) : ∃ a, d.perform env nested g = some a := by
  induction h with
  | body c cs f rule d g hc hrule hasks =>
    rw [tryRules, if_pos hc] at hcs
    obtain ⟨out, hfire, _⟩ := Option.bind_eq_some_iff.mp hcs
    rw [fire_eq env nested hrule] at hfire
    obtain ⟨ending, hexec, _⟩ := Option.map_eq_some_iff.mp hfire
    exact exec_answered hle hasks hexec
  | next c cs f f' d g hc hfire ho _ ih =>
    rw [tryRules, if_pos hc] at hcs
    obtain ⟨out, hout, hrest⟩ := Option.bind_eq_some_iff.mp hcs
    have hsame := (fire_finitary env c.id f).mono _ _ out hle hout
    obtain rfl := Option.some.inj (hfire.symm.trans hsame)
    simp only [ho, if_true] at hrest
    exact ih hrest
  | skip c cs f d g hc _ ih =>
    rw [tryRules, if_neg hc] at hcs
    exact ih hcs

lemma tryAll_answered {f : Focus} {d : Call} {g : Focus} (h : f.Asks env d g) {r : Fate × Focus}
    (hf : tryAll env nested f = some r) : ∃ a, d.perform env nested g = some a := by
  obtain ⟨⟨ended, f'⟩, hfirst, hrest⟩ := Option.bind_eq_some_iff.mp hf
  cases h with
  | first hasks => exact tryRules_answered hle hasks hfirst
  | rest f'' e hbefore he hasks =>
    have hsame := (tryRules_finitary env _ f).mono _ _ _ hle hfirst
    obtain ⟨rfl, rfl⟩ := Prod.ext_iff.mp (Option.some.inj (hbefore.symm.trans hsame))
    simp only [he] at hrest
    obtain ⟨out, hlater, _⟩ := Option.map_eq_some_iff.mp hrest
    exact tryRules_answered hle hasks hlater

end Answered

section Within

variable {R : Focus → Focus → Prop} (hn : (Nested.unbounded env).Within R)
include hn

section Trials

variable (hR : Focus.Carried env R)
include hR

lemma Program.Asks.within {α : Type} {p : Program α} {f : Focus} {d : Call} {g : Focus} (h : p.Asks env f d g) :
    R f g := by
  induction h with
  | here c next f => exact hR.refl f
  | later c next f f' r d g hc _ ih => exact hR.trans f f' g (perform_within hR hn f f' c r hc) ih

lemma RulesAsk.started {cs : List Candidate} {f : Focus} {d : Call} {g : Focus} (h : RulesAsk env cs f d g)
    (hfire : ∀ c ∈ cs, ∀ f g b, f.node.entity?.any c.accepts → fire env (.unbounded env) c.id f = some (b, g) → R f g) :
    ∃ c ∈ cs, ∃ f', f'.node.entity?.any c.accepts ∧ R f f' ∧ R (f'.started c.id) g := by
  induction h with
  | body c cs f rule d g hc _ hasks => exact ⟨c, List.mem_cons_self, f, hc, hR.refl f, hasks.within hn hR⟩
  | next c cs f f' d g hc hf _ _ ih =>
    obtain ⟨c', hc', f'', ha, hfirst, hlater⟩ := ih fun d hd => hfire d (List.mem_cons_of_mem c hd)
    have hb := hfire c List.mem_cons_self f f' false hc hf
    exact ⟨c', List.mem_cons_of_mem c hc', f'', ha, hR.trans f f' f'' hb hfirst, hlater⟩
  | skip c cs f d g _ _ ih =>
    obtain ⟨c', hc', hrest⟩ := ih fun d hd => hfire d (List.mem_cons_of_mem c hd)
    exact ⟨c', List.mem_cons_of_mem c hc', hrest⟩

lemma Focus.Asks.started {f : Focus} {d : Call} {g : Focus} (h : f.Asks env d g)
    (hfire : ∀ c, env.index.Lists c → ∀ f g b, f.node.entity?.any c.accepts →
      fire env (.unbounded env) c.id f = some (b, g) → R f g) :
    ∃ c, env.index.Lists c ∧ ∃ f', f'.node.entity?.any c.accepts ∧ R f f' ∧ R (f'.started c.id) g := by
  cases h with
  | first hasks =>
    obtain ⟨c, hc, hrest⟩ := hasks.started hn hR fun c hc => hfire c (Or.inl hc)
    exact ⟨c, Or.inl hc, hrest⟩
  | rest f' e hbefore _ hasks =>
    have hlists : ∀ c ∈ env.index.candidates e.block e.elem ++ env.index.after, env.index.Lists c := fun c hc =>
      Or.inr ((List.mem_append.mp hc).imp_left fun hc => ⟨_, _, hc⟩)
    have hfirst := tryRules_of_fire hR.refl hR.trans _ (fun c hc => hfire c (Or.inl hc)) f f' none hbefore
    obtain ⟨c, hc, f'', ha, hrest, hlater⟩ := hasks.started hn hR fun c hc => hfire c (hlists c hc)
    exact ⟨c, hlists c hc, f'', ha, hR.trans f f' f'' hfirst hrest, hlater⟩

end Trials

lemma Focus.Asks.within (hR : Focus.Closed env R) {f : Focus} {d : Call} {g : Focus} (h : f.Asks env d g) : R f g := by
  obtain ⟨c, _, f', _, hfirst, hlater⟩ := h.started hn hR.carried fun c _ f g b _ hf => fire_within hR hn c.id f g b hf
  have hstart := hR.trans f' (f'.mapEntity fun e => e.fire c.id) _ (hR.change f' _) (hR.count _ c.id)
  exact hR.trans f f' g hfirst (hR.trans f' _ g hstart hlater)

end Within

lemma Focus.Asks.onward {f : Focus} {d : Call} {g : Focus} (h : f.Asks env d g) : f.Onward g :=
  h.within (unbounded_within env) (Focus.Onward.closed env)

end Bemjson
