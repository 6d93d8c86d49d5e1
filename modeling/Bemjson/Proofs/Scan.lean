import Bemjson.Proofs.LoopGuard.Calls

namespace Bemjson

inductive Pass where
  | before
  | named (block elem : Option String)
  | after

namespace Pass

def takes : Pass → Reach → Bool
  | before, .before => true
  | named block elem, .selector s => block == some s.block.name && elem == s.elem.map Part.name
  | after, .after => true
  | _, _ => false

end Pass

def Condition.isMet (c : Condition) (mods : Option (Assoc Json)) : Bool :=
  match mods.bind fun m => m.get? c.name with
  | some (.bool true) => c.value == .flag
  | some (.string s) => c.value == .exact s
  | _ => false

def Reach.isMet : Reach → Entity → Bool
  | .selector s, e => (s.elem.bind Part.cond).all (·.isMet e.elemMods) && s.block.cond.all (·.isMet e.mods)
  | _, _ => true

def Rule.run (env : Setting) (nested : Nested) (rule : Rule) (id : Nat) (e : Entity) (f : Focus) :
    Option (Bool × Focus) :=
  let node : Node := .entity { e with fired := id :: e.fired }
  let run := { f.run with trace := .fired id f.slot :: f.run.trace, fired := f.run.fired.modify id (· + 1) }
  (rule.body.exec env nested { f with node, run }).map fun
    | (some node, f) => (true, { f with node, replaced := true })
    | (none, f) => (f.replaced, f)

section Scan

variable (env : Setting) (nested : Nested)

def scanPass (pass : Pass) : List (Rule × Nat) → Focus → Option (Option Fate × Focus)
  | [], f => some (none, f)
  | (rule, id) :: rules, f =>
    match f.node with
    | .entity e =>
      if pass.takes rule.reach && (!e.fired.contains id && rule.reach.isMet e) then
        (rule.run env nested id e f).bind fun
          | (true, f) => some (some .replaced, f)
          | (false, f) =>
            match f.node with
            | .entity e => if e.stopped then some (some .kept, f) else scanPass pass rules f
            | _ => some (some .kept, f)
      else scanPass pass rules f
    | _ => scanPass pass rules f

/-- Tries rules without an index: three passes over all of them, the second one for the block and element that the
first one leaves the node with. -/
def scan (rules : List (Rule × Nat)) (f : Focus) : Option (Fate × Focus) :=
  (scanPass env nested .before rules f).bind fun
    | (some fate, f) => some (fate, f)
    | (none, f) =>
      match f.node with
      | .entity e =>
        (scanPass env nested (.named e.block e.elem) rules f).bind fun
          | (some fate, f) => some (fate, f)
          | (none, f) => (scanPass env nested .after rules f).map fun (ended, f) => (ended.getD .kept, f)
      | _ => some (.kept, f)

end Scan

section Steps

lemma isMet_eq_holds (c : Condition) (mods : Option (Assoc Json)) : c.isMet mods = c.holds mods := by
  obtain ⟨name, value⟩ := c
  have hexact : ∀ s t, (Expected.exact s == .exact t) = (t == s) := fun s t => by
    rw [Bool.eq_iff_iff, beq_iff_eq, beq_iff_eq, Expected.exact.injEq, eq_comm]
  unfold Condition.isMet Condition.holds
  cases mods with
  | none => cases value <;> rfl
  | some mods =>
    rw [Option.bind_some, Option.getD_some]
    cases mods.get? name with
    | none => cases value <;> rfl
    | some v =>
      cases v with
      | string s =>
        cases value with
        | flag => rfl
        | exact t => exact hexact t s
      | bool b => cases b <;> cases value <;> rfl
      | _ => cases value <;> rfl

lemma if_isOpen {α : Type} (f : Focus) (a b : α) :
    (if f.isOpen then a else b) = match f.node with
      | .entity e => if e.stopped then b else a
      | _ => b := by
  rw [Focus.isOpen]
  cases f.node with
  | entity e => cases he : e.stopped <;> simp [Node.entity?, he]
  | _ => rfl

lemma exec_unindexed {α : Type} (options : Options) (index : RuleIndex) (idStart : String) (nested : Nested)
    (p : Program α) (f : Focus) : p.exec ⟨options, index, idStart⟩ nested f = p.exec { options, idStart } nested f := by
  induction p generalizing f with
  | done a => rfl
  | call c next ih =>
    have hc : c.perform ⟨options, index, idStart⟩ nested f = c.perform { options, idStart } nested f := by
      cases c <;> rfl
    rw [Program.exec, Program.exec, hc]
    exact congrArg _ (funext fun r => ih r.1 r.2)

lemma fire_eq_run (env : Setting) (nested : Nested) {rule : Rule} {id : Nat} (h : env.index.rules[id]? = some rule)
    {f : Focus} {e : Entity} (he : f.node = .entity e) :
    fire env nested id f = rule.run { options := env.options, idStart := env.idStart } nested id e f := by
  rw [fire_eq env nested h, Rule.run, ← exec_unindexed env.options env.index env.idStart, Focus.started,
    Focus.mapEntity, he]
  rfl

end Steps

section Index

def Rule.candidate (rule : Rule) (id : Nat) : Candidate :=
  match rule.reach with
  | .selector s => { id, blockMod := s.block.cond, elemMod := s.elem.bind Part.cond }
  | _ => { id }

lemma accepts_candidate (rule : Rule) (id : Nat) :
    (rule.candidate id).accepts = fun e => !e.fired.contains id && rule.reach.isMet e := by
  funext e
  unfold Rule.candidate Reach.isMet
  cases rule.reach <;> simp [Candidate.accepts, holdsOn, isMet_eq_holds, Bool.and_assoc]

lemma candidate_id (rule : Rule) (id : Nat) : (rule.candidate id).id = id := by
  unfold Rule.candidate
  split <;> rfl

lemma BlockRules.get_add (b : BlockRules) (elem other : Option String) (c : Candidate) :
    (b.add elem c).get other = b.get other ++ if other == elem then [c] else [] := by
  cases elem with
  | none => cases other <;> simp [BlockRules.add, BlockRules.get]
  | some elem =>
    cases other with
    | none => simp [BlockRules.add, BlockRules.get]
    | some other =>
      by_cases ho : elem = other
      · subst ho
        simp [BlockRules.add, BlockRules.get, Assoc.get?_insert]
      · simp [BlockRules.add, BlockRules.get, Assoc.get?_insert, ho, Ne.symm ho]

namespace RuleIndex

def ofPass (index : RuleIndex) : Pass → List Candidate
  | .before => index.before
  | .named block elem => index.candidates block elem
  | .after => index.after

lemma ofPass_add (index : RuleIndex) (rule : Rule) (id : Nat) (pass : Pass) :
    (index.add rule id).ofPass pass =
      index.ofPass pass ++ if pass.takes rule.reach then [rule.candidate id] else [] := by
  unfold add Rule.candidate
  cases hr : rule.reach with
  | before => cases pass <;> simp [ofPass, Pass.takes, candidates, ofBlock]
  | after => cases pass <;> simp [ofPass, Pass.takes, candidates, ofBlock]
  | selector s =>
    cases pass with
    | before => simp [ofPass, Pass.takes]
    | after => simp [ofPass, Pass.takes]
    | named block elem =>
      cases block with
      | none => simp [ofPass, Pass.takes, candidates]
      | some block =>
        by_cases hb : s.block.name = block
        · subst hb
          simp [ofPass, Pass.takes, candidates, ofBlock, Assoc.get?_insert, BlockRules.get_add]
        · simp [ofPass, Pass.takes, candidates, ofBlock, Assoc.get?_insert, hb, Ne.symm hb]

lemma ofPass_foldl (rules : List (Rule × Nat)) (index : RuleIndex) (pass : Pass) :
    (rules.foldl (fun index r => index.add r.1 r.2) index).ofPass pass =
      index.ofPass pass ++ (rules.filter fun r => pass.takes r.1.reach).map fun r => r.1.candidate r.2 := by
  induction rules generalizing index with
  | nil => simp
  | cons r rules ih =>
    rw [List.foldl_cons, ih, ofPass_add, List.append_assoc]
    cases ht : pass.takes r.1.reach <;> simp [ht]

lemma ofPass_build (rules : List Rule) (order : RuleOrder) (pass : Pass) :
    (build rules order).ofPass pass =
      ((ordered rules order).filter fun r => pass.takes r.1.reach).map fun r => r.1.candidate r.2 := by
  have hempty : ofPass { rules } pass = [] := by
    cases pass with
    | before => rfl
    | after => rfl
    | named block elem => cases block <;> cases elem <;> rfl
  rw [build, ofPass_foldl, hempty, List.nil_append]

lemma rules_add (index : RuleIndex) (rule : Rule) (id : Nat) : (index.add rule id).rules = index.rules := by
  unfold add
  split <;> rfl

lemma rules_build (rules : List Rule) (order : RuleOrder) : (build rules order).rules = rules := by
  have hfold : ∀ (rs : List (Rule × Nat)) (index : RuleIndex),
      (rs.foldl (fun index r => index.add r.1 r.2) index).rules = index.rules := by
    intro rs
    induction rs with
    | nil => exact fun _ => rfl
    | cons r rs ih => exact fun index => (ih _).trans (rules_add index r.1 r.2)
  exact hfold _ _

lemma getElem?_of_mem_ordered {rules : List Rule} {order : RuleOrder} {r : Rule × Nat}
    (h : r ∈ ordered rules order) : rules[r.2]? = some r.1 := by
  cases order with
  | registration => exact List.mem_zipIdx_iff_getElem?.mp h
  | latestFirst => exact List.mem_zipIdx_iff_getElem?.mp (List.mem_reverse.mp h)

lemma lists_build {rules : List Rule} {order : RuleOrder} {c : Candidate} (h : (build rules order).Lists c) :
    c.id < rules.length := by
  obtain ⟨pass, hc⟩ : ∃ pass, c ∈ (build rules order).ofPass pass := by
    rcases h with h | ⟨block, elem, h⟩ | h
    · exact ⟨.before, h⟩
    · exact ⟨.named block elem, h⟩
    · exact ⟨.after, h⟩
  rw [ofPass_build] at hc
  obtain ⟨r, hr, rfl⟩ := List.mem_map.mp hc
  rw [candidate_id]
  exact (List.getElem?_eq_some_iff.mp (getElem?_of_mem_ordered (List.mem_filter.mp hr).1)).1

end RuleIndex

end Index

section Agreement

lemma tryRules_append (env : Setting) (nested : Nested) (cs ds : List Candidate) (f : Focus) :
    tryRules env nested (cs ++ ds) f = (tryRules env nested cs f).bind fun
      | (some fate, f) => some (some fate, f)
      | (none, f) => tryRules env nested ds f := by
  induction cs generalizing f with
  | nil => rfl
  | cons c cs ih =>
    simp only [List.cons_append, tryRules]
    split
    · rw [Option.bind_assoc]
      congr 1
      funext r
      obtain ⟨out, g⟩ := r
      cases out with
      | true => rfl
      | false =>
        simp only
        split
        · exact ih g
        · rfl
    · exact ih f

lemma tryRules_eq_scanPass (env : Setting) (nested : Nested) (pass : Pass) (rules : List (Rule × Nat))
    (hr : ∀ r ∈ rules, env.index.rules[r.2]? = some r.1) (f : Focus) :
    tryRules env nested ((rules.filter fun r => pass.takes r.1.reach).map fun r => r.1.candidate r.2) f =
      scanPass { options := env.options, idStart := env.idStart } nested pass rules f := by
  induction rules generalizing f with
  | nil => rfl
  | cons r rules ih =>
    obtain ⟨rule, id⟩ := r
    have hrest := ih fun r hm => hr r (List.mem_cons_of_mem _ hm)
    rw [scanPass]
    cases ht : pass.takes rule.reach with
    | false =>
      have hskip := hrest f
      cases f.node <;> simpa [ht] using hskip
    | true =>
      have hfilter : ((rule, id) :: rules).filter (fun r => pass.takes r.1.reach) =
          (rule, id) :: rules.filter fun r => pass.takes r.1.reach := List.filter_cons_of_pos ht
      rw [hfilter, List.map_cons, tryRules, accepts_candidate, candidate_id, hrest f]
      cases he : f.node with
      | entity e =>
        have hfire := fire_eq_run env nested (hr _ List.mem_cons_self) he
        rw [hfire]
        simp only [Node.entity?, Option.any_some, Bool.true_and]
        congr 2
        funext out
        obtain ⟨_ | _, g⟩ := out
        · simp only [hrest g, if_isOpen]
        · rfl
      | _ => rfl

lemma tryRules_ofPass (options : Options) (idStart : String) (rules : List Rule) (order : RuleOrder) (nested : Nested)
    (pass : Pass) (f : Focus) :
    tryRules ⟨options, .build rules order, idStart⟩ nested ((RuleIndex.build rules order).ofPass pass) f =
      scanPass { options, idStart } nested pass (RuleIndex.ordered rules order) f := by
  rw [RuleIndex.ofPass_build]
  apply tryRules_eq_scanPass
  intro r hr
  rw [RuleIndex.rules_build]
  exact RuleIndex.getElem?_of_mem_ordered hr

/-- Whatever the rules are and do, also where they try the rules again from within, the index of them makes a trial
run the same rules in the same order and with the same outcome as three passes over the list of all rules, from the
first one that was registered to the last or from the last to the first. -/
theorem tryAll_eq_scan (options : Options) (idStart : String) (rules : List Rule) (order : RuleOrder) (nested : Nested)
    (f : Focus) :
    tryAll ⟨options, .build rules order, idStart⟩ nested f =
      scan { options, idStart } nested
        (match order with
          | .registration => rules.zipIdx
          | .latestFirst => rules.zipIdx.reverse) f := by
  have hordered : (match order with
      | .registration => rules.zipIdx
      | .latestFirst => rules.zipIdx.reverse) = RuleIndex.ordered rules order := by
    cases order <;> rfl
  rw [hordered]
  have hpass := tryRules_ofPass options idStart rules order nested
  have hbefore := hpass .before
  have hafter := hpass .after
  simp only [RuleIndex.ofPass] at hbefore hafter
  rw [tryAll, scan, hbefore]
  congr 1
  funext r
  obtain ⟨ended, g⟩ := r
  cases ended with
  | some fate => rfl
  | none =>
    cases he : g.node with
    | entity e =>
      have hnamed := hpass (.named e.block e.elem)
      simp only [RuleIndex.ofPass] at hnamed
      simp only [he, Node.entity?]
      rw [tryRules_append, hnamed, Option.map_bind]
      congr 1
      funext r
      obtain ⟨ended', g'⟩ := r
      cases ended' with
      | some fate => rfl
      | none => exact congrArg (Option.map _) (hafter g')
    | _ => simp only [he, Node.entity?]

end Agreement

end Bemjson
