import Bemjson.Engine
import Bemjson.Proofs.Lockstep
import Bemjson.Proofs.Patching.Choices
import Bemjson.Proofs.Scan

/-! What an engine answers depends on the rules that it has been given and on its options, not on its past. -/

namespace Bemjson

inductive Operation where
  | register (entries : List (String × Body))
  | registerBefore (body : Body)
  | registerAfter (body : Body)
  | configure (options : Options)
  | patch (changes : Json)
  | detectLoops (on : Bool)
  | expand (tree : Node) (block : Option String) (deep : Bool)
  | renderSource (source : String)

namespace Operation

def registers : Operation → Bool
  | register _ | registerBefore _ | registerAfter _ => true
  | _ => false

/-- The steps of an operation, on an engine that changes in place: what has been changed before a step is refused
stays so. Any expansion has the index built, if that is due. -/
def steps : Operation → ExceptT ConfigError (StateM Engine) Unit
  | register entries => do
    let rules ← ofExcept ((Rule.readAll entries).mapError ConfigError.selector)
    rules.forM fun rule => modify fun engine => { engine with rules := engine.rules ++ [rule] }
    modify fun engine => { engine with built := none }
  | registerBefore body => modify fun engine => engine.registerBefore body
  | registerAfter body => modify fun engine => engine.registerAfter body
  | configure options => modify fun engine => engine.withOptions options
  | .patch changes => do
    let patch ← ofExcept ((Patch.read changes).mapError ConfigError.options)
    modify fun engine => { engine with options := patch.apply engine.options }
    modify fun engine => { engine with built := none }
  | detectLoops on => modify fun engine => engine.detectLoops on
  | expand _ _ _ => modify Engine.prepare
  | renderSource source =>
    match Json.read source with
    | .error _ => pure ()
    | .ok _ => modify Engine.prepare

end Operation

namespace Engine

def fresh (options : Options) (idStart : String) : Engine := { options, idStart }

def attempt (engine : Engine) (op : Operation) : Except ConfigError Unit × Engine := op.steps.run.run engine

def after (engine : Engine) (ops : List Operation) : Engine := ops.foldl (fun engine op => (engine.attempt op).2) engine

def accepted (engine : Engine) : List Operation → List Operation
  | [] => []
  | op :: ops =>
    match engine.attempt op with
    | (.ok _, later) => op :: later.accepted ops
    | (.error _, later) => later.accepted ops

def answer (engine : Engine) (s : State) : Except LoopError Node × Except LoopError Report × List Json :=
  (s.result, engine.report s, s.run.journal.log)

def outcome (engine : Engine) : Operation → Except ConfigError Engine
  | .register entries => engine.register entries
  | .registerBefore body => .ok (engine.registerBefore body)
  | .registerAfter body => .ok (engine.registerAfter body)
  | .configure options => .ok (engine.withOptions options)
  | .patch changes => engine.patch changes
  | .detectLoops on => .ok (engine.detectLoops on)
  | .expand _ _ _ => .ok engine.prepare
  | .renderSource source =>
    match Json.read source with
    | .error _ => .ok engine
    | .ok _ => .ok engine.prepare

section InPlace

lemma forM_rules (rules : List Rule) (engine : Engine) :
    ((rules.forM fun rule => modify fun engine => { engine with rules := engine.rules ++ [rule] } :
      ExceptT ConfigError (StateM Engine) Unit).run.run engine) =
      (.ok (), { engine with rules := engine.rules ++ rules }) := by
  induction rules generalizing engine with
  | nil =>
    rw [List.append_nil]
    rfl
  | cons rule rules ih =>
    have hrest := ih { engine with rules := engine.rules ++ [rule] }
    rw [List.append_assoc] at hrest
    exact hrest

lemma attempt_eq_outcome (engine : Engine) (op : Operation) :
    engine.attempt op = match engine.outcome op with
      | .ok later => (.ok (), later)
      | .error err => (.error err, engine) := by
  rw [attempt]
  cases op with
  | register entries =>
    rw [Operation.steps, outcome, register]
    cases Rule.readAll entries with
    | error err => rfl
    | ok rules =>
      have hok : (Except.ok rules).mapError ConfigError.selector = .ok rules := rfl
      simp only [hok, ofExcept, ExceptT.run_bind, StateT.run_bind, pure_bind]
      rw [forM_rules]
      rfl
  | patch changes =>
    rw [Operation.steps, outcome, Engine.patch, Options.patch]
    cases Patch.read changes <;> rfl
  | renderSource source =>
    rw [Operation.steps, outcome]
    cases Json.read source <;> rfl
  | _ => rfl

lemma attempt_of_ok {engine later : Engine} {op : Operation} (h : engine.outcome op = .ok later) :
    engine.attempt op = (.ok (), later) := by
  rw [attempt_eq_outcome, h]

lemma attempt_of_error {engine : Engine} {op : Operation} {err : ConfigError} (h : engine.outcome op = .error err) :
    engine.attempt op = (.error err, engine) := by
  rw [attempt_eq_outcome, h]

lemma attempt_refused {engine : Engine} {op : Operation} {err : ConfigError} (h : (engine.attempt op).1 = .error err) :
    (engine.attempt op).2 = engine := by
  cases ho : engine.outcome op with
  | ok later =>
    rw [attempt_of_ok ho] at h
    cases h
  | error err' => rw [attempt_of_error ho]

end InPlace

section Refusal

lemma readAll_refused {entries : List (String × Body)} {entry : String × Body} {err : SelectorError}
    (hm : entry ∈ entries) (h : Selector.read entry.1 = .error err) : ∃ err, Rule.readAll entries = .error err := by
  induction entries with
  | nil => cases hm
  | cons first entries ih =>
    obtain ⟨text, body⟩ := first
    rw [Rule.readAll, List.mapM_cons]
    cases hfirst : Selector.read text with
    | error err => exact ⟨err, by simp only [hfirst]; rfl⟩
    | ok s =>
      rcases List.mem_cons.mp hm with rfl | hm
      · cases hfirst.symm.trans h
      · obtain ⟨err', he⟩ := ih hm
        rw [Rule.readAll] at he
        exact ⟨err', by simp only [hfirst, he]; rfl⟩

lemma readFields_refused {fields : List (String × Json)} {name : String} {value : Json} {key : OptionKey}
    {err : PatchError} (hm : (name, value) ∈ fields) (hkey : OptionKey.ofName? name = some key) (hnull : value ≠ .null)
    (h : Patch.setOption {} value key = .error err) (p : Patch) (seen : List OptionKey) :
    ∃ err, p.readFields seen fields = .error err := by
  cases hread : p.readFields seen fields with
  | error err' => exact ⟨err', rfl⟩
  | ok q =>
    obtain ⟨c, hc⟩ : ∃ c, key.choice? value = some c :=
      Option.isSome_iff_exists.mp (((Patch.admitted_of_readFields hread).2.2 _ hm key hkey).resolve_left hnull)
    have hset := Patch.setOption_settles {} value key
    rw [hc] at hset
    obtain ⟨r, hr, -⟩ := hset
    cases h.symm.trans hr

lemma register_refused {engine : Engine} {entries : List (String × Body)} {entry : String × Body} {err : SelectorError}
    (hm : entry ∈ entries) (h : Selector.read entry.1 = .error err) :
    ∃ err, (engine.attempt (.register entries)).1 = .error err := by
  obtain ⟨err', he⟩ := readAll_refused hm h
  have ho : engine.outcome (.register entries) = .error (.selector err') := by
    rw [outcome, register, he]
    rfl
  exact ⟨.selector err', by rw [attempt_of_error ho]⟩

lemma patch_refused {engine : Engine} {fields : List (String × Json)} {name : String} {value : Json} {key : OptionKey}
    {err : PatchError} (hm : (name, value) ∈ fields) (hkey : OptionKey.ofName? name = some key) (hnull : value ≠ .null)
    (h : Patch.setOption {} value key = .error err) : ∃ err, (engine.attempt (.patch (.object fields))).1 = .error err := by
  obtain ⟨err', he⟩ := readFields_refused hm hkey hnull h {} []
  have ho : engine.outcome (.patch (.object fields)) = .error (.options err') := by
    rw [outcome, patch, Options.patch, Patch.read, he]
    rfl
  exact ⟨.options err', by rw [attempt_of_error ho]⟩

end Refusal

section Soundness

def Sound (engine : Engine) : Prop :=
  ∀ index, engine.built = some index → index = .build engine.rules engine.options.ruleOrder

variable {engine later : Engine} {op : Operation}

lemma Sound.of_unbuilt (h : engine.built = none) : engine.Sound := by
  intro index hb
  cases h.symm.trans hb

lemma Sound.index (h : engine.Sound) : engine.index = .build engine.rules engine.options.ruleOrder := by
  rw [Engine.index]
  cases hb : engine.built with
  | none => rfl
  | some index => exact h index hb

lemma Sound.prepare (h : engine.Sound) : engine.prepare.Sound := by
  rintro index ⟨⟩
  exact h.index

lemma Sound.outcome (h : engine.Sound) (ha : engine.outcome op = .ok later) : later.Sound := by
  have hmap : ∀ {ε α : Type} {r : Except ε α} {f : α → Engine}, r.map f = .ok later → (∀ a, (f a).built = none) →
      later.Sound := by
    intro ε α r f hr hf
    cases r with
    | error e => cases hr
    | ok a =>
      cases hr
      exact .of_unbuilt (hf a)
  cases op with
  | register entries => exact hmap ha fun _ => rfl
  | patch changes => exact hmap ha fun _ => rfl
  | detectLoops on =>
    cases ha
    exact h
  | expand tree block deep =>
    cases ha
    exact h.prepare
  | renderSource source =>
    rw [Engine.outcome] at ha
    split at ha
    · cases ha
      exact h
    · cases ha
      exact h.prepare
  | _ =>
    cases ha
    exact nofun

lemma Sound.after (h : engine.Sound) (ops : List Operation) : (engine.after ops).Sound := by
  induction ops generalizing engine with
  | nil => exact h
  | cons op ops ih =>
    apply ih
    change (engine.attempt op).2.Sound
    cases ha : engine.outcome op with
    | ok later =>
      rw [attempt_of_ok ha]
      exact h.outcome ha
    | error err =>
      rw [attempt_of_error ha]
      exact h

end Soundness

section Registrations

variable {engine later other : Engine} {op : Operation}

lemma outcome_registers (hop : op.registers = true) (ha : engine.outcome op = .ok later)
    (hrules : other.rules = engine.rules) :
    ∃ next, other.outcome op = .ok next ∧ next.rules = later.rules ∧ next.options = other.options := by
  cases op with
  | register entries =>
    rw [outcome, register] at ha
    rw [outcome, register]
    cases hr : (Rule.readAll entries).mapError ConfigError.selector with
    | error e =>
      rw [hr] at ha
      cases ha
    | ok rules =>
      rw [hr] at ha
      cases ha
      exact ⟨_, rfl, congrArg (· ++ rules) hrules, rfl⟩
  | registerBefore body =>
    cases ha
    exact ⟨_, rfl, congrArg (· ++ _) hrules, rfl⟩
  | registerAfter body =>
    cases ha
    exact ⟨_, rfl, congrArg (· ++ _) hrules, rfl⟩
  | _ => cases hop

lemma outcome_rules (hop : ¬op.registers = true) (ha : engine.outcome op = .ok later) : later.rules = engine.rules := by
  cases op with
  | patch changes =>
    rw [outcome, Engine.patch] at ha
    cases hr : (engine.options.patch changes).mapError ConfigError.options with
    | error e =>
      rw [hr] at ha
      cases ha
    | ok options =>
      rw [hr] at ha
      cases ha
      rfl
  | renderSource source =>
    rw [outcome] at ha
    split at ha <;> cases ha <;> rfl
  | configure _ | detectLoops _ | expand _ _ _ =>
    cases ha
    rfl
  | _ => exact absurd rfl hop

lemma after_registrations (hrules : other.rules = engine.rules) (ops : List Operation) :
    (other.after ((engine.accepted ops).filter Operation.registers)).rules = (engine.after ops).rules ∧
      (other.after ((engine.accepted ops).filter Operation.registers)).options = other.options := by
  induction ops generalizing engine other with
  | nil => exact ⟨hrules, rfl⟩
  | cons op ops ih =>
    -- `engine` takes every operation, `other` only the registrations among those that `engine` does not refuse.
    change (other.after _).rules = ((engine.attempt op).2.after ops).rules ∧ _
    rw [accepted]
    cases ha : engine.outcome op with
    | error err =>
      rw [attempt_of_error ha]
      exact ih hrules
    | ok later =>
      rw [attempt_of_ok ha]
      by_cases hop : op.registers = true
      · obtain ⟨next, hnext, hsame, hoptions⟩ := outcome_registers hop ha hrules
        rw [List.filter_cons_of_pos hop]
        change ((other.attempt op).2.after _).rules = _ ∧ ((other.attempt op).2.after _).options = _
        rw [attempt_of_ok hnext]
        obtain ⟨hr, ho⟩ := ih hsame
        exact ⟨hr, ho.trans hoptions⟩
      · rw [List.filter_cons_of_neg hop]
        exact ih (hrules.trans (outcome_rules hop ha).symm)

end Registrations

section Answers

variable {engine other : Engine}

lemma inStep_of_same (h : engine.Sound) (ho : other.Sound) (hrules : other.rules = engine.rules)
    (hoptions : other.options = engine.options) (hi : ∀ rule ∈ engine.rules, rule.body.IdFree) (issued : Nat) :
    engine.setting.InStep other.setting (fun journal => { journal with issued }) (fun c => c ≠ .freshId)
      fun _ => True where
  index := by
    change other.index = engine.index
    rw [h.index, ho.index, hrules, hoptions]
  bodies rule hr := by
    have hm : rule ∈ engine.rules := by
      change rule ∈ engine.index.rules at hr
      rwa [h.index, RuleIndex.rules_build] at hr
    exact (hi rule hm).indifferent engine.options other.options hoptions
  write _ _ := rfl
  issue hc := absurd rfl hc
  back _ _ _ _ := trivial
  inner _ _ _ := trivial
  guard n r id e _ _ _ := by
    have hsame : other.setting.options = engine.setting.options := hoptions
    rw [overrun, overrun, hsame]

lemma answer_of_same (h : engine.Sound) (ho : other.Sound) (hrules : other.rules = engine.rules)
    (hoptions : other.options = engine.options) (hi : ∀ rule ∈ engine.rules, rule.body.IdFree) {tree : Node}
    {block : Option String} {deep : Bool} {journal journal' : Journal} (hlog : journal'.log = journal.log)
    {answer : Except LoopError Node × Except LoopError Report × List Json}
    (ha : ∃ fuel, (engine.expand fuel tree block deep journal).map engine.answer = some answer) :
    ∃ fuel, (other.expand fuel tree block deep journal').map other.answer = some answer := by
  obtain ⟨issued, log⟩ := journal'
  obtain rfl : log = journal.log := hlog
  obtain ⟨fuel, ha⟩ := ha
  obtain ⟨s, hs, rfl⟩ := Option.map_eq_some_iff.mp ha
  obtain ⟨fuel', hs'⟩ := (inStep_of_same h ho hrules hoptions hi issued).expand_rejournal hs trivial
  refine ⟨fuel', Option.map_eq_some_iff.mpr ⟨_, hs', ?_⟩⟩
  have hmarkup : other.markup = engine.markup := by
    funext n
    rw [markup, markup, hoptions]
  have hresult : (s.rejournal fun journal => { journal with issued }).result = s.result := rfl
  simp only [answer, report, hresult, hmarkup, hrules]
  rfl

end Answers

/-- A refused operation is as good as none, and a batch or a patch is refused as a whole, wherever the bad entry stands.
An index that has been built is that of the present rules and rule order. So an engine without fresh ids answers what a
new one does that is made with the options of the end and given nothing but the accepted registrations. -/
theorem after_answers {options : Options} {idStart : String} {ops : List Operation} {engine : Engine}
    (h : (fresh options idStart).after ops = engine) :
    ((∀ op err rest, (engine.attempt op).1 = .error err →
        (fresh options idStart).after (ops ++ op :: rest) = (fresh options idStart).after (ops ++ rest)) ∧
      (∀ entries entry err, entry ∈ entries → Selector.read entry.1 = .error err →
        ∃ err, (engine.attempt (.register entries)).1 = .error err) ∧
      ∀ fields name value key err, (name, value) ∈ fields → OptionKey.ofName? name = some key → value ≠ .null →
        Patch.setOption {} value key = .error err → ∃ err, (engine.attempt (.patch (.object fields))).1 = .error err) ∧
    (∀ index, engine.built = some index → index = .build engine.rules engine.options.ruleOrder) ∧
    ∀ idStart' again, (fresh engine.options idStart').after
        (((fresh options idStart).accepted ops).filter Operation.registers) = again →
      again.rules = engine.rules ∧ again.options = engine.options ∧ again.markup = engine.markup ∧
        ((∀ rule ∈ engine.rules, rule.body.IdFree) → ∀ tree block deep (journal journal' : Journal),
          journal'.log = journal.log → ∀ answer,
            (∃ fuel, (engine.expand fuel tree block deep journal).map engine.answer = some answer) ↔
              ∃ fuel, (again.expand fuel tree block deep journal').map again.answer = some answer) := by
  subst h
  have hfresh : ∀ options idStart, (fresh options idStart).Sound := fun _ _ => nofun
  have hsound := (hfresh options idStart).after ops
  refine ⟨⟨?_, ?_, ?_⟩, hsound, ?_⟩
  · intro op err rest ha
    rw [after, List.foldl_append, List.foldl_cons, after, List.foldl_append]
    exact congrArg (fun engine => Engine.after engine rest) (attempt_refused ha)
  · exact fun entries entry err hm hread => register_refused hm hread
  · exact fun fields name value key err hm hkey hnull hset => patch_refused hm hkey hnull hset
  · rintro idStart' _ rfl
    have hagain := (hfresh ((fresh options idStart).after ops).options idStart').after
      (((fresh options idStart).accepted ops).filter Operation.registers)
    have hnone : (fresh ((fresh options idStart).after ops).options idStart').rules = (fresh options idStart).rules := rfl
    obtain ⟨hrules, hoptions⟩ := after_registrations hnone ops
    refine ⟨hrules, hoptions, ?_, fun hi tree block deep journal journal' hlog answer => ⟨?_, ?_⟩⟩
    · funext n
      rw [markup, markup, hoptions]
      rfl
    · exact answer_of_same hsound hagain hrules hoptions hi hlog
    · exact answer_of_same hagain hsound hrules.symm hoptions.symm (hrules ▸ hi) hlog.symm

section Reworking

def marking (tag : String) : Body := .call (.edit (.tag tag) false) fun _ => .done none

def reworking : List Operation :=
  [.register [("a", .call (.edit (.cls "k") false) fun _ => .done none)],
    .expand (.entity { block := some "a" }) none true,
    .register [("b", marking "b"), ("", marking "b")],
    .detectLoops true,
    .patch (.object [("escapeText", .bool false), ("ruleOrder", .bool true)]),
    .registerAfter (marking "i"),
    .renderSource "[1,",
    .registerAfter (marking "u"),
    .patch (.object [("ruleOrder", .string "latestFirst")])]

def reworked : Engine := (fresh {} "x").after reworking

theorem reworked_answers : reworked.rules.length = 3 ∧
    ∃ s, reworked.expand 4 (.entity { block := some "a", content := some (.text "&") }) none true {} = some s ∧
      (reworked.report s).toOption.map Report.html = some "<u class=\"a k\">&amp;</u>" ∧
      ∃ again, again = (fresh reworked.options "y").after
          (((fresh {} "x").accepted reworking).filter Operation.registers) ∧
        ∃ fuel, (again.expand fuel (.entity { block := some "a", content := some (.text "&") }) none true
          { issued := 5 }).map again.answer = some (reworked.answer s) := by
  have hfree : ∀ tag, (marking tag).IdFree := fun tag => .call _ _ nofun fun _ => .done none
  have hrules : reworked.rules = [⟨.selector { block := { name := "a", cond := none }, elem := none },
    .call (.edit (.cls "k") false) fun _ => .done none⟩, ⟨.after, marking "i"⟩, ⟨.after, marking "u"⟩] := rfl
  have hi : ∀ rule ∈ reworked.rules, rule.body.IdFree := by
    rw [hrules]
    simp only [List.mem_cons, List.not_mem_nil, or_false, forall_eq_or_imp, forall_eq]
    exact ⟨.call _ _ nofun fun _ => .done none, hfree "i", hfree "u"⟩
  have hhtml : (reworked.expand 4 (.entity { block := some "a", content := some (.text "&") }) none true {}).map
      (fun s => (reworked.report s).toOption.map Report.html) = some (some "<u class=\"a k\">&amp;</u>") := by
    decide +kernel
  obtain ⟨s, hs, he⟩ := Option.map_eq_some_iff.mp hhtml
  have hreach : (fresh {} "x").after reworking = reworked := rfl
  obtain ⟨_, _, hagain⟩ := after_answers hreach
  obtain ⟨_, _, _, hsame⟩ := hagain "y" _ rfl
  refine ⟨by rw [hrules]; rfl, s, hs, he, _, rfl, ?_⟩
  exact (hsame hi _ none true {} { issued := 5 } rfl _).mp ⟨4, by rw [hs]; rfl⟩

end Reworking

end Engine

end Bemjson
