import Bemjson.Proofs.CommandLine.Requests
import Bemjson.Proofs.Patching.Laws
import Bemjson.Proofs.RuleFree.Enough
import Bemjson.Proofs.RuleFree.Meaning
import Mathlib.Data.List.TakeWhile

namespace Bemjson

namespace Json

lemma isWhiteSpace_of_isDigit {c : Char} (h : c.isDigit) : isWhiteSpace c = false := by
  rw [Char.isDigit, Bool.and_eq_true, decide_eq_true_eq, decide_eq_true_eq] at h
  have hlow : 48 ≤ c.toNat := h.1
  have hhigh : c.toNat ≤ 57 := h.2
  simp [isWhiteSpace, whiteSpace]
  omega

lemma readValue_of_blank {cs : List Char} (h : ∀ c ∈ cs, isWhiteSpace c) (depth : Nat) :
    ∃ e, readValue depth cs = .error e := by
  have hskip : ∀ c ∈ skipBlanks cs, isWhiteSpace c := fun c hc => h c ((List.dropWhile_suffix _).subset hc)
  rw [readValue]
  cases hcs : skipBlanks cs with
  | nil => exact ⟨_, rfl⟩
  | cons c r =>
    have hc := hskip c (by simp [hcs])
    have hne : ∀ d, isWhiteSpace d = false → c ≠ d := by
      rintro d hd rfl
      cases hc.symm.trans hd
    have hdigit : ¬c.isDigit := fun hd => by cases hc.symm.trans (isWhiteSpace_of_isDigit hd)
    dsimp only
    rw [if_neg (hne 'n' rfl), if_neg (hne 't' rfl), if_neg (hne 'f' rfl), if_neg (hne '-' rfl), if_neg hdigit,
      if_neg (hne '"' rfl), if_neg (hne '[' rfl), if_neg (hne '{' rfl)]
    exact ⟨_, rfl⟩

lemma read_of_blank {source : String} (h : (trimBlanks source).isEmpty) : ∃ e, read source = .error e := by
  have hall : ∀ c ∈ source.toList, isWhiteSpace c := by
    intro c hc
    rw [trimBlanks, String.isEmpty_iff, String.ofList_eq_empty_iff, List.reverse_eq_nil_iff,
      List.dropWhile_eq_nil_iff] at h
    have hcut : source.toList.takeWhile isWhiteSpace ++ source.toList.dropWhile isWhiteSpace = source.toList :=
      List.takeWhile_append_dropWhile
    rw [← hcut, List.mem_append] at hc
    rcases hc with hc | hc
    · exact List.mem_takeWhile_imp hc
    · exact h c (List.mem_reverse.mpr hc)
  obtain ⟨e, he⟩ := readValue_of_blank hall maxDepth
  exact ⟨_, by rw [read, readWithin, readAll, he]; rfl⟩

end Json

section Engines

variable {engine : Engine}

lemma Engine.index_ofOptions (o : Options) : Engine.index { options := o } = {} :=
  Sound.index_of_rules (.of_unbuilt rfl) rfl

lemma Engine.expand_unique {tree : Node} {block : Option String} {deep : Bool} {journal : Journal} {m n : Nat} {s t : State}
    (hs : engine.expand m tree block deep journal = some s) (ht : engine.expand n tree block deep journal = some t) :
    s = t := by
  have hunbounded : ∀ fuel s, engine.expand fuel tree block deep journal = some s →
      drain engine.setting (.unbounded engine.setting) deep fuel (.start engine.setting tree block 0 journal) = some s :=
    fun fuel s h => (drain_finitary engine.setting deep fuel _).mono _ _ s (ofFuel_le engine.setting fuel) h
  have hs' := drain_more engine.setting _ deep (Nat.le_max_left m n) (hunbounded m s hs)
  have ht' := drain_more engine.setting _ deep (Nat.le_max_right m n) (hunbounded n t ht)
  exact Option.some.inj (hs'.symm.trans ht')

lemma Engine.renderSource_unique {source : String} {m n : Nat} {a b : Except SourceError Report}
    (ha : engine.renderSource m source = some a) (hb : engine.renderSource n source = some b) : a = b := by
  rw [renderSource] at ha hb
  cases hread : Json.read source with
  | error e =>
    rw [hread] at ha hb
    exact Option.some.inj (ha.symm.trans hb)
  | ok v =>
    rw [hread] at ha hb
    simp only [render, Option.map_map, Option.map_eq_some_iff] at ha hb
    obtain ⟨s, hs, rfl⟩ := ha
    obtain ⟨t, ht, rfl⟩ := hb
    rw [expand_unique hs ht]

lemma Options.mem_of_patch_detectLoops {fields : Assoc Json} {o : Options}
    (h : ({} : Options).patch (.object fields) = .ok o) (hloops : o.detectLoops = true) :
    ("enableCycleDetection", .bool true) ∈ fields := by
  obtain ⟨p, hp, rfl⟩ := Options.patch_eq_ok.mp h
  have hflag : p.choice .detectLoops = some (.flag true) := by
    cases hd : p.detectLoops with
    | none => simp [Patch.apply, hd] at hloops
    | some b => simp_all [Patch.apply, Patch.choice]
  have hgiven := (Patch.choice_of_read hp .detectLoops).symm.trans hflag
  obtain ⟨v, hv, hchoice⟩ := Option.bind_eq_some_iff.mp hgiven
  obtain ⟨⟨name, w⟩, hmem, hw⟩ := List.exists_of_findSome?_eq_some hv
  obtain ⟨hname, hpresent⟩ : OptionKey.ofName? name = some .detectLoops ∧ w.present = some v := by
    split at hw
    · rename_i hname
      exact ⟨hname, hw⟩
    · cases hw
  obtain rfl : v = .bool true := by
    cases v <;> cases hchoice
    rfl
  obtain rfl : w = .bool true := by
    cases w <;> cases hpresent
    rfl
  rcases OptionKey.ofName?_eq_some.mp hname with rfl | halias
  · exact hmem
  · cases halias

end Engines

namespace CommandLine

/-- The text that is rendered: what an item names as input, or else all that stands on the standard input, if that can
be read. -/
def inputOf (sources : Sources) (is : List Item) : Option String :=
  (is.filterMap (Item.input? sources)).head?.or sources.stdin.toOption

def optionsOf (is : List Item) : Except PatchError Options :=
  (((is.filterMap Item.patch?).getLast?.map (Options.patch {})).getD (.ok {})).map fun o =>
    { o with
      escapeText := o.escapeText && !decide (.noEscape ∈ is)
      detectLoops := o.detectLoops || decide (.detectLoops ∈ is) }

/-- The arguments are accepted, and rendering their input with their options comes to the result. -/
def Renders (sources : Sources) (args : List String) (result : Except SourceError Report) : Prop :=
  Accepted sources (items args) ∧ ∃ options text fuel, optionsOf (items args) = .ok options ∧
    inputOf sources (items args) = some text ∧ Engine.renderSource { options } fuel text = some result

inductive Ending (sources : Sources) (args : List String) : Outcome → Prop where
  | informed (text : String) : Informs sources args → Ending sources args { code := 0, stdout := text ++ "\n" }
  | refused (message : String) : ¬Informs sources args →
      (∀ result, Renders sources args result → ∃ e, result = .error (.json e)) → Ending sources args (.refuse message)
  | looped (e : LoopError) : Renders sources args (.error (.loop e)) →
      Ending sources args { code := 1, stderr := "error: " ++ e.message ++ "\n" }
  | rendered (report : Report) (stderr : String) : Renders sources args (.ok report) →
      Ending sources args { code := 0, stdout := report.html ++ "\n", stderr }

section Runs

variable {sources : Sources} {args : List String} {t : Timing}

lemma Renders.unique {a b : Except SourceError Report} (ha : Renders sources args a) (hb : Renders sources args b) :
    a = b := by
  obtain ⟨-, o, text, m, ho, htext, ha⟩ := ha
  obtain ⟨-, o', text', n, ho', htext', hb⟩ := hb
  obtain rfl := Except.ok.inj (ho.symm.trans ho')
  obtain rfl := Option.some.inj (htext.symm.trans htext')
  exact Engine.renderSource_unique ha hb

lemma Informs.not_accepted (h : Informs sources args) : ¬Accepted sources (items args) := by
  obtain ⟨before, i, rest, hitems, hi, -⟩ := h
  intro hall
  have hfine := hall.fine i (by simp [hitems])
  cases i with
  | help | version => exact hfine
  | _ => cases hi

lemma text_cases (color : Bool) (is : List Item) :
    (∃ text, inputOf sources is = some text ∧ (Request.after sources { color } is).text sources = .ok text) ∨
      inputOf sources is = none ∧ ∃ e, (Request.after sources { color } is).text sources = .error (.usage e) := by
  rw [inputOf, Request.text, Request.after, Option.none_or]
  cases (is.filterMap (Item.input? sources)).head? with
  | some text => exact .inl ⟨text, rfl, rfl⟩
  | none =>
    cases sources.stdin with
    | ok text => exact .inl ⟨text, rfl, rfl⟩
    | error reason => exact .inr ⟨rfl, .unreadableStdin reason, rfl⟩

lemma readInput_of_accepted (h : Accepted sources (items args)) {text : String}
    (htext : (Request.after sources { color := sources.terminal } (items args)).text sources = .ok text) :
    Request.readInput sources args =
      if (trimBlanks text).isEmpty then .error (.usage .noInput)
      else .ok (Request.after sources { color := sources.terminal } (items args), text) := by
  rw [Request.readInput, Request.read_eq_ok.mpr ⟨h, rfl⟩]
  simp only [bind, Except.bind, htext]

lemma options_after (color : Bool) (is : List Item) :
    Job.options (Request.after sources { color } is) = optionsOf is := by
  rw [Job.options, optionsOf, Request.after]
  cases (is.filterMap Item.patch?).getLast? <;> rfl

lemma not_informs (h : Accepted sources (items args)) : ¬Informs sources args := fun hi => hi.not_accepted h

lemma ends_of_source_error {text : String} {e : Json.ReadError} (hinput : inputOf sources (items args) = some text)
    (h : Json.read text = .error e) (result : Except SourceError Report) (hr : Renders sources args result) :
    ∃ e, result = .error (.json e) := by
  obtain ⟨-, o, text', fuel, -, hinput', hr⟩ := hr
  obtain rfl := Option.some.inj (hinput.symm.trans hinput')
  rw [Engine.renderSource, h] at hr
  exact ⟨e, (Option.some.inj hr).symm⟩

lemma job_of_accepted (h : Accepted sources (items args)) {text : String}
    (htext : (Request.after sources { color := sources.terminal } (items args)).text sources = .ok text)
    (hblank : ¬(trimBlanks text).isEmpty) :
    ∃ verbose color, Job.read sources args = do
      let options ← (optionsOf (items args)).mapError fun e => .refuse ("error: " ++ e.message)
      let tree ← (Json.read text).mapError fun e => .refuse ("error: " ++ (SourceError.json e).message)
      return { engine := { options }, tree := .ofJson tree, verbose, color } := by
  have hread := readInput_of_accepted h htext
  rw [if_neg hblank] at hread
  let r := Request.after sources { color := sources.terminal } (items args)
  refine ⟨r.verbose, r.color, ?_⟩
  rw [Job.read, hread, ← options_after sources.terminal]
  rfl

lemma ends_of_job {o : Options} {text : String} {v : Json} {verbose color : Bool} (h : Accepted sources (items args))
    (hoptions : optionsOf (items args) = .ok o) (hinput : inputOf sources (items args) = some text)
    (hsource : Json.read text = .ok v)
    (hjob : Job.read sources args = .ok { engine := { options := o }, tree := .ofJson v, verbose, color }) :
    ∃ o, run sources args t = some o ∧ Ending sources args o := by
  let engine : Engine := { options := o }
  let fuel := (Node.ofJson v).size + 2
  obtain ⟨s, hs⟩ := Engine.exists_expand_of_size (Engine.index_ofOptions o) (Nat.le_refl fuel) none true {}
  have hrenders : Renders sources args ((engine.report s).mapError .loop) := by
    refine ⟨h, o, text, fuel, hoptions, hinput, ?_⟩
    rw [Engine.renderSource, hsource]
    change ((engine.expand fuel _ none true {}).map engine.report).map _ = _
    rw [hs]
    rfl
  have hrun : run sources args t =
      some (Job.finish { engine, tree := .ofJson v, verbose, color } t (engine.report s)) := by
    rw [run, hjob]
    change (engine.expand fuel _ none true {}).map _ = _
    rw [hs]
    rfl
  cases hreport : engine.report s with
  | error e =>
    rw [hreport] at hrenders hrun
    exact ⟨_, hrun, .looped e hrenders⟩
  | ok report =>
    rw [hreport] at hrenders hrun
    exact ⟨_, hrun, .rendered report _ hrenders⟩

lemma run_ends (sources : Sources) (args : List String) (t : Timing) :
    ∃ o, run sources args t = some o ∧ Ending sources args o := by
  cases hread : Request.read sources { color := sources.terminal } args with
  | error stop =>
    refine ⟨.ofStop stop, by rw [run, Job.read, Request.readInput, hread]; rfl, ?_⟩
    have hinforms : Informs sources args ↔ stop.informs := by
      rw [Request.informs_iff, hread]
      simp
    cases stop with
    | usage e =>
      refine .refused e.message (by rw [hinforms]; exact Bool.false_ne_true) fun result hr => ?_
      cases hread.symm.trans (Request.read_eq_ok.mpr ⟨hr.1, rfl⟩)
    | help => exact .informed helpText (hinforms.mpr rfl)
    | version => exact .informed versionText (hinforms.mpr rfl)
  | ok r =>
    obtain ⟨haccepted, rfl⟩ := Request.read_eq_ok.mp hread
    rcases text_cases sources.terminal (items args) with ⟨text, hinput, htext⟩ | ⟨hnone, e, he⟩
    · by_cases hblank : (trimBlanks text).isEmpty
      · obtain ⟨e, he⟩ := Json.read_of_blank hblank
        have hreadInput := readInput_of_accepted haccepted htext
        rw [if_pos hblank] at hreadInput
        refine ⟨.refuse UsageError.noInput.message, ?_,
          .refused _ (not_informs haccepted) (ends_of_source_error hinput he)⟩
        rw [run, Job.read, hreadInput]
        rfl
      · obtain ⟨verbose, color, hjob⟩ := job_of_accepted haccepted htext hblank
        cases hoptions : optionsOf (items args) with
        | error e =>
          rw [hoptions] at hjob
          refine ⟨_, by rw [run, hjob]; rfl, .refused ("error: " ++ e.message) (not_informs haccepted) ?_⟩
          rintro result ⟨-, o, _, _, ho, _⟩
          cases hoptions.symm.trans ho
        | ok o =>
          cases hsource : Json.read text with
          | error e =>
            rw [hoptions, hsource] at hjob
            exact ⟨_, by rw [run, hjob]; rfl, .refused ("error: " ++ (SourceError.json e).message)
              (not_informs haccepted) (ends_of_source_error hinput hsource)⟩
          | ok v =>
            rw [hoptions, hsource] at hjob
            exact ends_of_job haccepted hoptions hinput hsource hjob
    · refine ⟨.refuse e.message, ?_, .refused _ (not_informs haccepted) ?_⟩
      · rw [run, Job.read, Request.readInput, hread]
        simp only [bind, Except.bind, he]
        rfl
      · rintro result ⟨-, _, _, _, _, hsome, _⟩
        cases hnone.symm.trans hsome

namespace Ending

variable {o : Outcome}

lemma code_le (h : Ending sources args o) : o.code ≤ 2 := by
  cases h with
  | informed | rendered => exact Nat.zero_le 2
  | looped => exact Nat.le_succ 1
  | refused => exact Nat.le_refl 2

lemma stdout_eq (h : Ending sources args o) (hcode : o.code ≠ 0) : o.stdout = "" := by
  cases h with
  | informed | rendered => exact absurd rfl hcode
  | refused | looped => rfl

lemma code_eq_zero (h : Ending sources args o) :
    o.code = 0 ↔ Informs sources args ∨ ∃ report, Renders sources args (.ok report) := by
  cases h with
  | informed text hinforms => exact iff_of_true rfl (.inl hinforms)
  | rendered report stderr hr => exact iff_of_true rfl (.inr ⟨report, hr⟩)
  | refused message hinforms hfails =>
    refine iff_of_false (Nat.succ_ne_zero 1) ?_
    rintro (hi | ⟨report, hr⟩)
    · exact hinforms hi
    · obtain ⟨e, he⟩ := hfails _ hr
      cases he
  | looped e hr =>
    refine iff_of_false Nat.one_ne_zero ?_
    rintro (hi | ⟨report, hr'⟩)
    · exact hi.not_accepted hr.1
    · cases hr.unique hr'

lemma code_eq_one (h : Ending sources args o) : o.code = 1 ↔ ∃ e, Renders sources args (.error (.loop e)) := by
  cases h with
  | informed text hinforms => exact iff_of_false Nat.zero_ne_one fun ⟨_, hr⟩ => hinforms.not_accepted hr.1
  | looped e hr => exact iff_of_true rfl ⟨e, hr⟩
  | refused message _ hfails =>
    refine iff_of_false (Nat.succ_succ_ne_one 0) ?_
    rintro ⟨e, hr⟩
    obtain ⟨e', he⟩ := hfails _ hr
    cases he
  | rendered report stderr hr =>
    refine iff_of_false Nat.zero_ne_one ?_
    rintro ⟨e, hr'⟩
    cases hr.unique hr'

lemma stdout_of_renders (h : Ending sources args o) {report : Report} (hr : Renders sources args (.ok report)) :
    o.stdout = report.html ++ "\n" := by
  cases h with
  | informed _ hinforms => exact absurd hr.1 hinforms.not_accepted
  | refused _ _ hfails =>
    obtain ⟨e, he⟩ := hfails _ hr
    cases he
  | looped e hr' => cases hr.unique hr'
  | rendered report' _ hr' =>
    cases hr.unique hr'
    rfl

end Ending

lemma detectLoops_of_looped {e : LoopError} (h : Renders sources args (.error (.loop e))) :
    ∃ o, optionsOf (items args) = .ok o ∧ o.detectLoops = true := by
  obtain ⟨-, o, text, fuel, ho, -, h⟩ := h
  refine ⟨o, ho, ?_⟩
  rw [Engine.renderSource] at h
  cases hsource : Json.read text with
  | error e' =>
    rw [hsource] at h
    cases h
  | ok v =>
    rw [hsource] at h
    simp only [Engine.render, Option.map_map, Option.map_eq_some_iff] at h
    obtain ⟨s, hs, hreport⟩ := h
    have herror : ∃ err, s.result = .error err := by
      rw [Function.comp_apply, Engine.report] at hreport
      cases hresult : s.result with
      | error err => exact ⟨err, rfl⟩
      | ok n => rw [hresult] at hreport; cases hreport
    exact ((Engine.isError_iff (Engine.index_ofOptions o) hs).mp herror).1

lemma switched_on {is : List Item} {o : Options} (h : Accepted sources is) (ho : optionsOf is = .ok o)
    (hloops : o.detectLoops = true) : .detectLoops ∈ is ∨
      ∃ fields, (is.filterMap Item.patch?).getLast? = some (.object fields) ∧
        ("enableCycleDetection", .bool true) ∈ fields := by
  rw [optionsOf] at ho
  cases hlast : (is.filterMap Item.patch?).getLast? with
  | none =>
    rw [hlast] at ho
    cases ho
    exact .inl (by simpa using hloops)
  | some patch =>
    rw [hlast] at ho
    obtain ⟨i, hi, hpatch⟩ := List.mem_filterMap.mp (List.mem_of_getLast? hlast)
    obtain ⟨fields, rfl⟩ := (h.fine i hi).patch hpatch
    cases hbase : Options.patch {} (.object fields) with
    | error e =>
      rw [Option.map_some, Option.getD_some, hbase] at ho
      cases ho
    | ok base =>
      rw [Option.map_some, Option.getD_some, hbase] at ho
      cases ho
      rcases (Bool.or_eq_true _ _).mp hloops with hon | hflag
      · exact .inr ⟨fields, rfl, Options.mem_of_patch_detectLoops hbase hon⟩
      · exact .inl (of_decide_eq_true hflag)

section Quiet

def Closed (args : List String) : Prop := ∀ o, .missing o ∉ items args

lemma items_append {before : List String} (h : Closed before) (after : List String) :
    items (before ++ after) = items before ++ items after := by
  rcases items_append_cases before with hclosed | ⟨rest, o, hrest, -⟩
  · exact hclosed after
  · exact absurd (by simp [hrest]) (h o)

lemma Job.finish_quiet (job job' : Job) (t t' : Timing) (hengine : job'.engine = job.engine) (htree : job'.tree = job.tree) :
    (job.expand.map fun s => job.finish t (job.engine.report s)).map (fun o => (o.code, o.stdout)) =
      (job'.expand.map fun s => job'.finish t' (job'.engine.report s)).map fun o => (o.code, o.stdout) := by
  rw [Option.map_map, Option.map_map, Job.expand, Job.expand, hengine, htree]
  refine congrArg (Option.map · _) (funext fun s => ?_)
  rw [Function.comp_apply, Function.comp_apply]
  cases job.engine.report s <;> rfl

lemma run_quiet {args' : List String} (h : (Request.read sources { color := sources.terminal } args).map Request.quiet =
    (Request.read sources { color := sources.terminal } args').map Request.quiet) (t t' : Timing) :
    (run sources args t).map (fun o => (o.code, o.stdout)) = (run sources args' t').map fun o => (o.code, o.stdout) := by
  cases hr : Request.read sources { color := sources.terminal } args with
  | error stop =>
    cases hr' : Request.read sources { color := sources.terminal } args' with
    | error stop' =>
      rw [hr, hr'] at h
      cases h
      rw [run, run, Job.read, Job.read, Request.readInput, Request.readInput, hr, hr']
      rfl
    | ok r' =>
      rw [hr, hr'] at h
      cases h
  | ok r =>
    cases hr' : Request.read sources { color := sources.terminal } args' with
    | error stop' =>
      rw [hr, hr'] at h
      cases h
    | ok r' =>
      rw [hr, hr'] at h
      obtain ⟨verbose, color, rfl⟩ := Request.eq_of_quiet (Except.ok.inj h)
      have hoptions : Job.options { r with verbose, color } = Job.options r := rfl
      have htext : Request.text { r with verbose, color } sources = r.text sources := rfl
      rw [run, run, Job.read, Job.read, Request.readInput, Request.readInput, hr, hr']
      simp only [bind, Except.bind, htext]
      cases r.text sources with
      | error stop => rfl
      | ok text =>
        by_cases hblank : (trimBlanks text).isEmpty
        · simp only [if_pos hblank]
          rfl
        · simp only [if_neg hblank, Except.mapError, hoptions]
          cases Job.options r with
          | error e => rfl
          | ok o =>
            cases Json.read text with
            | error e => rfl
            | ok v => exact Job.finish_quiet _ _ t t' rfl rfl

lemma run_insert (sources : Sources) {before : List String} {arg : String} (h : Closed before) (hown : Valued.ofArg? arg = none)
    (hquiet : (Item.ofArg arg).isQuiet) (after : List String) (t t' : Timing) :
    (run sources (before ++ after) t).map (fun o => (o.code, o.stdout)) =
      (run sources (before ++ arg :: after) t').map fun o => (o.code, o.stdout) := by
  refine run_quiet ?_ t t'
  rw [Request.read_eq_foldlM, Request.read_eq_foldlM, items_append h, items_append h, items_own hown]
  exact (Request.foldlM_insert hquiet _ _).symm

end Quiet

end Runs

/-- A run always comes to an exit code and an output. Nothing is written to the standard output but help, the version, or
the markup of the input; the latter if and only if the arguments, the options and the input can all be read and rendering
succeeds. Rendering fails for loops alone, if their detection has been switched on. What asks for a report or colors it has
no say in that, wherever it stands as an argument of its own. -/
theorem run_laws (sources : Sources) (args : List String) (t : Timing) :
    ∃ o, run sources args t = some o ∧ o.code ≤ 2 ∧ (o.code ≠ 0 → o.stdout = "") ∧
      (o.code = 0 ↔ Informs sources args ∨ ∃ report, Renders sources args (.ok report)) ∧
      (∀ report, Renders sources args (.ok report) → o.stdout = report.html ++ "\n") ∧
      (o.code = 1 ↔ ∃ e, Renders sources args (.error (.loop e))) ∧
      (o.code = 1 → .detectLoops ∈ items args ∨ ∃ fields,
        ((items args).filterMap Item.patch?).getLast? = some (.object fields) ∧
          ("enableCycleDetection", .bool true) ∈ fields) ∧
      ∀ before arg after t', args = before ++ after → Closed before →
        arg ∈ ["-v", "--verbose", "--color", "--no-color"] →
        ∃ o', run sources (before ++ arg :: after) t' = some o' ∧ o'.code = o.code ∧ o'.stdout = o.stdout := by
  obtain ⟨o, ho, hends⟩ := run_ends sources args t
  have hquiet : ∀ before arg after t', args = before ++ after → Closed before →
      arg ∈ ["-v", "--verbose", "--color", "--no-color"] →
      ∃ o', run sources (before ++ arg :: after) t' = some o' ∧ o'.code = o.code ∧ o'.stdout = o.stdout := by
    rintro before arg after t' rfl hbefore harg
    obtain ⟨hown, hitem⟩ : Valued.ofArg? arg = none ∧ (Item.ofArg arg).isQuiet := by
      simp only [List.mem_cons, List.not_mem_nil, or_false] at harg
      rcases harg with rfl | rfl | rfl | rfl <;> exact ⟨rfl, rfl⟩
    obtain ⟨o', ho', -⟩ := run_ends sources (before ++ arg :: after) t'
    have hsame := run_insert sources hbefore hown hitem after t t'
    rw [ho, ho'] at hsame
    obtain ⟨hcode, hstdout⟩ := Prod.mk.inj (Option.some.inj hsame)
    exact ⟨o', ho', hcode.symm, hstdout.symm⟩
  refine ⟨o, ho, hends.code_le, hends.stdout_eq, hends.code_eq_zero, fun _ => hends.stdout_of_renders,
    hends.code_eq_one, fun hone => ?_, hquiet⟩
  obtain ⟨e, hr⟩ := hends.code_eq_one.mp hone
  obtain ⟨options, hoptions, hloops⟩ := detectLoops_of_looped hr
  exact switched_on hr.1 hoptions hloops

theorem run_laws_block : ∃ o, run noFiles ["--input", "\x7b\"block\":\"a\"\x7d"] {} = some o ∧ o.code = 0 ∧
    o.stdout = "<div class=\"a\"></div>\n" ∧
    ∃ o', run noFiles ["--input", "\x7b\"block\":\"a\"\x7d", "-v"] {} = some o' ∧ o'.code = 0 ∧ o'.stdout = o.stdout := by
  have hrun : run noFiles ["--input", "\x7b\"block\":\"a\"\x7d"] {} = some ⟨0, "<div class=\"a\"></div>\n", ""⟩ := by
    decide +kernel
  have hclosed : Closed ["--input", "\x7b\"block\":\"a\"\x7d"] := by
    rintro o ho
    cases List.mem_singleton.mp ho
  obtain ⟨o, ho, -, -, -, -, -, -, hquiet⟩ := run_laws noFiles ["--input", "\x7b\"block\":\"a\"\x7d"] {}
  obtain rfl := Option.some.inj (hrun.symm.trans ho)
  exact ⟨_, hrun, rfl, rfl, hquiet ["--input", "\x7b\"block\":\"a\"\x7d"] "-v" [] {} rfl hclosed (by decide)⟩

end CommandLine

end Bemjson
