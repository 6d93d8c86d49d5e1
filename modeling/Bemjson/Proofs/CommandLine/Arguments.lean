import Bemjson.CommandLine.Outcome
import Mathlib.Data.List.Basic

/-! A command line as a list of items that are taken one after the other. The value of an option is the same whether
it is an argument of its own or comes after an equals sign. -/

namespace Bemjson

namespace Json

lemma foldl_utf8Size (cs : List Char) (n : Nat) : cs.foldl (fun n c => n + c.utf8Size) n = n + byteCount cs := by
  rw [byteCount]
  induction cs generalizing n with
  | nil => rfl
  | cons c cs ih => rw [List.foldl_cons, List.foldl_cons, ih, ih (0 + _), Nat.zero_add, Nat.add_assoc]

lemma byteCount_cons (c : Char) (cs : List Char) : byteCount (c :: cs) = c.utf8Size + byteCount cs := by
  rw [byteCount, List.foldl_cons, foldl_utf8Size, Nat.zero_add]

lemma place_zero (line column : Nat) (cs : List Char) : place line column cs 0 = (line, column) := by
  cases cs with
  | nil => rfl
  | cons c cs => rw [place, if_pos c.utf8Size_pos, Nat.add_zero]

lemma read_of_dashes {source : String} {cs : List Char} (h : source.toList = '-' :: '-' :: cs) :
    read source = .error ⟨.badNumber, 1, 2⟩ := by
  have hread : readAll maxDepth source.toList = .error ⟨.badNumber, '-' :: cs, 1⟩ := by rw [h]; rfl
  have hbytes : byteCount source.toList - byteCount ('-' :: cs) + 1 = 2 := by
    have hdash : Char.utf8Size '-' = 1 := rfl
    rw [h, byteCount_cons, hdash]
    omega
  have hplace : place 1 0 source.toList 2 = (1, 2) := by
    rw [h]
    exact place_zero 1 2 cs
  rw [read, readWithin, hread, Except.mapError, Failure.locate, hbytes, hplace]

end Json

namespace CommandLine

inductive Valued where
  | options
  | input
  deriving DecidableEq

namespace Valued

def name : Valued → String
  | options => "--options"
  | input => "--input"

def marker (o : Valued) : String := o.name ++ "="

def ofArg? : String → Option Valued
  | "--options" => some options
  | "--input" => some input
  | "-i" => some input
  | _ => none

lemma ofArg?_name (o : Valued) : ofArg? o.name = some o := by cases o <;> rfl

end Valued

inductive Item where
  | help
  | version
  | color (on : Bool)
  | noEscape
  | detectLoops
  | verbose
  | value (o : Valued) (text : String)
  | missing (o : Valued)
  | stdin
  | file (path : String)
  | unknown (arg : String)
  deriving DecidableEq

namespace Item

def ofOther (arg : String) : Item :=
  match Request.valueAfter? "--options=" arg, Request.valueAfter? "--input=" arg with
  | some text, _ => .value .options text
  | none, some text => .value .input text
  | none, none => if arg.toList.head? = some '-' then .unknown arg else .file arg

def ofArg : String → Item
  | "-h" => .help
  | "--help" => .help
  | "-V" => .version
  | "--version" => .version
  | "--color" => .color true
  | "--no-color" => .color false
  | "--no-escape" => .noEscape
  | "--detect-loops" => .detectLoops
  | "-v" => .verbose
  | "--verbose" => .verbose
  | "-" => .stdin
  | arg => ofOther arg

end Item

def items : List String → List Item
  | [] => []
  | [arg] =>
    match Valued.ofArg? arg with
    | some o => [.missing o]
    | none => [.ofArg arg]
  | arg :: text :: args =>
    match Valued.ofArg? arg with
    | some o => .value o text :: items args
    | none => .ofArg arg :: items (text :: args)

section Items

variable {arg : String} {o : Valued}

lemma items_own (h : Valued.ofArg? arg = none) (args : List String) : items (arg :: args) = .ofArg arg :: items args := by
  cases args <;> simp [items, h]

lemma items_value (h : Valued.ofArg? arg = some o) (text : String) (args : List String) :
    items (arg :: text :: args) = .value o text :: items args := by
  simp [items, h]

lemma items_append_cases (before : List String) :
    (∀ after, items (before ++ after) = items before ++ items after) ∨
      ∃ rest o, items before = rest ++ [.missing o] ∧
        ∀ text after, items (before ++ text :: after) = rest ++ .value o text :: items after := by
  fun_induction items before with
  | case1 => exact .inl fun _ => rfl
  | case2 arg o h => exact .inr ⟨[], o, rfl, fun text after => items_value h text after⟩
  | case3 arg h => exact .inl fun after => items_own h after
  | case4 arg text args o h ih =>
    rcases ih with ih | ⟨rest, o', hargs, ih⟩
    · exact .inl fun after => (items_value h text _).trans (congrArg _ (ih after))
    · exact .inr ⟨.value o text :: rest, o', congrArg _ hargs, fun text' after =>
        (items_value h text _).trans (congrArg _ (ih text' after))⟩
  | case5 arg text args h ih =>
    rcases ih with ih | ⟨rest, o', hargs, ih⟩
    · exact .inl fun after => (items_own h _).trans (congrArg _ (ih after))
    · exact .inr ⟨.ofArg arg :: rest, o', congrArg _ hargs, fun text' after =>
        (items_own h _).trans (congrArg _ (ih text' after))⟩

end Items

namespace Request

def take (sources : Sources) (r : Request) : Item → Except Stop Request
  | .help => .error .help
  | .version => .error .version
  | .color on => .ok { r with color := on }
  | .noEscape => .ok { r with noEscape := true }
  | .detectLoops => .ok { r with detectLoops := true }
  | .verbose => .ok { r with verbose := true }
  | .value .options text => r.setOptions text
  | .value .input text => r.setInput text
  | .missing o => .error (.usage (.noValue o.name))
  | .stdin => r.setFrom sources.stdin .unreadableStdin
  | .file path => r.setFrom (sources.file path) (.unreadable path)
  | .unknown arg => .error (.usage (.unknownOption arg))

lemma take_ofOther (sources : Sources) (r : Request) (arg : String) :
    r.take sources (.ofOther arg) = r.readOther sources arg := by
  unfold Item.ofOther readOther
  cases valueAfter? "--options=" arg with
  | some text => rfl
  | none =>
    cases valueAfter? "--input=" arg with
    | some text => rfl
    | none =>
      dsimp only
      split <;> rfl

theorem read_eq_foldlM (sources : Sources) (r : Request) (args : List String) :
    read sources r args = (items args).foldlM (take sources) r := by
  fun_induction read sources r args with
  | case1 => rfl
  | case2 | case3 | case4 | case5 => rw [items_own rfl]; rfl
  | case6 _ _ ih | case7 _ _ ih | case8 _ _ ih | case9 _ _ ih | case10 _ _ ih | case11 _ _ ih =>
    rw [items_own rfl, ih]
    rfl
  | case12 | case14 | case15 => rfl
  | case13 _ text args ih | case16 _ text args ih | case17 _ text args ih =>
    simp only [ih]
    rw [items_value rfl]
    rfl
  | case18 r args ih =>
    simp only [ih]
    rw [items_own rfl]
    rfl
  | case19 r arg args =>
    rename_i ih
    simp only [ih]
    have hown : Valued.ofArg? arg = none := by
      unfold Valued.ofArg?
      split <;> first | rfl | cases args <;> simp_all
    have hother : Item.ofArg arg = .ofOther arg := by
      unfold Item.ofArg
      split <;> first | rfl | simp_all
    rw [items_own hown, hother, List.foldlM_cons, take_ofOther]
    rfl

lemma dropMarker_of_not_prefix {marker cs : List Char} (h : ¬marker <+: cs) (times : Nat) :
    dropMarker marker times cs = cs := by
  cases times with
  | zero => rfl
  | succ times => rw [dropMarker, if_neg (by simpa using h)]

lemma valueAfter?_append {marker text : String} (hmarker : marker.toList ≠ []) (h : ¬marker.toList <+: text.toList) :
    valueAfter? marker (marker ++ text) = some text := by
  obtain ⟨c, cs, hcs⟩ := List.exists_cons_of_ne_nil hmarker
  have hdrop : dropMarker marker.toList (marker ++ text).toList.length (marker ++ text).toList = text.toList := by
    have hlength : (marker ++ text).toList.length = (cs ++ text.toList).length + 1 := by
      rw [String.toList_append, hcs]
      rfl
    rw [hlength, dropMarker, if_pos (by simp), String.toList_append, List.drop_left, dropMarker_of_not_prefix h]
  rw [valueAfter?, if_pos (by simp), hdrop, String.ofList_toList]

end Request

section Joined

variable {o : Valued} {text : String}

lemma ofArg_of_mem {arg : String} (h : '=' ∈ arg.toList) : Valued.ofArg? arg = none ∧ Item.ofArg arg = .ofOther arg := by
  constructor
  · unfold Valued.ofArg?
    split <;> first | rfl | exact absurd h (by decide)
  · unfold Item.ofArg
    split <;> first | rfl | exact absurd h (by decide)

lemma items_joined (h : ¬o.marker.toList <+: text.toList) (after : List String) :
    items ((o.marker ++ text) :: after) = .value o text :: items after := by
  have hmem : '=' ∈ (o.marker ++ text).toList := by
    rw [Valued.marker, String.toList_append, String.toList_append]
    simp
  have hvalue : Request.valueAfter? o.marker (o.marker ++ text) = some text :=
    Request.valueAfter?_append (by cases o <;> decide) h
  obtain ⟨hown, hother⟩ := ofArg_of_mem hmem
  rw [items_own hown, hother, Item.ofOther]
  cases o with
  | options =>
    have hoptions : Request.valueAfter? "--options=" _ = some text := hvalue
    rw [hoptions]
  | input =>
    have hinput : Request.valueAfter? "--input=" _ = some text := hvalue
    have hoptions : Request.valueAfter? "--options=" (Valued.input.marker ++ text) = none := by
      rw [Request.valueAfter?, String.toList_append]
      exact if_neg Bool.false_ne_true
    rw [hoptions, hinput]

lemma setOptions_of_dashes {r : Request} {cs : List Char} (h : text.toList = '-' :: '-' :: cs) :
    r.setOptions text = .error (.usage (.badOptions ⟨.badNumber, 1, 2⟩)) := by
  rw [Request.setOptions, Json.read_of_dashes h]

lemma Valued.toList_name (o : Valued) : ∃ cs, o.name.toList = '-' :: '-' :: cs := by
  cases o <;> exact ⟨_, rfl⟩

/-- The arguments end with an option that waits for its value, and the value would be the input. -/
def AwaitsInput (sources : Sources) (args : List String) : Prop :=
  Request.read sources { color := sources.terminal } args = .error (.usage (.noValue "--input"))

lemma read_joined {sources : Sources} {r : Request} {before : List String} (h : ¬o.marker.toList <+: text.toList)
    (hbefore : r.read sources before ≠ .error (.usage (.noValue "--input"))) (after : List String) :
    Request.read sources r (before ++ (o.marker ++ text) :: after) =
      Request.read sources r (before ++ o.name :: text :: after) := by
  rw [Request.read_eq_foldlM, Request.read_eq_foldlM]
  rcases items_append_cases before with hclosed | ⟨rest, o', hrest, hwaits⟩
  · rw [hclosed, hclosed, items_joined h, items_value o.ofArg?_name]
  · rw [hwaits, hwaits, List.foldlM_append, List.foldlM_append]
    cases hr : rest.foldlM (Request.take sources) r with
    | error stop => rfl
    | ok r' =>
      cases o' with
      | input =>
        refine absurd ?_ hbefore
        rw [Request.read_eq_foldlM, hrest, List.foldlM_append, hr]
        rfl
      | options =>
        -- What is then taken for the options begins with two dashes either way, and is refused as a number that is none.
        obtain ⟨cs, hname⟩ := o.toList_name
        have hmarked : (o.marker ++ text).toList = '-' :: '-' :: (cs ++ "=".toList ++ text.toList) := by
          rw [Valued.marker, String.toList_append, String.toList_append, hname]
          rfl
        change ((r'.setOptions _).bind _) = ((r'.setOptions _).bind _)
        rw [setOptions_of_dashes hname, setOptions_of_dashes hmarked]
        rfl

lemma run_congr {sources : Sources} {args args' : List String}
    (h : Request.read sources { color := sources.terminal } args = Request.read sources { color := sources.terminal } args')
    (t : Timing) : run sources args t = run sources args' t := by
  rw [run, run, Job.read, Job.read, Request.readInput, Request.readInput, h]

/-- The value of an option comes to the same as an argument of its own and behind the equals sign. -/
theorem run_joined (sources : Sources) (before : List String) (o : Valued) (text : String) (after : List String)
    (t : Timing) (hbefore : ¬AwaitsInput sources before) (htext : ¬o.marker.toList <+: text.toList) :
    run sources (before ++ (o.marker ++ text) :: after) t = run sources (before ++ o.name :: text :: after) t :=
  run_congr (read_joined htext hbefore after) t

def noFiles : Sources where
  stdin := ""
  file _ := .error "No such file or directory (os error 2)"

theorem run_joined_unescaped :
    ¬AwaitsInput noFiles ["--no-escape"] ∧ ¬Valued.input.marker.toList <+: "[\"<\"]".toList ∧
      run noFiles (["--no-escape"] ++ ("--input=" ++ "[\"<\"]") :: ["--color"]) {} =
        run noFiles (["--no-escape"] ++ "--input" :: "[\"<\"]" :: ["--color"]) {} ∧
      run noFiles ["--no-escape", "--input", "[\"<\"]", "--color"] {} = some ⟨0, "<\n", ""⟩ :=
  have hbefore : ¬AwaitsInput noFiles ["--no-escape"] := fun h => by cases h
  have htext : ¬Valued.input.marker.toList <+: "[\"<\"]".toList := by decide
  ⟨hbefore, htext, run_joined noFiles ["--no-escape"] .input "[\"<\"]" ["--color"] {} hbefore htext, by decide +kernel⟩

/-- An option that waits for its input takes the joined spelling whole, and half of the other one. A marker at the
beginning of the value is dropped with the option's own. -/
theorem run_joined_differs :
    run noFiles (["--input"] ++ ("--input=" ++ "--help") :: []) {} ≠
        run noFiles (["--input"] ++ "--input" :: "--help" :: []) {} ∧
      run noFiles ([] ++ ("--input=" ++ "--input=\x7b\"block\":\"a\"\x7d") :: []) {} ≠
        run noFiles ([] ++ "--input" :: "--input=\x7b\"block\":\"a\"\x7d" :: []) {} := by
  decide +kernel

end Joined

end CommandLine

end Bemjson
