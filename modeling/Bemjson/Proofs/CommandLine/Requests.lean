import Bemjson.Proofs.CommandLine.Arguments

/-! What a list of items asks for in all. Of the inputs there is one at most, the last options win, and a flag counts
wherever it stands. -/

namespace Bemjson.CommandLine

namespace Item

variable (sources : Sources)

def input? : Item → Option String
  | value .input text => some text
  | stdin => sources.stdin.toOption
  | file path => (sources.file path).toOption
  | _ => none

def patch? : Item → Option Json
  | value .options text => (Json.read text).toOption
  | _ => none

def color? : Item → Option Bool
  | color on => some on
  | _ => none

def Fine : Item → Prop
  | value .options text => ∃ fields, Json.read text = .ok (.object fields)
  | stdin => ∃ text, sources.stdin = .ok text
  | file path => ∃ text, sources.file path = .ok text
  | help | version | missing _ | unknown _ => False
  | _ => True

def informs : Item → Bool
  | help | version => true
  | _ => false

def isQuiet : Item → Bool
  | color _ | verbose => true
  | _ => false

end Item

def Stop.informs : Stop → Bool
  | help | version => true
  | usage _ => false

lemma Item.Fine.patch {sources : Sources} {i : Item} {v : Json} (h : i.Fine sources) (hv : i.patch? = some v) :
    ∃ fields, v = .object fields := by
  cases i with
  | value o text =>
    cases o with
    | options =>
      obtain ⟨fields, hfields⟩ := h
      rw [patch?, hfields] at hv
      exact ⟨fields, (Option.some.inj hv).symm⟩
    | input => cases hv
  | _ => cases hv

structure Accepted (sources : Sources) (is : List Item) : Prop where
  fine : ∀ i ∈ is, i.Fine sources
  once : (is.filterMap (Item.input? sources)).length ≤ 1

/-- Help or the version is asked for before anything is wrong. -/
def Informs (sources : Sources) (args : List String) : Prop :=
  ∃ before i rest, items args = before ++ i :: rest ∧ i.informs ∧ Accepted sources before

namespace Request

variable {sources : Sources} {r r' : Request}

def after (sources : Sources) (r : Request) (is : List Item) : Request where
  input := r.input.or (is.filterMap (Item.input? sources)).head?
  options := (is.filterMap Item.patch?).getLast?.or r.options
  noEscape := r.noEscape || decide (.noEscape ∈ is)
  detectLoops := r.detectLoops || decide (.detectLoops ∈ is)
  verbose := r.verbose || decide (.verbose ∈ is)
  color := (is.filterMap Item.color?).getLast?.getD r.color

def inputs (sources : Sources) (r : Request) (is : List Item) : List String :=
  r.input.toList ++ is.filterMap (Item.input? sources)

lemma setInput_eq_ok {text : String} :
    r.setInput text = .ok r' ↔ r.input = none ∧ r' = { r with input := some text } := by
  rw [setInput]
  cases r.input <;> simp [eq_comm]

lemma setOptions_eq_ok {text : String} : r.setOptions text = .ok r' ↔
    (∃ fields, Json.read text = .ok (.object fields)) ∧ r' = { r with options := (Json.read text).toOption } := by
  rw [setOptions]
  cases Json.read text with
  | error e => simp
  | ok v => cases v <;> simp [Except.toOption, eq_comm]

lemma after_append (r : Request) (before is : List Item) :
    r.after sources (before ++ is) = (r.after sources before).after sources is := by
  simp [after, List.head?_append, List.getLast?_append, Option.or_assoc, Bool.or_assoc]

lemma after_of_input {i : Item} {text : String} (h : i.input? sources = some text) (hnone : r.input = none) :
    r.after sources [i] = { r with input := some text } := by
  cases i with
  | value o text' =>
    cases o with
    | options => cases h
    | input => simp [after, h, hnone, Item.patch?, Item.color?]
  | stdin | file => simp [after, h, hnone, Item.patch?, Item.color?]
  | _ => cases h

lemma setInput_eq_ok_after {i : Item} {text : String} (h : i.input? sources = some text) :
    r.setInput text = .ok r' ↔ (r.input = none ∨ i.input? sources = none) ∧ r' = r.after sources [i] := by
  rw [setInput_eq_ok, h, or_iff_left (Option.some_ne_none text)]
  exact and_congr_right fun hnone => by rw [after_of_input h hnone]

lemma setFrom_eq_ok_after {i : Item} {source : Source} {unreadable : String → UsageError}
    (h : i.input? sources = source.toOption) : r.setFrom source unreadable = .ok r' ↔
      (∃ text, source = .ok text) ∧ (r.input = none ∨ i.input? sources = none) ∧ r' = r.after sources [i] := by
  cases source with
  | error reason => simp [setFrom]
  | ok text => exact (setInput_eq_ok_after h).trans (and_iff_right ⟨text, rfl⟩).symm

lemma take_eq_ok {i : Item} : r.take sources i = .ok r' ↔
    i.Fine sources ∧ (r.input = none ∨ i.input? sources = none) ∧ r' = r.after sources [i] := by
  cases i with
  | value o text =>
    cases o with
    | options =>
      rw [take, setOptions_eq_ok]
      refine and_congr_right ?_
      rintro ⟨fields, hfields⟩
      simp [Item.input?, after, Item.patch?, Item.color?, hfields, Except.toOption]
    | input =>
      have hnamed : (Item.value .input text).input? sources = some text := rfl
      exact (setInput_eq_ok_after hnamed).trans (and_iff_right trivial).symm
  | stdin | file => exact setFrom_eq_ok_after rfl
  | help | version | missing | unknown => simp [take, Item.Fine]
  | _ => simp [take, Item.Fine, Item.input?, after, Item.patch?, Item.color?, eq_comm]

lemma inputs_cons (r : Request) (i : Item) (is : List Item) : (r.inputs sources (i :: is)).length ≤ 1 ↔
    (r.input = none ∨ i.input? sources = none) ∧ ((r.after sources [i]).inputs sources is).length ≤ 1 := by
  cases hr : r.input <;> cases hi : i.input? sources <;> simp [inputs, after, hr, hi]

lemma foldlM_take_eq_ok {is : List Item} : is.foldlM (take sources) r = .ok r' ↔
    (∀ i ∈ is, i.Fine sources) ∧ (r.inputs sources is).length ≤ 1 ∧ r' = r.after sources is := by
  induction is generalizing r with
  | nil =>
    have hone : (r.inputs sources []).length ≤ 1 := by cases h : r.input <;> simp [inputs, h]
    have hsame : r.after sources [] = r := by simp [after]
    rw [hsame]
    simp [hone, pure, Except.pure, eq_comm]
  | cons i is ih =>
    have hstep : (i :: is).foldlM (take sources) r = .ok r' ↔
        ∃ r₁, r.take sources i = .ok r₁ ∧ is.foldlM (take sources) r₁ = .ok r' := by
      rw [List.foldlM_cons]
      cases r.take sources i <;> simp [bind, Except.bind]
    have hafter : r.after sources (i :: is) = (r.after sources [i]).after sources is := after_append r [i] is
    rw [hstep, List.forall_mem_cons, inputs_cons, hafter]
    simp only [take_eq_ok, ih]
    constructor
    · rintro ⟨_, ⟨hi, hfree, rfl⟩, his, honce, h⟩
      exact ⟨⟨hi, his⟩, ⟨hfree, honce⟩, h⟩
    · rintro ⟨⟨hi, his⟩, ⟨hfree, honce⟩, h⟩
      exact ⟨_, ⟨hi, hfree, rfl⟩, his, honce, h⟩

lemma read_eq_ok {args : List String} {color : Bool} : Request.read sources { color } args = .ok r ↔
    Accepted sources (items args) ∧ r = Request.after sources { color } (items args) := by
  rw [read_eq_foldlM, foldlM_take_eq_ok, ← and_assoc]
  exact and_congr_left' ⟨fun ⟨hfine, honce⟩ => ⟨hfine, honce⟩, fun ⟨hfine, honce⟩ => ⟨hfine, honce⟩⟩

section Stops

lemma exists_of_foldlM_error {α β ε : Type} {f : β → α → Except ε β} {xs : List α} {b : β} {e : ε}
    (h : xs.foldlM f b = .error e) :
    ∃ before x rest c, xs = before ++ x :: rest ∧ before.foldlM f b = .ok c ∧ f c x = .error e := by
  induction xs generalizing b with
  | nil => cases h
  | cons x xs ih =>
    rw [List.foldlM_cons] at h
    cases hx : f b x with
    | error e' =>
      rw [hx] at h
      cases h
      exact ⟨[], x, xs, b, rfl, rfl, hx⟩
    | ok c =>
      rw [hx] at h
      obtain ⟨before, y, rest, d, rfl, hd, hy⟩ := ih h
      refine ⟨x :: before, y, rest, d, rfl, ?_, hy⟩
      rw [List.foldlM_cons, hx]
      exact hd

lemma informs_of_take {i : Item} {stop : Stop} (h : r.take sources i = .error stop) : stop.informs = i.informs := by
  have hinput : ∀ text, r.setInput text = .error stop → stop.informs = false := by
    intro text h
    rw [setInput] at h
    split at h <;> cases h
    rfl
  have hfrom : ∀ source unreadable, r.setFrom source unreadable = .error stop → stop.informs = false := by
    intro source unreadable h
    cases source with
    | ok text => exact hinput text h
    | error reason =>
      cases h
      rfl
  cases i with
  | value o text =>
    cases o with
    | options =>
      rw [take, setOptions] at h
      split at h <;> cases h <;> rfl
    | input => exact hinput text h
  | stdin | file => exact hfrom _ _ h
  | _ => cases h <;> rfl

lemma informs_iff {args : List String} {color : Bool} :
    Informs sources args ↔ ∃ stop, Request.read sources { color } args = .error stop ∧ stop.informs := by
  rw [read_eq_foldlM]
  constructor
  · rintro ⟨before, i, rest, hitems, hi, haccepted⟩
    have hbefore : before.foldlM (take sources) { color } = .ok _ :=
      foldlM_take_eq_ok.mpr ⟨haccepted.fine, haccepted.once, rfl⟩
    rw [hitems, List.foldlM_append, hbefore]
    cases i with
    | help => exact ⟨.help, rfl, rfl⟩
    | version => exact ⟨.version, rfl, rfl⟩
    | _ => cases hi
  · rintro ⟨stop, h, hstop⟩
    obtain ⟨before, i, rest, r, hitems, hbefore, hi⟩ := exists_of_foldlM_error h
    obtain ⟨hfine, honce, -⟩ := foldlM_take_eq_ok.mp hbefore
    exact ⟨before, i, rest, hitems, (informs_of_take hi).symm.trans hstop, hfine, honce⟩

end Stops

section Quiet

def quiet (r : Request) : Request := { r with verbose := false, color := false }

lemma eq_of_quiet (h : r.quiet = r'.quiet) : ∃ verbose color, r' = { r with verbose, color } := by
  refine ⟨r'.verbose, r'.color, ?_⟩
  simp only [quiet, mk.injEq] at h
  obtain ⟨hinput, hoptions, hescape, hloops, -⟩ := h
  rw [hinput, hoptions, hescape, hloops]

lemma take_quiet (r : Request) (i : Item) : (r.take sources i).map quiet = (r.quiet.take sources i).map quiet := by
  have hinput : ∀ text, (r.setInput text).map quiet = (r.quiet.setInput text).map quiet := by
    intro text
    rw [setInput, setInput, quiet]
    cases r.input <;> rfl
  have hfrom : ∀ source unreadable,
      (r.setFrom source unreadable).map quiet = (r.quiet.setFrom source unreadable).map quiet := by
    intro source unreadable
    cases source with
    | ok text => exact hinput text
    | error reason => rfl
  cases i with
  | value o text =>
    cases o with
    | options =>
      rw [take, take, setOptions, setOptions]
      cases Json.read text with
      | error e => rfl
      | ok v => cases v <;> rfl
    | input => exact hinput text
  | stdin | file => exact hfrom _ _
  | _ => rfl

lemma foldlM_quiet {is : List Item} (h : r.quiet = r'.quiet) :
    (is.foldlM (take sources) r).map quiet = (is.foldlM (take sources) r').map quiet := by
  induction is generalizing r r' with
  | nil => exact congrArg Except.ok h
  | cons i is ih =>
    have htake := (take_quiet r i).trans ((congrArg (fun q => (take sources q i).map quiet) h).trans (take_quiet r' i).symm)
    rw [List.foldlM_cons, List.foldlM_cons]
    cases hr : r.take sources i with
    | error stop =>
      cases hr' : r'.take sources i <;> rw [hr, hr'] at htake <;> cases htake
      rfl
    | ok q =>
      cases hr' : r'.take sources i with
      | error stop => rw [hr, hr'] at htake; cases htake
      | ok q' =>
        rw [hr, hr'] at htake
        exact ih (Except.ok.inj htake)

lemma foldlM_insert {i : Item} (hi : i.isQuiet) (before is : List Item) :
    ((before ++ i :: is).foldlM (take sources) r).map quiet = ((before ++ is).foldlM (take sources) r).map quiet := by
  rw [List.foldlM_append, List.foldlM_append]
  cases before.foldlM (take sources) r with
  | error stop => rfl
  | ok q =>
    change Except.map quiet (List.foldlM _ q (i :: is)) = Except.map quiet (List.foldlM _ q is)
    rw [List.foldlM_cons]
    cases i with
    | color on => exact foldlM_quiet rfl
    | verbose => exact foldlM_quiet rfl
    | _ => cases hi

end Quiet

end Request

end Bemjson.CommandLine
