import Bemjson.Proofs.Edits

namespace Bemjson

namespace Json

def held (v : Option Json) : Assoc Json := (v.bind fields?).getD []

def gathered (values : List Json) : Assoc Json := values.flatMap fun v => held (some v)

lemma held_of_falsy {v : Json} (h : v.isTruthy = false) : held (some v) = [] := by
  cases v with
  | object fields => simp [isTruthy] at h
  | _ => rfl

lemma gathered_of_falsy {values : List Json} (h : ∀ v ∈ values, v.isTruthy = false) : gathered values = [] :=
  List.flatMap_eq_nil_iff.mpr fun v hv => held_of_falsy (h v hv)

end Json

open Json

namespace Entity

lemma mergeJs_falsy (old : Option Json) {v : Json} (h : v.isTruthy = false) : mergeJs false old v = old := by
  simp [mergeJs, h]

lemma mergeJs_truthy (old : Option Json) {v : Json} (h : v.isTruthy = true) :
    mergeJs false old v = some (.object ((held old).merge false (held (some v)))) := by
  simp [mergeJs, h, held]

lemma foldl_mergeJs_falsy (old : Option Json) {values : List Json} (h : ∀ v ∈ values, v.isTruthy = false) :
    values.foldl (mergeJs false) old = old := by
  induction values with
  | nil => rfl
  | cons v values ih =>
    rw [List.foldl_cons, mergeJs_falsy old (h v List.mem_cons_self)]
    exact ih fun w hw => h w (List.mem_cons_of_mem _ hw)

lemma foldl_mergeJs_truthy (old : Option Json) {values : List Json} (h : ∃ v ∈ values, v.isTruthy = true) :
    values.foldl (mergeJs false) old = some (.object ((held old).merge false (gathered values))) := by
  induction values using List.reverseRecOn with
  | nil => simp at h
  | append_singleton values v ih =>
    have hgathered : gathered (values ++ [v]) = gathered values ++ held (some v) := by simp [gathered]
    rw [List.foldl_append, List.foldl_cons, List.foldl_nil, hgathered]
    by_cases hbefore : ∃ w ∈ values, w.isTruthy = true
    · rw [ih hbefore]
      by_cases hv : v.isTruthy = true
      · rw [mergeJs_truthy _ hv, ← Assoc.merge_merge]
        rfl
      · rw [mergeJs_falsy _ (Bool.eq_false_iff.mpr hv), held_of_falsy (Bool.eq_false_iff.mpr hv), List.append_nil]
    · have hfalsy : ∀ w ∈ values, w.isTruthy = false := by simpa using hbefore
      obtain ⟨w, hw, htrue⟩ := h
      have hv : v.isTruthy = true := by
        rcases List.mem_append.mp hw with hw | hw
        · exact absurd ⟨w, hw, htrue⟩ hbefore
        · rwa [← List.mem_singleton.mp hw]
      rw [foldl_mergeJs_falsy old hfalsy, mergeJs_truthy old hv, gathered_of_falsy hfalsy, List.nil_append]

lemma editAll_js (e : Entity) (force : Bool) (values : List Json) :
    e.editAll force (values.map .js) = { e with js := values.foldl (mergeJs force) e.js } := by
  induction values generalizing e with
  | nil =>
    cases e
    rfl
  | cons v values ih => exact ih (e.edit force (.js v))

end Entity

/-- An object keeps its keys in their places and gets the new keys of all objects that are written. Any other value
that is there stays exactly as long as no value that counts as true is written; then an object takes its place. -/
theorem Program.writeAll_js (env : Setting) (nested : Nested) (f : Focus) (values : List Json) :
    ∃ after : Option Json → Option Json,
      (writeAll false (values.map .js)).exec env nested f =
        some ((), f.mapEntity fun e => { e with js := after e.js }) ∧
      ∀ js : Option Json,
        ((∀ v ∈ values, v.isTruthy = false) → after js = js) ∧
        ((∃ v ∈ values, v.isTruthy = true) → ∃ more : Assoc Json,
          after js = some (.object (held js ++ more)) ∧
          more.keys = ((gathered values).keys.filter fun key => key ∉ (held js).keys).eraseDups ∧
          ∀ key ∈ more.keys, more.get? key = (gathered values).get? key) ∧
        ∀ v : Json, js = some v → v.fields? = none → (after js = some v ↔ ∀ w ∈ values, w.isTruthy = false) := by
  refine ⟨values.foldl (Entity.mergeJs false), ?_, fun js => ⟨Entity.foldl_mergeJs_falsy js, ?_, ?_⟩⟩
  · rw [exec_writeAll]
    simp only [Entity.editAll_js]
  · intro htruthy
    obtain ⟨more, hmore, hkeys, hget⟩ := Assoc.exists_added (held js) (gathered values)
    refine ⟨more, (Entity.foldl_mergeJs_truthy js htruthy).trans ?_, hkeys, hget⟩
    rw [hmore]
  · rintro v rfl hv
    refine ⟨fun hstays => ?_, Entity.foldl_mergeJs_falsy (some v)⟩
    by_contra hsome
    have htruthy : ∃ w ∈ values, w.isTruthy = true := by simpa using hsome
    have hobject := (Entity.foldl_mergeJs_truthy (some v) htruthy).symm.trans hstays
    rw [← Option.some.inj hobject] at hv
    cases hv

theorem writeAll_js_drops : ¬∀ (e : Entity) (values : List Json) (v : Json), e.js = some v → v.fields? = none →
    v.isTrue = false → (e.editAll false (values.map .js)).js = some v := by
  intro hkept
  have hlist := hkept { js := some (.array [.string "y"]) } [.object [("x", .number (.int 1))]] _ rfl rfl rfl
  rw [Entity.editAll_js] at hlist
  cases hlist

end Bemjson
