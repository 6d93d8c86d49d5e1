import Bemjson.Proofs.Markup.Behavior

namespace Bemjson

structure Announcement where
  params : Bool
  announced : Bool

namespace Entity

def announces (o : Options) (elem : Option String) : Bool := !o.initClass.isEmpty && (o.initOnElems || elem.isNone)

def ownAnnouncement (e : Entity) (o : Options) : Announcement :=
  { params := e.block.isSome && e.activeJs.isSome, announced := announces o e.elem }

def hear (host : Entity) (o : Options) (a : Announcement) (mix : Entity) : Announcement :=
  if mix.bem = some false then a
  else
    match mix.block.or host.block, mix.activeJs with
    | some _, some _ => { params := true, announced := a.announced || announces o (host.mixedElem mix) }
    | _, _ => a

def announcement (e : Entity) (o : Options) : Announcement := (e.mix.getD []).foldl (e.hear o) (e.ownAnnouncement o)

def Lends (host mix : Entity) : Prop :=
  mix.bem ≠ some false ∧ (mix.block.or host.block).isSome = true ∧ mix.activeJs.isSome = true

variable {o : Options} {e : Entity}

lemma hear_of_lends {mix : Entity} (a : Announcement) (h : e.Lends mix) :
    e.hear o a mix = { params := true, announced := a.announced || announces o (e.mixedElem mix) } := by
  obtain ⟨hbem, hblock, hjs⟩ := h
  obtain ⟨block, hblock⟩ := Option.isSome_iff_exists.mp hblock
  obtain ⟨js, hjs⟩ := Option.isSome_iff_exists.mp hjs
  rw [hear, if_neg hbem, hblock, hjs]

lemma hear_of_not_lends {mix : Entity} (a : Announcement) (h : ¬e.Lends mix) : e.hear o a mix = a := by
  unfold hear
  split
  · rfl
  · rename_i hbem
    split
    · rename_i hblock hjs
      exact absurd ⟨hbem, Option.isSome_of_eq_some hblock, Option.isSome_of_eq_some hjs⟩ h
    · rfl

lemma foldl_hear (mixes : List Entity) (a : Announcement) :
    ((mixes.foldl (e.hear o) a).params = true ↔ a.params = true ∨ ∃ mix ∈ mixes, e.Lends mix) ∧
      ((mixes.foldl (e.hear o) a).announced = true ↔
        a.announced = true ∨ ∃ mix ∈ mixes, e.Lends mix ∧ announces o (e.mixedElem mix) = true) := by
  induction mixes generalizing a with
  | nil => simp
  | cons mix mixes ih =>
    obtain ⟨hparams, hannounced⟩ := ih (e.hear o a mix)
    rw [List.foldl_cons, hparams, hannounced, List.exists_mem_cons_iff, List.exists_mem_cons_iff]
    by_cases h : e.Lends mix
    · simp [hear_of_lends a h, h, or_assoc]
    · simp [hear_of_not_lends a h, h]

lemma hear_comm (a : Announcement) (mix next : Entity) :
    e.hear o (e.hear o a mix) next = e.hear o (e.hear o a next) mix := by
  by_cases hmix : e.Lends mix <;> by_cases hnext : e.Lends next
  · simp only [hear_of_lends _ hmix, hear_of_lends _ hnext, Bool.or_right_comm]
  · rw [hear_of_not_lends _ hnext, hear_of_not_lends _ hnext]
  · rw [hear_of_not_lends _ hmix, hear_of_not_lends _ hmix]
  · rw [hear_of_not_lends _ hmix, hear_of_not_lends _ hmix]

lemma announcement_perm {mixes : List Entity} (h : mixes.Perm (e.mix.getD [])) :
    ({ e with mix := some mixes } : Entity).announcement o = e.announcement o :=
  h.foldl_eq' (fun mix _ next _ a => hear_comm a mix next) (e.ownAnnouncement o)

lemma exists_mixin {p : Option String → Prop} : (∃ m ∈ e.mixins o, m.hasJs = true ∧ p m.elem) ↔
    ∃ mix ∈ e.mix.getD [], e.Lends mix ∧ p (e.mixedElem mix) := by
  constructor
  · rintro ⟨m, hm, hjs, hp⟩
    obtain ⟨mix, hmix, hm⟩ := List.mem_filterMap.mp hm
    obtain ⟨hbem, block, hblock, rfl⟩ := mixin?_eq_some.mp hm
    exact ⟨mix, hmix, ⟨hbem, Option.isSome_of_eq_some hblock, hjs⟩, hp⟩
  · rintro ⟨mix, hmix, ⟨hbem, hblock, hjs⟩, hp⟩
    obtain ⟨block, hblock⟩ := Option.isSome_iff_exists.mp hblock
    have hm := mixin?_eq_some (o := o).mpr ⟨hbem, block, hblock, rfl⟩
    exact ⟨_, List.mem_filterMap.mpr ⟨mix, hmix, hm⟩, hjs, hp⟩

lemma carriers_ne_nil_iff : e.carriers o ≠ [] ↔ (e.announcement o).params = true := by
  have hown : e.ownParams o ≠ [] ↔ (e.ownAnnouncement o).params = true := by
    unfold ownParams base? ownAnnouncement
    cases e.block <;> cases e.activeJs <;> simp
  have hlent : ((e.mixins o).filterMap fun m => m.entity.activeJs.map fun js => (m.base, js.toParams)) ≠ [] ↔
      ∃ mix ∈ e.mix.getD [], e.Lends mix := by
    have h := exists_mixin (o := o) (e := e) (p := fun _ => True)
    simp only [and_true] at h
    rw [← h, ne_eq, List.filterMap_eq_nil_iff]
    simp [Mixin.hasJs, Option.ne_none_iff_isSome]
  rw [announcement, (foldl_hear _ _).1, ← hown, ← hlent, carriers, ne_eq, List.append_eq_nil_iff, not_and_or]

lemma wantsInit_iff : e.wantsInit o = true ↔ o.initOnElems = true ∨ e.elem = none ∨
    ∃ mix ∈ e.mix.getD [], e.Lends mix ∧ e.mixedElem mix = none := by
  rw [← exists_mixin (o := o) (p := fun elem => elem = none)]
  simp [wantsInit, or_assoc]

lemma announced_iff : (e.announcement o).announced = true ↔ o.initClass ≠ "" ∧ e.wantsInit o = true := by
  rw [announcement, (foldl_hear _ _).2, wantsInit_iff]
  by_cases hclass : o.initClass = ""
  · simp [ownAnnouncement, announces, hclass]
  · by_cases helems : o.initOnElems = true
    · simp [ownAnnouncement, announces, hclass, helems]
    · simp [ownAnnouncement, announces, hclass, helems]

lemma initClasses_eq : e.initClasses o =
    if (e.announcement o).params = true ∧ (e.announcement o).announced = true then [o.initClass] else [] := by
  have hparams : (e.behaviorParams o).isEmpty = false ↔ (e.announcement o).params = true := by
    rw [← carriers_ne_nil_iff, ne_eq, ← behaviorParams_isEmpty, Bool.not_eq_true]
  simp [initClasses, announced_iff, ← hparams, and_assoc]

lemma behaviorAttr_ne_iff : e.behaviorAttr o ≠ "" ↔ (e.announcement o).params = true := by
  rw [← carriers_ne_nil_iff, ne_eq, ne_eq, not_iff_not, ← behaviorParams_isEmpty]
  unfold behaviorAttr
  split <;> simp [*]

lemma mixedElem_eq_none_iff {mix : Entity} :
    e.mixedElem mix = none ↔ mix.elem = none ∧ (mix.block = none → e.elem = none) := by
  unfold mixedElem
  cases mix.elem <;> cases mix.block <;> simp

lemma classes_eq (hbem : e.bem ≠ some false) : e.classes o = e.bemClasses o ++ e.initClasses o ++ e.extraClasses := by
  rw [classes, if_pos (by simpa [usesBem] using hbem)]

/-- The class comes once, when there is behavior to announce: after the classes of the entity and of all its mixins, and
before those of `cls`. Elements are not announced, unless all are, but a mixin announces its own behavior when it counts
as no element. In which order the mixins come makes no difference. -/
theorem init_class (o : Options) (e : Entity) (hhook : e.hook = none) (htag : e.tag ≠ some "") (hbem : e.bem ≠ some false) :
    (∃ rest, (Node.entity e).markup o = "<" ++ e.tag.getD "div" ++ (e.classAttr o ++ Options.writeAttrs (e.attrs.getD [])) ++
      e.behaviorAttr o ++ rest ∧ (rest = "/>" ∨ ∃ inner, rest = ">" ++ inner)) ∧
    e.classAttr o = (if e.classes o = [] then "" else " class=\"" ++ " ".intercalate (e.classes o) ++ "\"") ∧
    ∃ init, e.classes o = e.bemClasses o ++ init ++ e.extraClasses ∧
      (init = [o.initClass] ∨ init = []) ∧
      (init = [o.initClass] ↔ o.initClass ≠ "" ∧ e.behaviorAttr o ≠ "" ∧ (o.initOnElems = true ∨ e.elem = none ∨
        ∃ mix ∈ e.mix.getD [], e.Lends mix ∧ mix.elem = none ∧ (mix.block = none → e.elem = none))) ∧
      ∀ mixes : List Entity, mixes.Perm (e.mix.getD []) →
        ({ e with mix := some mixes } : Entity).classes o =
          ({ e with mix := some mixes } : Entity).bemClasses o ++ init ++ e.extraClasses := by
  refine ⟨markup_eq hhook htag hbem, ?_, e.initClasses o, classes_eq hbem, ?_, ?_, fun mixes hperm => ?_⟩
  · unfold classAttr
    split <;> simp_all
  · rw [initClasses_eq]
    exact ite_eq_or_eq ..
  · have hinit : e.initClasses o = [o.initClass] ↔ e.behaviorAttr o ≠ "" ∧ o.initClass ≠ "" ∧ e.wantsInit o = true := by
      rw [initClasses_eq, ite_eq_left_iff, behaviorAttr_ne_iff, announced_iff]
      simp
    rw [hinit, and_left_comm, wantsInit_iff]
    simp only [mixedElem_eq_none_iff]
  · have hinit : ({ e with mix := some mixes } : Entity).initClasses o = e.initClasses o := by
      rw [initClasses_eq, initClasses_eq, announcement_perm hperm]
    rw [← hinit]
    exact classes_eq hbem

def announcing : Entity :=
  { block := some "a", elem := some "e", cls := some "c"
    mix := some [{ js := some (.bool true) }, { block := some "b", js := some (.bool true) }] }

theorem init_class_announcing : announcing.hook = none ∧ announcing.tag ≠ some "" ∧ announcing.bem ≠ some false ∧
    announcing.classes {} = ["a__e", "b", "i-bem", "c"] := by
  obtain ⟨_, _, init, hclasses, _, hiff, _⟩ := init_class {} announcing rfl (by decide) (by decide)
  have hinit : init = ["i-bem"] := by
    refine hiff.mpr ⟨by decide, by decide, Or.inr (Or.inr ?_)⟩
    exact ⟨_, List.mem_cons_of_mem _ (List.mem_singleton_self _), ⟨by decide, rfl, rfl⟩, rfl, nofun⟩
  refine ⟨rfl, by decide, by decide, ?_⟩
  rw [hclasses, hinit]
  rfl

end Entity

end Bemjson
