import Bemjson.Expansion.Path
import Mathlib.Tactic.Lemma

/-! Reading and writing a tree at two places: one below the other, or neither below the other. -/

namespace Bemjson

def Path.Apart (p q : Path) : Prop := ¬p <+: q ∧ ¬q <+: p

lemma Path.Apart.symm {p q : Path} (h : p.Apart q) : q.Apart p := ⟨h.2, h.1⟩

lemma Path.Apart.tail {step : Step} {p q : Path} (h : Path.Apart (step :: p) (step :: q)) : p.Apart q := by
  constructor
  · intro hp
    exact h.1 (List.cons_prefix_cons.mpr ⟨rfl, hp⟩)
  · intro hq
    exact h.2 (List.cons_prefix_cons.mpr ⟨rfl, hq⟩)

lemma Path.Apart.append_right {p q : Path} (h : p.Apart q) (r : Path) : p.Apart (q ++ r) := by
  constructor
  · intro hp
    rcases List.prefix_or_prefix_of_prefix hp (List.prefix_append q r) with hpq | hqp
    · exact h.1 hpq
    · exact h.2 hqp
  · intro hq
    exact h.2 ((List.prefix_append q r).trans hq)

lemma Path.Apart.append_left {p q : Path} (h : p.Apart q) (r : Path) : Path.Apart (p ++ r) q :=
  (h.symm.append_right r).symm

lemma Path.Apart.append {p q : Path} (h : p.Apart q) (r : Path) : Path.Apart (r ++ p) (r ++ q) := by
  simpa only [Path.Apart, List.prefix_append_right_inj] using h

def Entity.shell (e : Entity) : Entity := { e with content := none }

namespace Node

lemma at?_of_simple {n m : Node} {p : Path} (hn : n.isStructured = false) (h : n.at? p = some m) :
    p = [] ∧ n = m := by
  cases p with
  | nil => exact ⟨rfl, Option.some.inj h⟩
  | cons step p =>
    cases n with
    | list items => cases hn
    | entity e => cases hn
    | _ => simp [at?] at h

lemma at?_setAt_append (n new : Node) (p q : Path) :
    (n.setAt new p).at? (p ++ q) = (n.at? p).bind fun _ => new.at? q := by
  rw [at?_append, at?_setAt, Option.bind_map]
  rfl

lemma at?_setAt_of_apart (n new : Node) {p q : Path} (h : p.Apart q) : (n.setAt new p).at? q = n.at? q := by
  induction p generalizing n q with
  | nil => exact absurd List.nil_prefix h.1
  | cons step p ih =>
    cases q with
    | nil => exact absurd List.nil_prefix h.2
    | cons other q =>
      by_cases hs : step = other
      · subst hs
        have hd := fun m : Node => ih m h.tail
        cases step with
        | item i =>
          cases n with
          | list items => cases hi : items[i]? <;> simp [at?, setAt, hi, hd]
          | _ => rfl
        | content =>
          cases n with
          | entity e => cases hc : e.content <;> simp [at?, setAt, hc, hd]
          | _ => rfl
      · cases step with
        | item i =>
          cases other with
          | item j =>
            have hij : i ≠ j := fun hij => hs (congrArg Step.item hij)
            cases n <;> simp [at?, setAt, List.getElem?_modify_ne _ _ hij]
          | content => cases n <;> simp [at?, setAt]
        | content =>
          cases other with
          | item j => cases n <;> simp [at?, setAt]
          | content => exact absurd rfl hs

lemma at?_setAt_above (n new : Node) (p q : Path) :
    (n.setAt new (p ++ q)).at? p = (n.at? p).map fun m => m.setAt new q := by
  induction p generalizing n with
  | nil => simp [at?]
  | cons step p ih =>
    cases step with
    | item i =>
      cases n with
      | list items => cases hi : items[i]? <;> simp [at?, setAt, hi, ih]
      | _ => rfl
    | content =>
      cases n with
      | entity e => cases hc : e.content <;> simp [at?, setAt, hc, ih]
      | _ => rfl

lemma setAt_setAt_append (n m new : Node) (p q : Path) :
    (n.setAt m p).setAt new (p ++ q) = n.setAt (m.setAt new q) p := by
  induction p generalizing n with
  | nil => simp [setAt]
  | cons step p ih =>
    cases step with
    | item i => cases n <;> simp [setAt, List.modify_modify_eq, Function.comp_def, ih]
    | content => cases n <;> simp [setAt, Option.map_map, Function.comp_def, ih]

lemma setAt_comm (n a b : Node) {p q : Path} (h : p.Apart q) :
    (n.setAt a p).setAt b q = (n.setAt b q).setAt a p := by
  induction p generalizing n q with
  | nil => exact absurd List.nil_prefix h.1
  | cons step p ih =>
    cases q with
    | nil => exact absurd List.nil_prefix h.2
    | cons other q =>
      by_cases hs : step = other
      · subst hs
        have hd := fun m : Node => ih m h.tail
        cases step with
        | item i => cases n <;> simp [setAt, List.modify_modify_eq, Function.comp_def, hd]
        | content => cases n <;> simp [setAt, Option.map_map, Function.comp_def, hd]
      · cases step with
        | item i =>
          cases other with
          | item j =>
            have hij : i ≠ j := fun hij => hs (congrArg Step.item hij)
            cases n <;> simp [setAt, List.modify_modify_ne _ _ _ hij]
          | content => cases n <;> simp [setAt]
        | content =>
          cases other with
          | item j => cases n <;> simp [setAt]
          | content => exact absurd rfl hs

lemma setAt_self (n m : Node) (p : Path) (h : n.at? p = some m) : n.setAt m p = n := by
  induction p generalizing n with
  | nil => simpa [at?, setAt] using h.symm
  | cons step p ih =>
    cases step with
    | item i =>
      cases n with
      | list items =>
        obtain ⟨k, hk, hm⟩ := Option.bind_eq_some_iff.mp h
        have he : items.modify i (fun n => n.setAt m p) = items := by
          apply List.ext_getElem?
          intro j
          by_cases hj : i = j
          · subst hj
            simp [hk, ih k hm]
          · simp [List.getElem?_modify_ne _ _ hj]
        simp [setAt, he]
      | _ => rfl
    | content =>
      cases n with
      | entity e =>
        obtain ⟨k, hk, hm⟩ := Option.bind_eq_some_iff.mp h
        rw [setAt, hk, Option.map_some, ih k hm, ← hk]
        cases e
        rfl
      | _ => rfl

lemma setAt_entity (e : Entity) (new : Node) {p : Path} (hp : p ≠ []) :
    ∃ d, (entity e).setAt new p = entity d ∧ d.shell = e.shell := by
  cases p with
  | nil => exact absurd rfl hp
  | cons step p =>
    cases step with
    | item i => exact ⟨e, rfl, rfl⟩
    | content => exact ⟨_, rfl, rfl⟩

lemma entity_of_setAt_entity {n new : Node} {p : Path} {d : Entity} (hp : p ≠ [])
    (h : n.setAt new p = entity d) : ∃ e, n = entity e ∧ d.shell = e.shell := by
  cases p with
  | nil => exact absurd rfl hp
  | cons step p =>
    cases n with
    | entity e =>
      obtain ⟨d', hd, hs⟩ := setAt_entity e new (List.cons_ne_nil step p)
      rw [hd, entity.injEq] at h
      exact ⟨e, rfl, h ▸ hs⟩
    | list items => cases step <;> simp [setAt] at h
    | _ => simp [setAt] at h

end Node

end Bemjson
