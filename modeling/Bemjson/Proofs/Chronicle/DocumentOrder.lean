import Bemjson.Proofs.Paths
import Mathlib.Data.List.Lex
import Mathlib.Data.List.Basic

/-! Places in a tree by the contents that they are within, and in the order of the document, and what a queue that
grows at its end makes of them. -/

namespace Bemjson

def Step.Before : Step → Step → Prop
  | .item i, .item j => i < j
  | _, _ => False

namespace Path

def depth (p : Path) : Nat := p.count .content

abbrev Precedes (p q : Path) : Prop := List.Lex Step.Before p q

def LevelBefore (p q : Path) : Prop := p.depth < q.depth ∨ p.depth = q.depth ∧ p.Precedes q

lemma depth_append (p q : Path) : Path.depth (p ++ q) = p.depth + q.depth := List.count_append

lemma depth_content (p : Path) : Path.depth (.content :: p) = p.depth + 1 := List.count_cons_self

lemma depth_append_content (p q : Path) : Path.depth (p ++ .content :: q) = p.depth + q.depth + 1 := by
  rw [depth_append, depth_content, Nat.add_assoc]

lemma Precedes.append {p q : Path} (h : p.Precedes q) (hp : ¬p <+: q) (a b : Path) :
    Path.Precedes (p ++ a) (q ++ b) := by
  induction h with
  | nil => exact absurd List.nil_prefix hp
  | cons _ ih => exact .cons (ih fun hpre => hp (List.cons_prefix_cons.mpr ⟨rfl, hpre⟩))
  | rel hr => exact .rel hr

lemma LevelBefore.depth_le {p q : Path} (h : p.LevelBefore q) : p.depth ≤ q.depth := by
  rcases h with h | h
  · exact Nat.le_of_lt h
  · exact Nat.le_of_eq h.1

lemma Step.not_before_self (a : Step) : ¬a.Before a := by
  cases a with
  | item i => exact Nat.lt_irrefl i
  | content => exact id

lemma precedes_irrefl (p : Path) : ¬p.Precedes p := by
  intro h
  induction p with
  | nil => cases h
  | cons a p ih =>
    cases h with
    | cons h => exact ih h
    | rel h => exact Step.not_before_self a h

lemma LevelBefore.ne {p q : Path} (h : p.LevelBefore q) : p ≠ q := by
  rintro rfl
  rcases h with h | h
  · exact Nat.lt_irrefl _ h
  · exact precedes_irrefl p h.2

lemma LevelBefore.below {p q : Path} (h : p.LevelBefore q) (hp : ¬p <+: q) {w : Path} (hw : w.depth = 1) (r : Path) :
    LevelBefore (p ++ w) (q ++ .content :: r) := by
  rw [LevelBefore, depth_append, hw, depth_append_content]
  rcases h with hlt | ⟨he, hlex⟩
  · exact Or.inl (by omega)
  · by_cases hr : r.depth = 0
    · exact Or.inr ⟨by omega, hlex.append hp w (.content :: r)⟩
    · exact Or.inl (by omega)

/-- The slots from the number `k` on wait. They are in order, and all there is comes before what can still grow below
those that wait. -/
structure Ranked (k : Nat) (ways : List Path) : Prop where
  order : ways.Pairwise LevelBefore
  below : ∀ (i : Nat) p, k ≤ i → ways[i]? = some p → ∀ q ∈ ways, ∀ r : Path, LevelBefore q (p ++ .content :: r)

namespace Ranked

lemma start : Ranked 0 [[]] where
  order := List.pairwise_singleton _ _
  below i p _ _ q hq r := by
    obtain rfl := List.mem_singleton.mp hq
    exact Or.inl (by rw [depth_append_content]; exact Nat.succ_pos _)

lemma items {places : List Nat} (h : places.Pairwise (· < ·)) :
    Ranked 1 ([] :: places.map fun i => [Step.item i]) where
  order := by
    apply List.Pairwise.cons
    · intro q hq
      obtain ⟨i, _, rfl⟩ := List.mem_map.mp hq
      exact Or.inr ⟨rfl, .nil⟩
    · rw [List.pairwise_map]
      exact h.imp fun hlt => Or.inr ⟨rfl, .rel hlt⟩
  below i p _ _ q hq r := by
    have hflat : q.depth = 0 := by
      rcases List.mem_cons.mp hq with rfl | hq
      · rfl
      · obtain ⟨j, _, rfl⟩ := List.mem_map.mp hq
        rfl
    exact Or.inl (by rw [hflat, depth_append_content]; exact Nat.succ_pos _)

variable {k : Nat} {ways : List Path}

lemma mono (h : Ranked k ways) {l : Nat} (hkl : k ≤ l) : Ranked l ways :=
  ⟨h.order, fun i p hi => h.below i p (Nat.le_trans hkl hi)⟩

lemma take (h : Ranked k ways) {p : Path} (hp : ways[k]? = some p)
    (hapart : ∀ (i : Nat) q, k < i → ways[i]? = some q → ¬p <+: q) {kids : List Path}
    (hkids : ∀ w ∈ kids, ∃ r : Path, w = .content :: r ∧ r.depth = 0) (horder : kids.Pairwise Precedes) :
    Ranked (k + 1) (ways ++ kids.map (p ++ ·)) := by
  have hflat : ∀ w ∈ kids, Path.depth w = 1 := by
    intro w hw
    obtain ⟨r, rfl, hr⟩ := hkids w hw
    rw [depth_content, hr]
  have hdepth : ∀ w ∈ kids, Path.depth (p ++ w) = p.depth + 1 := fun w hw => by rw [depth_append, hflat w hw]
  have hold : ∀ q ∈ ways, ∀ w ∈ kids, LevelBefore q (p ++ w) := by
    intro q hq w hw
    obtain ⟨r, rfl, _⟩ := hkids w hw
    exact h.below k p (Nat.le_refl k) hp q hq r
  have hlow : ∀ q ∈ ways ++ kids.map (p ++ ·), q.depth ≤ p.depth + 1 := by
    intro q hq
    rcases List.mem_append.mp hq with hq | hq
    · have hle := (h.below k p (Nat.le_refl k) hp q hq []).depth_le
      rwa [depth_append_content] at hle
    · obtain ⟨w, hw, rfl⟩ := List.mem_map.mp hq
      exact Nat.le_of_eq (hdepth w hw)
  constructor
  · rw [List.pairwise_append]
    refine ⟨h.order, ?_, ?_⟩
    · rw [List.pairwise_map]
      apply horder.imp_of_mem
      intro a b ha hb hab
      exact Or.inr ⟨(hdepth a ha).trans (hdepth b hb).symm, List.Lex.append_left Step.Before hab p⟩
    · intro q hq w hw
      obtain ⟨kid, hkid, rfl⟩ := List.mem_map.mp hw
      exact hold q hq kid hkid
  · intro i w hi hw q hq r
    by_cases hlt : i < ways.length
    · rw [List.getElem?_append_left hlt] at hw
      rcases List.mem_append.mp hq with hq | hq
      · exact h.below i w (by omega) hw q hq r
      · obtain ⟨kid, hkid, rfl⟩ := List.mem_map.mp hq
        obtain ⟨hk, rfl⟩ := List.getElem?_eq_some_iff.mp hp
        obtain ⟨hi', rfl⟩ := List.getElem?_eq_some_iff.mp hw
        have hbefore := List.pairwise_iff_getElem.mp h.order k i hk hi' (by omega)
        exact hbefore.below (hapart i _ (by omega) hw) (hflat kid hkid) r
    · rw [List.getElem?_append_right (by omega)] at hw
      obtain ⟨kid, hkid, rfl⟩ := List.mem_map.mp (List.mem_of_getElem? hw)
      have hle := hlow q hq
      exact Or.inl (by rw [depth_append_content, hdepth kid hkid]; omega)

end Ranked

end Path

end Bemjson
