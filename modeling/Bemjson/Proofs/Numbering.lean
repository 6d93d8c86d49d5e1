import Bemjson.Proofs.History
import Mathlib.Data.List.Perm.Basic

/-! The numbers of rules: each is that of the rules before it, and the index has each rule in one place. -/

namespace Bemjson

section Records

variable {α β : Type}

lemma Assoc.flatMap_insert (f : α → List β) (m : Assoc α) (key : String) {value : α} {b : β}
    (h : (f value).Perm (b :: ((m.get? key).map f).getD [])) :
    ((m.insert key value).flatMap fun p => f p.2).Perm (b :: m.flatMap fun p => f p.2) := by
  induction m with
  | nil => simpa [insert, get?] using h
  | cons p m ih =>
    obtain ⟨k, v⟩ := p
    by_cases hk : k = key
    · have hhead : (f value).Perm (b :: f v) := by simpa [get?, hk] using h
      rw [insert, if_pos hk, List.flatMap_cons, List.flatMap_cons]
      exact hhead.append_right _
    · have hrest := ih (by simpa [get?, hk] using h)
      rw [insert, if_neg hk, List.flatMap_cons, List.flatMap_cons]
      exact (hrest.append_left (f v)).trans List.perm_middle

end Records

section Index

def BlockRules.entries (b : BlockRules) : List Candidate := b.plain ++ b.elems.flatMap Prod.snd

lemma BlockRules.entries_add (b : BlockRules) (elem : Option String) (c : Candidate) :
    (b.add elem c).entries.Perm (c :: b.entries) := by
  cases elem with
  | none =>
    have hplain : (b.plain ++ [c]).Perm (c :: b.plain) := List.perm_append_singleton c b.plain
    exact hplain.append_right _
  | some elem =>
    have hnew : (b.get (some elem) ++ [c]).Perm (c :: ((b.elems.get? elem).map id).getD []) := by
      rw [Option.map_id]
      exact List.perm_append_singleton c _
    exact ((Assoc.flatMap_insert id b.elems elem hnew).append_left b.plain).trans List.perm_middle

namespace RuleIndex

def entries (index : RuleIndex) : List Candidate :=
  index.before ++ index.after ++ index.blocks.flatMap fun p => p.2.entries

lemma entries_add (index : RuleIndex) (rule : Rule) (id : Nat) :
    (index.add rule id).entries.Perm (rule.candidate id :: index.entries) := by
  unfold add Rule.candidate
  cases rule.reach with
  | before =>
    have hnew := List.perm_append_singleton (⟨id, none, none⟩ : Candidate) index.before
    exact (hnew.append_right index.after).append_right _
  | after =>
    have hnew := List.perm_append_singleton (⟨id, none, none⟩ : Candidate) (index.before ++ index.after)
    rw [List.append_assoc] at hnew
    exact hnew.append_right _
  | selector s =>
    have hblock : (index.ofBlock s.block.name).entries =
        ((index.blocks.get? s.block.name).map BlockRules.entries).getD [] := by
      rw [ofBlock]
      cases index.blocks.get? s.block.name <;> rfl
    have hnew := (index.ofBlock s.block.name).entries_add (s.elem.map Part.name)
      { id, blockMod := s.block.cond, elemMod := s.elem.bind Part.cond }
    rw [hblock] at hnew
    exact ((Assoc.flatMap_insert BlockRules.entries index.blocks s.block.name hnew).append_left _).trans
      List.perm_middle

lemma entries_foldl (rules : List (Rule × Nat)) (index : RuleIndex) :
    (rules.foldl (fun index r => index.add r.1 r.2) index).entries.Perm
      ((rules.map fun r => r.1.candidate r.2) ++ index.entries) := by
  induction rules generalizing index with
  | nil => exact .refl _
  | cons r rules ih =>
    have hrest := ih (index.add r.1 r.2)
    exact (hrest.trans ((index.entries_add r.1 r.2).append_left _)).trans List.perm_middle

lemma ordered_perm (rules : List Rule) (order : RuleOrder) : (ordered rules order).Perm rules.zipIdx := by
  cases order with
  | registration => exact .refl _
  | latestFirst => exact List.reverse_perm _

lemma entries_build (rules : List Rule) (order : RuleOrder) :
    (build rules order).entries.Perm (rules.zipIdx.map fun r => r.1.candidate r.2) := by
  have hall := entries_foldl (ordered rules order) { rules }
  have hempty : ({ rules } : RuleIndex).entries = [] := rfl
  rw [hempty, List.append_nil] at hall
  exact hall.trans ((ordered_perm rules order).map _)

lemma ids_build (rules : List Rule) (order : RuleOrder) :
    ((build rules order).entries.map Candidate.id).Perm (List.range rules.length) := by
  have hids := (entries_build rules order).map Candidate.id
  have hid : (Candidate.id ∘ fun r : Rule × Nat => r.1.candidate r.2) = Prod.snd := by
    funext r
    exact candidate_id r.1 r.2
  rwa [List.map_map, hid, List.zipIdx_map_snd, ← List.range_eq_range'] at hids

end RuleIndex

end Index

section Registration

def Operation.rules : Operation → List Rule
  | register entries => ((Rule.readAll entries).toOption).getD []
  | registerBefore body => [⟨.before, body⟩]
  | registerAfter body => [⟨.after, body⟩]
  | _ => []

def enroll (registry : List (Rule × Nat)) (rule : Rule) : List (Rule × Nat) := registry ++ [(rule, registry.length)]

lemma foldl_enroll (rules : List Rule) (registry : List (Rule × Nat)) :
    rules.foldl enroll registry = registry ++ rules.zipIdx registry.length := by
  induction rules generalizing registry with
  | nil => exact (List.append_nil registry).symm
  | cons rule rules ih =>
    rw [List.foldl_cons, ih, enroll, List.length_append, List.length_singleton, List.append_assoc, List.zipIdx_cons,
      List.singleton_append]

namespace Engine

lemma rules_attempt (engine : Engine) (op : Operation) :
    (engine.attempt op).2.rules = engine.rules ++ op.rules := by
  by_cases hop : op.registers = true
  · rw [attempt_eq_outcome]
    cases op with
    | register entries =>
      rw [outcome, register, Operation.rules]
      cases Rule.readAll entries with
      | error err => exact (List.append_nil _).symm
      | ok rules => rfl
    | registerBefore body => rfl
    | registerAfter body => rfl
    | _ => cases hop
  · have hnone : op.rules = [] := by cases op <;> first | rfl | exact absurd rfl hop
    rw [hnone, List.append_nil]
    cases h : engine.outcome op with
    | error err => rw [attempt_of_error h]
    | ok later => rw [attempt_of_ok h, outcome_rules hop h]

lemma rules_after (engine : Engine) (ops : List Operation) :
    (engine.after ops).rules = engine.rules ++ ops.flatMap Operation.rules := by
  induction ops generalizing engine with
  | nil => exact (List.append_nil _).symm
  | cons op ops ih =>
    change ((engine.attempt op).2.after ops).rules = _
    rw [ih, rules_attempt, List.append_assoc, List.flatMap_cons]

end Engine

end Registration

end Bemjson
