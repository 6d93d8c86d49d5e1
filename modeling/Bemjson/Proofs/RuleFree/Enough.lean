import Bemjson.Proofs.LoopGuard.Ends
import Bemjson.Proofs.RuleFree.Load

namespace Bemjson

section Sizes

variable (deep : Bool)

mutual

lemma Node.entities_le_size : (n : Node) → n.entities deep ≤ n.size
  | .list items => Nat.le_succ_of_le (Node.entitiesOfItems_le items)
  | .entity e => Entity.entities_le_size e
  | .null | .bool _ | .number _ | .text _ => Nat.zero_le _

lemma Node.entitiesOfItems_le : (items : List Node) → Node.entitiesOfItems deep items ≤ Node.sizeOfItems items
  | [] => Nat.le_refl _
  | n :: ns => Nat.add_le_add (Node.entities_le_size n) (Node.entitiesOfItems_le ns)

lemma Entity.entities_le_size : (e : Entity) → e.entities deep ≤ e.size
  | { content := none, .. } => by cases deep <;> exact Nat.le_refl _
  | { content := some c, .. } => by
    have hc := Node.entities_le_size c
    cases deep with
    | false => exact Nat.le_add_left 1 c.size
    | true =>
      rw [Entity.entities_eq, Nat.add_comm]
      exact Nat.succ_le_succ hc

end

lemma Node.entities_lt_size {n : Node} (h : n.entity? = none) : n.entities deep < n.size := by
  cases n with
  | list items => exact Nat.lt_succ_of_le (entitiesOfItems_le deep items)
  | entity e => cases h
  | _ => exact Nat.one_pos

end Sizes

namespace State

variable {env : Setting} {nested : Nested} {deep : Bool} {s t : State}

def toDo (deep : Bool) (s : State) : Nat := s.load deep + s.pending

lemma Next.toDo_lt {total : Nat} (hindex : env.index = {}) (ho : nested.Within Focus.Onward) (ht : s.Tidy)
    (hs : s.Paced env deep total) (h : s.Next env nested deep t) : t.Over ∨ t.toDo deep < s.toDo deep := by
  have hp := hs.next hindex ho ht h
  obtain ⟨id, queue, slot, u, he, hq, _, hpop, hh, hturn, rfl⟩ := Next.turn ho ht h
  obtain ⟨p, n, hpath, hm⟩ := ht.known id (by simp [hq])
  obtain rfl := Option.some.inj (hpath.symm.trans hh.path)
  have hpending := pending_cons hq ((designated_of_path? hpath).trans hm)
  have hpace : u.run.error = none → u.run.visits + u.load deep = s.run.visits + s.load deep := fun hu =>
    (hp.load hu).trans (hs.load he).symm
  cases hturn with
  | missing hnone => cases hm.symm.trans hnone
  | plain m hpm hplain =>
    obtain rfl := Option.some.inj (hm.symm.trans hpm)
    have hgrow := pending_grow hpop hh (sprout_sprouts deep slot.around n) hm
    have hload : (grow (s.pop id queue) id slot.path (n.sprout deep slot.around)).load deep = s.load deep :=
      Nat.add_left_cancel (hpace he)
    rw [hplain] at hpending
    right
    change State.load deep (grow _ id _ _) + pending (grow _ id _ _) < s.load deep + s.pending
    rw [hload, hgrow, hpending]
    exact Nat.lt_succ_self _
  | overrun e err _ _ => exact .inl (.inl rfl)
  | failed e fate f err _ _ _ herr =>
    refine .inl (.inl ?_)
    change f.run.error.isSome
    rw [herr]
    rfl
  | kept e d f hj hd =>
    have hf := hj.judge
    rw [judge_ruleless hindex] at hf
    cases hf
    cases hd
    obtain rfl := Option.some.inj (hm.symm.trans hj.entity)
    have htouched := judge_touched ho hj.judge
    have hgrow := pending_grow (hpop.run htouched.way) (hh.run htouched.way)
      (sprout_sprouts deep ((e.adopt slot.around).aroundContent slot.around) (.entity (e.adopt slot.around))) hm
    have hsame := (Spares.run htouched.way).pending rfl
    have hload : s.run.visits + 1 + _ = s.run.visits + s.load deep := hpace he
    right
    change State.load deep (grow _ id _ _) + pending (grow _ id _ _) < s.load deep + s.pending
    rw [hgrow, hsame, hpending]
    change State.load deep (grow _ id _ _) + _ < s.load deep + ((s.pop id queue).pending + 0)
    omega
  | replaced e f hj =>
    have hf := hj.judge
    rw [judge_ruleless hindex] at hf
    cases hf

lemma exists_drain {total : Nat} (hindex : env.index = {}) (ho : nested.Within Focus.Onward) (steps : Nat)
    (ht : s.Tidy) (hs : s.Paced env deep total) (hsteps : s.toDo deep + 2 ≤ steps) :
    ∃ t, drain env nested deep steps s = some t := by
  induction steps generalizing s with
  | zero => cases hsteps
  | succ steps ih =>
    by_cases hover : s.Over
    · exact ⟨s, drain_over hover steps⟩
    · obtain ⟨herror, hqueue⟩ := not_or.mp hover
      obtain ⟨id, queue, hq⟩ := List.exists_cons_of_ne_nil hqueue
      obtain ⟨t, hnext⟩ : ∃ t, s.Next env nested deep t :=
        exists_step (by simpa using herror) hq fun _ _ _ _ _ => ⟨_, judge_ruleless hindex nested _⟩
      rw [drain_step hnext]
      rcases hnext.toDo_lt hindex ho ht hs with hover | hless
      · obtain ⟨left, rfl⟩ : ∃ left, steps = left + 1 := ⟨steps - 1, by omega⟩
        exact ⟨t, drain_over hover left⟩
      · exact ih (ht.next ho hnext) (hs.next hindex ho ht hnext) (by omega)

lemma toDo_start (env : Setting) (deep : Bool) (tree : Node) (block : Option String) (journal : Journal) :
    (start env tree block 0 journal).toDo deep ≤ tree.size := by
  have hload : (start env tree block 0 journal).load deep = tree.entities deep := Nat.add_zero _
  rw [toDo, hload]
  have hone : (start env tree block 0 journal).pending ≤ 1 := List.countP_le_length
  cases tree with
  | entity e => exact Node.entities_le_size deep (.entity e)
  | _ => exact Nat.le_trans (Nat.add_le_add_left hone _) (Node.entities_lt_size deep rfl)

end State

namespace Engine

variable {engine : Engine}

lemma exists_expand_of_size (hindex : engine.index = {}) {tree : Node} {fuel : Nat} (hfuel : tree.size + 2 ≤ fuel)
    (block : Option String) (deep : Bool) (journal : Journal) :
    ∃ s, engine.expand fuel tree block deep journal = some s :=
  State.exists_drain hindex (ofFuel_within engine.setting fuel) fuel (State.Tidy.start _ tree block 0 journal)
    (State.Paced.start _ deep tree block journal)
    (Nat.le_trans (Nat.add_le_add_right (State.toDo_start _ deep tree block journal) 2) hfuel)

end Engine

end Bemjson
