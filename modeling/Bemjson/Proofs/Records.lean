import Bemjson.Assoc
import Mathlib.Data.List.Induction
import Mathlib.Data.List.Nodup
import Mathlib.Tactic.Lemma

namespace Bemjson.Assoc

variable {α : Type}

lemma get?_eq_none {m : Assoc α} {key : String} : m.get? key = none ↔ key ∉ m.keys := by
  induction m with
  | nil => simp [get?, keys]
  | cons p m ih =>
    obtain ⟨k, v⟩ := p
    by_cases hk : k = key
    · simp [get?, keys, hk]
    · have hn : key ≠ k := fun h => hk h.symm
      rw [get?, if_neg hk, ih]
      simp [keys, hn]

lemma get?_append (m n : Assoc α) (key : String) : get? (m ++ n) key = (m.get? key).or (n.get? key) := by
  induction m with
  | nil => rfl
  | cons p m ih =>
    obtain ⟨k, v⟩ := p
    by_cases hk : k = key <;> simp [get?, hk, ih]

lemma insert_of_not_mem {m : Assoc α} {key : String} {value : α} (h : key ∉ m.keys) :
    m.insert key value = m ++ [(key, value)] := by
  induction m with
  | nil => rfl
  | cons p m ih =>
    obtain ⟨k, v⟩ := p
    have hk : k ≠ key := fun hk => h (hk ▸ List.mem_cons_self)
    have hm : key ∉ Assoc.keys m := fun hm => h (List.mem_cons_of_mem _ hm)
    rw [Assoc.insert, if_neg hk, ih hm, List.cons_append]

lemma filter_insert (m : Assoc α) (key : String) (value : α) :
    (m.insert key value).filter (fun p => p.1 ≠ key) = m.filter fun p => p.1 ≠ key := by
  induction m with
  | nil => simp [Assoc.insert]
  | cons p m ih =>
    obtain ⟨k, v⟩ := p
    by_cases hk : k = key
    · simp [Assoc.insert, hk]
    · rw [Assoc.insert, if_neg hk, List.filter_cons, List.filter_cons, ih]

lemma keys_append (m n : Assoc α) : keys (m ++ n) = m.keys ++ n.keys := List.map_append

lemma contains_iff {m : Assoc α} {key : String} : m.contains key = true ↔ key ∈ m.keys := by
  rw [← not_iff_not, ← get?_eq_none]
  simp [contains]

def Grows (m m' : Assoc α) : Prop :=
  ∃ more : Assoc α, m' = m ++ more ∧ (∀ key ∈ more.keys, key ∉ m.keys) ∧ more.keys.Nodup

lemma Grows.refl (m : Assoc α) : m.Grows m := ⟨[], by simp, by simp [keys], by simp [keys]⟩

lemma Grows.trans {a b c : Assoc α} (h : a.Grows b) (h' : b.Grows c) : a.Grows c := by
  obtain ⟨more, rfl, hnew, hnodup⟩ := h
  obtain ⟨further, rfl, hnew', hnodup'⟩ := h'
  simp only [keys_append, List.mem_append, not_or] at hnew'
  refine ⟨more ++ further, List.append_assoc _ _ _, ?_, ?_⟩
  · intro key hkey
    rw [keys_append] at hkey
    exact (List.mem_append.mp hkey).elim (hnew key) fun h => (hnew' key h).1
  · rw [keys_append]
    exact hnodup.append hnodup' fun key hm hf => (hnew' key hf).2 hm

lemma grows_insert {m : Assoc α} {key : String} (h : key ∉ m.keys) (value : α) : m.Grows (m.insert key value) :=
  ⟨[(key, value)], insert_of_not_mem h, by simpa [keys] using h, by simp [keys]⟩

lemma grows_put (m : Assoc α) (key : String) (value : α) : m.Grows (m.put false key value) := by
  by_cases h : key ∈ m.keys
  · rw [put, contains_iff.mpr h]
    exact Grows.refl m
  · rw [put, Bool.eq_false_iff.mpr (contains_iff.not.mpr h)]
    exact grows_insert h value

lemma grows_merge (m values : Assoc α) : m.Grows (m.merge false values) := by
  induction values generalizing m with
  | nil => exact Grows.refl m
  | cons p values ih => exact (grows_put m p.1 p.2).trans (ih _)

lemma merge_append (force : Bool) (m values : Assoc α) (p : String × α) :
    m.merge force (values ++ [p]) = (m.merge force values).put force p.1 p.2 := by
  simp [merge]

lemma merge_merge (force : Bool) (m a b : Assoc α) : (m.merge force a).merge force b = m.merge force (a ++ b) :=
  List.foldl_append.symm

lemma keys_put (force : Bool) (m : Assoc α) (key : String) (value : α) :
    (m.put force key value).keys = if key ∈ m.keys then m.keys else m.keys ++ [key] := by
  rw [put]
  split
  · exact keys_insert m key value
  · rename_i h
    have hc : m.contains key = true := by simp_all
    rw [if_pos (contains_iff.mp hc)]

lemma keys_merge (force : Bool) (m values : Assoc α) :
    (m.merge force values).keys = m.keys ++ (values.keys.filter fun key => key ∉ m.keys).eraseDups := by
  induction values using List.reverseRecOn with
  | nil => simp [merge, keys]
  | append_singleton values p ih =>
    have hlast : keys [p] = [p.1] := rfl
    rw [merge_append, keys_put, ih, keys_append, hlast, List.filter_append, List.eraseDups_append]
    by_cases hm : p.1 ∈ m.keys
    · simp [hm, List.removeAll]
    · by_cases hv : p.1 ∈ keys values <;> simp [hm, hv, List.removeAll, List.eraseDups_cons]

lemma get?_merge_false (m values : Assoc α) (key : String) :
    (m.merge false values).get? key = (m.get? key).or (values.get? key) := by
  induction values using List.reverseRecOn with
  | nil => simp [merge, get?]
  | append_singleton values p ih =>
    rw [merge_append, get?_put, ih, get?_append]
    by_cases hk : p.1 = key
    · subst hk
      rw [ih]
      cases m.get? p.1 <;> cases get? values p.1 <;> simp [get?]
    · simp [get?, hk]

lemma get?_merge_true (m values : Assoc α) (key : String) :
    (m.merge true values).get? key = (get? values.reverse key).or (m.get? key) := by
  induction values using List.reverseRecOn with
  | nil => simp [merge, get?]
  | append_singleton values p ih =>
    rw [merge_append, get?_put, ih, List.reverse_append, List.reverse_singleton, List.singleton_append, get?]
    by_cases hk : p.1 = key <;> simp [hk]

lemma exists_added (m values : Assoc α) :
    ∃ more : Assoc α, m.merge false values = m ++ more ∧
      more.keys = (values.keys.filter fun key => key ∉ m.keys).eraseDups ∧
      ∀ key ∈ more.keys, more.get? key = values.get? key := by
  obtain ⟨more, hmore, hnew, -⟩ := grows_merge m values
  refine ⟨more, hmore, ?_, fun key hkey => ?_⟩
  · have hkeys := keys_merge false m values
    rw [hmore, keys_append] at hkeys
    exact List.append_cancel_left hkeys
  · have hget := get?_merge_false m values key
    rw [hmore, get?_append, get?_eq_none.mpr (hnew key hkey)] at hget
    exact hget

lemma ofList_spec (pairs : Assoc α) :
    (ofList pairs).keys = pairs.keys.eraseDups ∧ ∀ key, (ofList pairs).get? key = get? pairs.reverse key := by
  refine ⟨(keys_merge true [] pairs).trans ?_, fun key => (get?_merge_true [] pairs key).trans ?_⟩
  · simp [keys]
  · simp [get?]

section Unique

variable {m values : Assoc α} {key : String} {value : α}

lemma get?_eq_some (h : m.keys.Nodup) : m.get? key = some value ↔ (key, value) ∈ m := by
  induction m with
  | nil => simp [get?]
  | cons p m ih =>
    obtain ⟨k, v⟩ := p
    obtain ⟨hnew, hm⟩ := List.nodup_cons.mp h
    by_cases hk : k = key
    · subst hk
      have hnot : (k, value) ∉ m := fun hv => hnew (List.mem_map.mpr ⟨_, hv, rfl⟩)
      simp [get?, hnot, eq_comm]
    · have hn : ¬key = k := fun h => hk h.symm
      simp [get?, hk, hn, ih hm]

lemma insert_self (h : m.get? key = some value) : m.insert key value = m := by
  induction m with
  | nil => cases h
  | cons p m ih =>
    obtain ⟨k, v⟩ := p
    by_cases hk : k = key
    · simp_all [get?, Assoc.insert]
    · rw [get?, if_neg hk] at h
      rw [Assoc.insert, if_neg hk, ih h]

lemma merge_self (h : ∀ p ∈ values, m.get? p.1 = some p.2) : m.merge true values = m := by
  induction values with
  | nil => rfl
  | cons p values ih =>
    have hp : m.put true p.1 p.2 = m := insert_self (h p List.mem_cons_self)
    have hrest := ih fun q hq => h q (List.mem_cons_of_mem _ hq)
    rw [merge, List.foldl_cons, hp]
    exact hrest

lemma merge_nil (h : values.keys.Nodup) : merge true [] values = values := by
  induction values using List.reverseRecOn with
  | nil => rfl
  | append_singleton values p ih =>
    rw [keys_append] at h
    have hnew : p.1 ∉ keys values := fun hp => (List.nodup_append.mp h).2.2 p.1 hp p.1 List.mem_cons_self rfl
    rw [merge_append, ih (List.nodup_append.mp h).1]
    exact insert_of_not_mem hnew

lemma nodup_keys_reverse (h : m.keys.Nodup) : (keys m.reverse).Nodup := by
  rw [keys, List.map_reverse]
  exact List.nodup_reverse.mpr h

lemma get?_reverse (h : m.keys.Nodup) (key : String) : get? m.reverse key = m.get? key := by
  ext v
  rw [get?_eq_some h, get?_eq_some (nodup_keys_reverse h), List.mem_reverse]

lemma get?_perm {a b : Assoc α} (h : a.Perm b) (hn : a.keys.Nodup) (key : String) : a.get? key = b.get? key := by
  have hn' : b.keys.Nodup := (h.map Prod.fst).nodup hn
  ext v
  rw [get?_eq_some hn, get?_eq_some hn', h.mem_iff]

lemma eraseDups_of_nodup {l : List String} (h : l.Nodup) : l.eraseDups = l := by
  induction l with
  | nil => rfl
  | cons a l ih =>
    obtain ⟨ha, hl⟩ := List.nodup_cons.mp h
    have hkept : l.filter (fun b => !b == a) = l := by
      refine List.filter_eq_self.mpr fun b hb => ?_
      have hne : b ≠ a := fun he => ha (he ▸ hb)
      simpa using hne
    rw [List.eraseDups_cons, hkept, ih hl]

lemma merge_perm {a b : Assoc α} (h : a.Perm b) (hn : a.keys.Nodup) (m : Assoc α) :
    (m.merge true a).keys.Perm (m.merge true b).keys ∧
      ∀ key, (m.merge true a).get? key = (m.merge true b).get? key := by
  have hn' : b.keys.Nodup := (h.map Prod.fst).nodup hn
  constructor
  · rw [keys_merge, keys_merge, eraseDups_of_nodup (hn.filter _), eraseDups_of_nodup (hn'.filter _)]
    exact ((h.map Prod.fst).filter _).append_left _
  · intro key
    rw [get?_merge_true, get?_merge_true, get?_reverse hn, get?_reverse hn', get?_perm h hn]

lemma merge_merge_self (h : values.keys.Nodup) (m : Assoc α) :
    (m.merge true values).merge true values = m.merge true values := by
  refine merge_self fun p hp => ?_
  rw [get?_merge_true, get?_reverse h, (get?_eq_some h).mpr hp, Option.some_or]

end Unique

end Bemjson.Assoc
