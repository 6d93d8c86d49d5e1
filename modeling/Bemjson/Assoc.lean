/-! Records of named values: lists of pairs in the order in which the names first came. -/

namespace Bemjson

abbrev Assoc (α : Type) := List (String × α)

namespace Assoc

variable {α : Type}

def keys (m : Assoc α) : List String := m.map Prod.fst

def get? : Assoc α → String → Option α
  | [], _ => none
  | (k, v) :: m, key => if k = key then some v else get? m key

def contains (m : Assoc α) (key : String) : Bool := (m.get? key).isSome

def insert : Assoc α → String → α → Assoc α
  | [], key, value => [(key, value)]
  | (k, v) :: m, key, value => if k = key then (key, value) :: m else (k, v) :: insert m key value

def put (force : Bool) (m : Assoc α) (key : String) (value : α) : Assoc α :=
  if force || !m.contains key then m.insert key value else m

def merge (force : Bool) (m values : Assoc α) : Assoc α :=
  values.foldl (fun m p => m.put force p.1 p.2) m

def ofList (pairs : List (String × α)) : Assoc α := merge true [] pairs

theorem get?_insert (m : Assoc α) (key other : String) (value : α) :
    (m.insert key value).get? other = if key = other then some value else m.get? other := by
  induction m with
  | nil => rfl
  | cons p m ih =>
    obtain ⟨k, v⟩ := p
    by_cases hk : k = key
    · subst hk
      by_cases ho : k = other <;> simp [insert, get?, ho]
    · by_cases ho : k = other
      · subst ho
        simp [insert, get?, hk, Ne.symm hk]
      · simp [insert, get?, hk, ho, ih]

theorem get?_put (force : Bool) (m : Assoc α) (key other : String) (value : α) :
    (m.put force key value).get? other =
      if key = other ∧ (force = true ∨ m.get? key = none) then some value else m.get? other := by
  by_cases hf : (force || !m.contains key) = true
  · have hc : force = true ∨ m.get? key = none := by simpa [contains] using hf
    simp [put, hf, get?_insert, hc]
  · have hc : ¬(force = true ∨ m.get? key = none) := by simpa [contains] using hf
    simp [put, hf, hc]

theorem keys_insert (m : Assoc α) (key : String) (value : α) :
    (m.insert key value).keys = if key ∈ m.keys then m.keys else m.keys ++ [key] := by
  induction m with
  | nil => rfl
  | cons p m ih =>
    obtain ⟨k, v⟩ := p
    by_cases hk : k = key
    · simp [insert, keys, hk]
    · have hn : ¬key = k := fun h => hk h.symm
      simp only [keys] at ih
      by_cases hm : key ∈ m.map Prod.fst <;> simp [insert, keys, hk, hn, hm, ih]

end Assoc

end Bemjson
