/-! Character references: writing text so that it cannot end the place it stands in, and reading it back. -/

namespace Bemjson.CharRef

def apostrophe : Char := Char.ofNat 39

def ofChar (c : Char) : List Char :=
  if c = '&' then ['&', 'a', 'm', 'p', ';']
  else if c = '<' then ['&', 'l', 't', ';']
  else if c = '>' then ['&', 'g', 't', ';']
  else if c = '"' then ['&', 'q', 'u', 'o', 't', ';']
  else ['&', '#', '3', '9', ';']

def escapeWith (chosen : List Char) (cs : List Char) : List Char :=
  cs.flatMap fun c => if chosen.contains c then ofChar c else [c]

def inText : List Char := ['&', '<', '>']

def inAttribute : List Char := ['&', '"']

def inBehavior : List Char := ['&', apostrophe]

def escapeText (s : String) : String := String.ofList (escapeWith inText s.toList)

def escapeAttribute (s : String) : String := String.ofList (escapeWith inAttribute s.toList)

def escapeBehavior (s : String) : String := String.ofList (escapeWith inBehavior s.toList)

def decode : List Char → List Char
  | '&' :: 'a' :: 'm' :: 'p' :: ';' :: r => '&' :: decode r
  | '&' :: 'l' :: 't' :: ';' :: r => '<' :: decode r
  | '&' :: 'g' :: 't' :: ';' :: r => '>' :: decode r
  | '&' :: 'q' :: 'u' :: 'o' :: 't' :: ';' :: r => '"' :: decode r
  | '&' :: '#' :: '3' :: '9' :: ';' :: r => apostrophe :: decode r
  | c :: r => c :: decode r
  | [] => []

def special : List Char := ['&', '<', '>', '"', apostrophe]

theorem decode_ofChar_append (c : Char) (h : c ∈ special) (r : List Char) :
    decode (ofChar c ++ r) = c :: decode r := by
  simp only [special, List.mem_cons, List.not_mem_nil, or_false] at h
  rcases h with rfl | rfl | rfl | rfl | rfl <;> simp [ofChar, decode, apostrophe]

theorem decode_cons (c : Char) (h : c ≠ '&') (r : List Char) : decode (c :: r) = c :: decode r := by
  rw [decode.eq_def]
  split <;> simp_all

theorem escapeWith_cons (chosen : List Char) (c : Char) (cs : List Char) :
    escapeWith chosen (c :: cs) = (if c ∈ chosen then ofChar c else [c]) ++ escapeWith chosen cs := by
  simp [escapeWith]

theorem escapeWith_append (chosen cs ds : List Char) :
    escapeWith chosen (cs ++ ds) = escapeWith chosen cs ++ escapeWith chosen ds := List.flatMap_append

/-- A choice of characters that have a reference each, with ampersands among them. -/
structure Reversible (chosen : List Char) : Prop where
  special : ∀ c ∈ chosen, c ∈ special
  ampersand : '&' ∈ chosen

theorem reversible_inText : Reversible inText := ⟨by simp [inText, special], by simp [inText]⟩

theorem reversible_inAttribute : Reversible inAttribute := ⟨by simp [inAttribute, special], by simp [inAttribute]⟩

theorem reversible_inBehavior : Reversible inBehavior := ⟨by simp [inBehavior, special], by simp [inBehavior]⟩

theorem decode_escapeWith_append {chosen : List Char} (h : Reversible chosen) (cs r : List Char) :
    decode (escapeWith chosen cs ++ r) = cs ++ decode r := by
  induction cs with
  | nil => rfl
  | cons c cs ih =>
    rw [escapeWith_cons, List.append_assoc, List.cons_append, ← ih]
    by_cases hc : c ∈ chosen
    · rw [if_pos hc, decode_ofChar_append c (h.special c hc)]
    · have hn : c ≠ '&' := fun he => hc (he ▸ h.ampersand)
      rw [if_neg hc, List.singleton_append, decode_cons c hn]

/-- Whatever is escaped is read back. -/
theorem decode_escapeWith {chosen : List Char} (h : Reversible chosen) (cs : List Char) :
    decode (escapeWith chosen cs) = cs := by
  have hread := decode_escapeWith_append h cs []
  rwa [List.append_nil, decode, List.append_nil] at hread

theorem not_mem_ofChar {c : Char} (hs : c ∈ special) (ha : c ≠ '&') (d : Char) : c ∉ ofChar d := by
  simp only [special, List.mem_cons, List.not_mem_nil, or_false] at hs
  rcases hs with rfl | rfl | rfl | rfl | rfl
  · exact absurd rfl ha
  all_goals
    unfold ofChar
    repeat' split
    all_goals decide

theorem not_mem_escapeWith {chosen : List Char} {c : Char} (hs : c ∈ special) (ha : c ≠ '&') (hc : c ∈ chosen)
    (cs : List Char) : c ∉ escapeWith chosen cs := by
  rw [escapeWith, List.mem_flatMap]
  rintro ⟨d, _, hd⟩
  split at hd
  · exact not_mem_ofChar hs ha d hd
  · rename_i hn
    obtain rfl := List.mem_singleton.mp hd
    exact hn (List.contains_iff_mem.mpr hc)

end Bemjson.CharRef
