import Bemjson.Selector
import Mathlib.Computability.RegularExpressions
import Mathlib.Data.List.TakeWhile

/-! The texts that are read as selectors are those of a regular expression. It says nothing of the parts: they are what
is left when the text is cut at its underscores, and printed they give the text again. -/

namespace Bemjson

namespace Selector

section Pattern

open RegularExpression

def oneOf (cs : List Char) : RegularExpression Char := (cs.map char).sum

def charsFrom (low high : Char) : List Char := (List.range' low.toNat (high.toNat + 1 - low.toNat)).map Char.ofNat

def wordChars : List Char := charsFrom 'A' 'Z' ++ charsFrom 'a' 'z' ++ charsFrom '0' '9' ++ ['-']

def wordPattern : RegularExpression Char := oneOf wordChars * (oneOf wordChars).star

def condPattern : RegularExpression Char := char '_' * wordPattern

def partPattern : RegularExpression Char := wordPattern * (1 + condPattern + condPattern * condPattern)

def pattern : RegularExpression Char := partPattern * (1 + char '_' * char '_' * partPattern)

end Pattern

section Cutting

def cut : List Char → List Char × Option (List Char)
  | [] => ([], none)
  | c :: cs => if c = '_' then ([], some cs) else (c :: (cut cs).1, (cut cs).2)

def cutTwo : List Char → List Char × Option (List Char)
  | [] => ([], none)
  | c :: cs => if c = '_' ∧ cs.head? = some '_' then ([], some cs.tail) else (c :: (cutTwo cs).1, (cutTwo cs).2)

def cutPart (cs : List Char) : Part :=
  match cut cs with
  | (name, none) => ⟨.ofList name, none⟩
  | (name, some rest) =>
    match cut rest with
    | (m, none) => ⟨.ofList name, some ⟨.ofList m, .flag⟩⟩
    | (m, some value) => ⟨.ofList name, some ⟨.ofList m, .exact (.ofList value)⟩⟩

def ofCuts (s : String) : Selector :=
  match cutTwo s.toList with
  | (block, none) => ⟨cutPart block, none⟩
  | (block, some elem) => ⟨cutPart block, some (cutPart elem)⟩

end Cutting

end Selector

def Part.words (p : Part) : List (List Char) :=
  p.name.toList :: match p.cond with
    | none => []
    | some ⟨m, .flag⟩ => [m.toList]
    | some ⟨m, .exact value⟩ => [m.toList, value.toList]

lemma Part.words_ne_nil (p : Part) : p.words ≠ [] := List.cons_ne_nil _ _

lemma Part.text_toList (p : Part) : p.text.toList = ['_'].intercalate p.words := by
  obtain ⟨name, cond⟩ := p
  rcases cond with _ | ⟨m, _ | value⟩ <;> simp [text, words, List.intercalate]

def Part.Named (p : Part) : Prop := ∀ w ∈ p.words, Selector.isWord w = true

def Selector.words (s : Selector) : List (List Char) := s.block.words ++ (s.elem.map fun e => [] :: e.words).getD []

def Selector.Named (s : Selector) : Prop := s.block.Named ∧ ∀ e ∈ s.elem, e.Named

namespace Selector

section Words

lemma splitWords_eq (cs : List Char) : splitWords cs = cs.splitOn '_' := by
  induction cs with
  | nil => rfl
  | cons c cs ih =>
    rw [splitWords, List.splitOn_cons_eq_if_modifyHead, ih]
    by_cases hc : c = '_'
    · simp [hc]
    · have hne := List.splitOn_ne_nil '_' cs
      cases hs : cs.splitOn '_' with
      | nil => exact absurd hs hne
      | cons w ws => simp [hc]

lemma isWord_iff {w : List Char} : isWord w = true ↔ w ≠ [] ∧ ∀ c ∈ w, isWordChar c = true := by
  simp [isWord]

lemma not_mem_of_isWord {w : List Char} (h : isWord w = true) : '_' ∉ w := fun hm => by
  have hc := (isWord_iff.mp h).2 '_' hm
  revert hc
  decide

lemma intercalate_append {xs ys : List (List Char)} (hx : xs ≠ []) (hy : ys ≠ []) :
    ['_'].intercalate (xs ++ ys) = ['_'].intercalate xs ++ '_' :: ['_'].intercalate ys := by
  induction xs with
  | nil => exact absurd rfl hx
  | cons x xs ih =>
    cases xs with
    | nil => simp [List.intercalate_cons_of_ne_nil hy]
    | cons x' xs =>
      rw [List.cons_append, List.cons_append, List.intercalate_cons_cons, List.intercalate_cons_cons, ← List.cons_append,
        ih (List.cons_ne_nil _ _)]
      simp

lemma head?_intercalate {x : List Char} (h : x ≠ []) (xs : List (List Char)) :
    (['_'].intercalate (x :: xs)).head? = x.head? := by
  obtain ⟨c, x, rfl⟩ := List.exists_cons_of_ne_nil h
  cases xs with
  | nil => simp
  | cons x' xs => simp [List.intercalate_cons_cons]

lemma text_toList (s : Selector) : s.text.toList = ['_'].intercalate s.words := by
  obtain ⟨block, elem⟩ := s
  cases elem with
  | none => simp [text, words, Part.text_toList]
  | some elem =>
    rw [words, Option.map_some, Option.getD_some, intercalate_append block.words_ne_nil (List.cons_ne_nil _ _),
      List.intercalate_cons_of_ne_nil elem.words_ne_nil, ← Part.text_toList, ← Part.text_toList]
    simp [text]

end Words

section Reading

lemma readPart_eq_some {ws : List (List Char)} {p : Part} : readPart ws = some p ↔ p.Named ∧ p.words = ws := by
  constructor
  · intro h
    unfold readPart at h
    split at h
    · rename_i hall
      rw [List.all_eq_true] at hall
      split at h <;> cases h <;> exact ⟨by simpa [Part.Named, Part.words] using hall, by simp [Part.words]⟩
    · cases h
  · rintro ⟨hnamed, rfl⟩
    have hall : p.words.all isWord = true := List.all_eq_true.mpr hnamed
    obtain ⟨name, cond⟩ := p
    rcases cond with _ | ⟨m, _ | value⟩ <;> simp_all [readPart, Part.words]

lemma isEmpty_of_isWord {w : List Char} (h : isWord w = true) : (!w.isEmpty) = true := by
  have hne := (isWord_iff.mp h).1
  simpa [List.isEmpty_iff] using hne

lemma readWords_eq_some {ws : List (List Char)} {s : Selector} : readWords ws = some s ↔ s.Named ∧ s.words = ws := by
  constructor
  · intro h
    unfold readWords at h
    split at h
    · obtain ⟨block, hblock, rfl⟩ := Option.map_eq_some_iff.mp h
      obtain ⟨hnamed, hwords⟩ := readPart_eq_some.mp hblock
      exact ⟨⟨hnamed, nofun⟩, by simpa [words] using hwords⟩
    · rename_i w elemWords hdrop
      obtain ⟨block, hblock, h⟩ := Option.bind_eq_some_iff.mp h
      obtain ⟨elem, helem, h⟩ := Option.bind_eq_some_iff.mp h
      cases h
      obtain ⟨hnamed, hwords⟩ := readPart_eq_some.mp hblock
      obtain ⟨hnamed', hwords'⟩ := readPart_eq_some.mp helem
      have hw : w = [] := by
        have hhead := List.head?_dropWhile_not (fun w : List Char => !w.isEmpty) ws
        simpa [hdrop] using hhead
      refine ⟨⟨hnamed, fun e he => Option.some.inj he ▸ hnamed'⟩, ?_⟩
      rw [words, hwords, Option.map_some, Option.getD_some, hwords', ← hw, ← hdrop, List.takeWhile_append_dropWhile]
  · rintro ⟨⟨hblock, helem⟩, rfl⟩
    have hempty : ∀ w ∈ s.block.words, (!w.isEmpty) = true := fun w hw => isEmpty_of_isWord (hblock w hw)
    obtain ⟨block, elem⟩ := s
    cases elem with
    | none =>
      have hread := readPart_eq_some.mpr ⟨hblock, rfl⟩
      rw [readWords, words, Option.map_none, Option.getD_none, List.append_nil, List.dropWhile_eq_nil_iff.2 hempty]
      simp only [hread, Option.map_some]
    | some elem =>
      have hread := readPart_eq_some.mpr ⟨hblock, rfl⟩
      have hread' := readPart_eq_some.mpr ⟨helem elem rfl, rfl⟩
      rw [readWords, words, Option.map_some, Option.getD_some, List.dropWhile_append_of_pos hempty,
        List.takeWhile_append_of_pos hempty]
      simp [hread, hread']

lemma words_ne_nil (s : Selector) : s.words ≠ [] := List.append_ne_nil_of_left_ne_nil s.block.words_ne_nil _

lemma not_mem_words {s : Selector} (h : s.Named) : ∀ w ∈ s.words, '_' ∉ w := by
  intro w hw
  rcases List.mem_append.mp hw with hw | hw
  · exact not_mem_of_isWord (h.1 w hw)
  · cases he : s.elem with
    | none => simp [he] at hw
    | some elem =>
      rw [he, Option.map_some, Option.getD_some] at hw
      rcases List.mem_cons.mp hw with rfl | hw
      · exact List.not_mem_nil
      · exact not_mem_of_isWord (h.2 elem he w hw)

lemma read_eq_ok {s : String} {sel : Selector} : read s = .ok sel ↔ sel.Named ∧ sel.text = s := by
  have hread : read s = .ok sel ↔ s ≠ "" ∧ readWords (splitWords s.toList) = some sel := by
    rw [read]
    by_cases hs : s = ""
    · simp [hs]
    · cases readWords (splitWords s.toList) <;> simp [hs]
  rw [hread, readWords_eq_some, splitWords_eq, ← String.toList_inj, text_toList]
  constructor
  · rintro ⟨_, hnamed, hwords⟩
    exact ⟨hnamed, by rw [hwords, List.intercalate_splitOn]⟩
  · rintro ⟨hnamed, htext⟩
    refine ⟨?_, hnamed, ?_⟩
    · rintro rfl
      have hname : sel.block.name.toList ≠ [] := (isWord_iff.mp (hnamed.1 _ List.mem_cons_self)).1
      have hhead := congrArg List.head? htext
      rw [words, Part.words, List.cons_append, head?_intercalate hname] at hhead
      exact hname (List.head?_eq_none_iff.mp hhead)
    · rw [← htext, List.splitOn_intercalate _ (not_mem_words hnamed) sel.words_ne_nil]

end Reading

section Matching

open RegularExpression

lemma mem_oneOf {cs w : List Char} : w ∈ (oneOf cs).matches' ↔ ∃ c ∈ cs, w = [c] := by
  induction cs with
  | nil => exact ⟨nofun, nofun⟩
  | cons c cs ih =>
    rw [oneOf, List.map_cons, List.sum_cons, matches'_add, matches'_char, Language.mem_add]
    change w = [c] ∨ w ∈ (oneOf cs).matches' ↔ _
    rw [ih]
    simp

lemma mem_star_oneOf {cs w : List Char} : w ∈ (oneOf cs).star.matches' ↔ ∀ c ∈ w, c ∈ cs := by
  rw [matches'_star, Language.mem_kstar]
  constructor
  · rintro ⟨ws, rfl, hws⟩ c hc
    obtain ⟨w, hw, hcw⟩ := List.mem_flatten.mp hc
    obtain ⟨d, hd, rfl⟩ := mem_oneOf.mp (hws w hw)
    rwa [List.mem_singleton.mp hcw]
  · intro h
    refine ⟨w.map fun c => [c], by rw [← List.flatMap_def, List.flatMap_singleton'], fun v hv => ?_⟩
    obtain ⟨c, hc, rfl⟩ := List.mem_map.mp hv
    exact mem_oneOf.mpr ⟨c, h c hc, rfl⟩

lemma mem_charsFrom {low high c : Char} (h : high.toNat < 0xD800) : c ∈ charsFrom low high ↔ low ≤ c ∧ c ≤ high := by
  have hle : (low ≤ c ∧ c ≤ high) ↔ low.toNat ≤ c.toNat ∧ c.toNat ≤ high.toNat := Iff.rfl
  rw [hle, charsFrom, List.mem_map]
  simp only [List.mem_range'_1]
  constructor
  · rintro ⟨n, hn, rfl⟩
    have hvalid : n.isValidChar := Or.inl (by omega)
    have hn' : (Char.ofNat n).toNat = n := by
      rw [Char.ofNat, dif_pos hvalid]
      rfl
    omega
  · rintro ⟨hlow, hhigh⟩
    exact ⟨c.toNat, by omega, Char.ofNat_toNat c⟩

lemma mem_wordChars {c : Char} : c ∈ wordChars ↔ isWordChar c = true := by
  simp only [wordChars, List.mem_append, List.mem_singleton, mem_charsFrom (show 'Z'.toNat < 0xD800 by decide),
    mem_charsFrom (show 'z'.toNat < 0xD800 by decide), mem_charsFrom (show '9'.toNat < 0xD800 by decide)]
  have hword : isWordChar c = (decide ('A' ≤ c ∧ c ≤ 'Z') || decide ('a' ≤ c) && decide (c ≤ 'z') ||
      decide ('0' ≤ c) && decide (c ≤ '9') || decide (c = '-')) := rfl
  simp only [hword, Bool.or_eq_true, Bool.and_eq_true, decide_eq_true_eq]

lemma mem_wordPattern {w : List Char} : w ∈ wordPattern.matches' ↔ isWord w = true := by
  rw [wordPattern, matches'_mul, Language.mem_mul, isWord_iff]
  constructor
  · rintro ⟨_, hfirst, rest, hrest, rfl⟩
    obtain ⟨c, hc, rfl⟩ := mem_oneOf.mp hfirst
    rw [mem_star_oneOf] at hrest
    refine ⟨List.cons_ne_nil c rest, fun d hd => mem_wordChars.mp ?_⟩
    rcases List.mem_cons.mp hd with rfl | hd
    · exact hc
    · exact hrest d hd
  · rintro ⟨hne, hall⟩
    obtain ⟨c, rest, rfl⟩ := List.exists_cons_of_ne_nil hne
    refine ⟨[c], mem_oneOf.mpr ⟨c, mem_wordChars.mpr (hall c List.mem_cons_self), rfl⟩, rest, ?_, rfl⟩
    exact mem_star_oneOf.mpr fun d hd => mem_wordChars.mpr (hall d (List.mem_cons_of_mem c hd))

lemma mem_condPattern {w : List Char} : w ∈ condPattern.matches' ↔ ∃ v, isWord v = true ∧ '_' :: v = w := by
  rw [condPattern, matches'_mul, matches'_char, Language.mem_mul]
  constructor
  · rintro ⟨_, rfl, v, hv, rfl⟩
    exact ⟨v, mem_wordPattern.mp hv, rfl⟩
  · rintro ⟨v, hv, rfl⟩
    exact ⟨['_'], rfl, v, mem_wordPattern.mpr hv, rfl⟩

lemma mem_partPattern {w : List Char} : w ∈ partPattern.matches' ↔ ∃ p : Part, p.Named ∧ p.text.toList = w := by
  rw [partPattern, matches'_mul, Language.mem_mul]
  simp only [matches'_add, matches'_mul, matches'_epsilon, Language.mem_add, Language.mem_one, Language.mem_mul,
    mem_wordPattern, mem_condPattern]
  constructor
  · rintro ⟨name, hname, _, (rfl | ⟨m, hm, rfl⟩) | ⟨_, ⟨m, hm, rfl⟩, _, ⟨value, hvalue, rfl⟩, rfl⟩, rfl⟩
    · exact ⟨⟨.ofList name, none⟩, by simp [Part.Named, Part.words, hname], by simp [Part.text]⟩
    · exact ⟨⟨.ofList name, some ⟨.ofList m, .flag⟩⟩, by simp [Part.Named, Part.words, hname, hm], by simp [Part.text]⟩
    · exact ⟨⟨.ofList name, some ⟨.ofList m, .exact (.ofList value)⟩⟩,
        by simp [Part.Named, Part.words, hname, hm, hvalue], by simp [Part.text]⟩
  · rintro ⟨⟨name, cond⟩, hnamed, rfl⟩
    rcases cond with _ | ⟨m, _ | value⟩ <;> simp only [Part.Named, Part.words, List.forall_mem_cons] at hnamed
    · exact ⟨_, hnamed.1, [], .inl (.inl rfl), by simp [Part.text]⟩
    · exact ⟨_, hnamed.1, _, .inl (.inr ⟨_, hnamed.2.1, rfl⟩), by simp [Part.text]⟩
    · exact ⟨_, hnamed.1, _, .inr ⟨_, ⟨_, hnamed.2.1, rfl⟩, _, ⟨_, hnamed.2.2.1, rfl⟩, rfl⟩, by simp [Part.text]⟩

lemma mem_pattern {w : List Char} : w ∈ pattern.matches' ↔ ∃ s : Selector, s.Named ∧ s.text.toList = w := by
  rw [pattern, matches'_mul, Language.mem_mul]
  simp only [matches'_add, matches'_mul, matches'_epsilon, matches'_char, Language.mem_add, Language.mem_one,
    Language.mem_mul, mem_partPattern]
  constructor
  · rintro ⟨_, ⟨block, hblock, rfl⟩, _, rfl | ⟨_, ⟨_, rfl, _, rfl, rfl⟩, _, ⟨elem, helem, rfl⟩, rfl⟩, rfl⟩
    · exact ⟨⟨block, none⟩, ⟨hblock, nofun⟩, by simp [text]⟩
    · exact ⟨⟨block, some elem⟩, ⟨hblock, fun e he => Option.some.inj he ▸ helem⟩, by simp [text]⟩
  · rintro ⟨⟨block, elem⟩, ⟨hblock, helem⟩, rfl⟩
    cases elem with
    | none => exact ⟨_, ⟨block, hblock, rfl⟩, [], .inl rfl, by simp [text]⟩
    | some elem =>
      exact ⟨_, ⟨block, hblock, rfl⟩, _, .inr ⟨_, ⟨_, rfl, _, rfl, rfl⟩, _, ⟨elem, helem elem rfl, rfl⟩, rfl⟩,
        by simp [text]⟩

end Matching

section Cuts

lemma cut_of_not_mem {w : List Char} (h : '_' ∉ w) : cut w = (w, none) := by
  induction w with
  | nil => rfl
  | cons c w ih =>
    obtain ⟨hc, hw⟩ := List.ne_and_not_mem_of_not_mem_cons h
    rw [cut, if_neg (Ne.symm hc), ih hw]

lemma cut_append {w : List Char} (h : '_' ∉ w) (rest : List Char) : cut (w ++ '_' :: rest) = (w, some rest) := by
  induction w with
  | nil => rfl
  | cons c w ih =>
    obtain ⟨hc, hw⟩ := List.ne_and_not_mem_of_not_mem_cons h
    rw [List.cons_append, cut, if_neg (Ne.symm hc), ih hw]

lemma cutPart_text {p : Part} (h : p.Named) : cutPart p.text.toList = p := by
  have hw : ∀ w ∈ p.words, '_' ∉ w := fun w hw => not_mem_of_isWord (h w hw)
  obtain ⟨name, cond⟩ := p
  rcases cond with _ | ⟨m, _ | value⟩ <;> simp only [Part.words, List.forall_mem_cons] at hw
  · simp [Part.text, cutPart, cut_of_not_mem hw.1]
  · simp [Part.text, cutPart, cut_append hw.1, cut_of_not_mem hw.2.1]
  · simp [Part.text, cutPart, cut_append hw.1, cut_append hw.2.1]

lemma cutTwo_of_not_mem {w : List Char} (h : '_' ∉ w) (cs : List Char) :
    cutTwo (w ++ cs) = (w ++ (cutTwo cs).1, (cutTwo cs).2) := by
  induction w with
  | nil => rfl
  | cons c w ih =>
    obtain ⟨hc, hw⟩ := List.ne_and_not_mem_of_not_mem_cons h
    rw [List.cons_append, cutTwo, if_neg fun hcut => hc hcut.1.symm, ih hw, List.cons_append]

lemma cutTwo_intercalate {ws : List (List Char)} (h : ∀ w ∈ ws, isWord w = true) (cs : List Char) :
    cutTwo (['_'].intercalate ws ++ cs) = (['_'].intercalate ws ++ (cutTwo cs).1, (cutTwo cs).2) := by
  induction ws with
  | nil => rfl
  | cons w ws ih =>
    obtain ⟨hw, hws⟩ := List.forall_mem_cons.mp h
    cases ws with
    | nil => simpa using cutTwo_of_not_mem (not_mem_of_isWord hw) cs
    | cons v ws =>
      obtain ⟨hne, hv⟩ := isWord_iff.mp (List.forall_mem_cons.mp hws).1
      obtain ⟨c, v, rfl⟩ := List.exists_cons_of_ne_nil hne
      have hc : c ≠ '_' := by
        rintro rfl
        exact not_mem_of_isWord (List.forall_mem_cons.mp hws).1 List.mem_cons_self
      have hhead : (['_'].intercalate ((c :: v) :: ws) ++ cs).head? = some c := by
        rw [List.head?_append, head?_intercalate hne, List.head?_cons, Option.some_or]
      have hnext : cutTwo ('_' :: (['_'].intercalate ((c :: v) :: ws) ++ cs)) =
          ('_' :: (['_'].intercalate ((c :: v) :: ws) ++ (cutTwo cs).1), (cutTwo cs).2) := by
        rw [cutTwo, if_neg fun hcut => hc (Option.some.inj (hhead.symm.trans hcut.2)), ih hws]
      rw [List.intercalate_cons_cons, List.append_assoc, List.append_assoc, List.singleton_append,
        cutTwo_of_not_mem (not_mem_of_isWord hw), hnext]
      simp

lemma cutTwo_text {p : Part} (h : p.Named) (cs : List Char) :
    cutTwo (p.text.toList ++ cs) = (p.text.toList ++ (cutTwo cs).1, (cutTwo cs).2) := by
  rw [Part.text_toList]
  exact cutTwo_intercalate h cs

lemma ofCuts_text {s : Selector} (h : s.Named) : ofCuts s.text = s := by
  obtain ⟨block, elem⟩ := s
  obtain ⟨hblock, helem⟩ := h
  cases elem with
  | none =>
    have hcut := cutTwo_text hblock []
    rw [List.append_nil] at hcut
    simp [ofCuts, text, hcut, cutTwo, cutPart_text hblock]
  | some elem =>
    have hcut := cutTwo_text hblock ('_' :: '_' :: elem.text.toList)
    have htext : (Selector.text ⟨block, some elem⟩).toList = block.text.toList ++ '_' :: '_' :: elem.text.toList := by
      simp [text]
    simp [ofCuts, htext, hcut, cutTwo, cutPart_text hblock, cutPart_text (helem elem rfl)]

end Cuts

/-- A text is read as a selector if and only if it matches the pattern, and what is read are the parts between its
underscores. These are just the selectors of which all names are words, each read from the text that it has. -/
theorem read_iff_matches (s : String) :
    ((∃ sel, read s = .ok sel) ↔ s.toList ∈ pattern.matches') ∧
    (∀ sel, read s = .ok sel ↔ s.toList ∈ pattern.matches' ∧ ofCuts s = sel) ∧
    ∀ sel, read s = .ok sel ↔ sel.Named ∧ sel.text = s := by
  have hmatches : s.toList ∈ pattern.matches' ↔ ∃ sel : Selector, sel.Named ∧ sel.text = s := by
    simp only [mem_pattern, String.toList_inj]
  refine ⟨?_, fun sel => ?_, fun sel => read_eq_ok⟩
  · simp only [read_eq_ok, hmatches]
  · rw [read_eq_ok, hmatches]
    constructor
    · rintro ⟨hnamed, rfl⟩
      exact ⟨⟨sel, hnamed, rfl⟩, ofCuts_text hnamed⟩
    · rintro ⟨⟨sel', hnamed, rfl⟩, rfl⟩
      rw [ofCuts_text hnamed]
      exact ⟨hnamed, rfl⟩

example : read "menu_size_l__item_hidden" =
    .ok ⟨⟨"menu", some ⟨"size", .exact "l"⟩⟩, some ⟨"item", some ⟨"hidden", .flag⟩⟩⟩ := by rfl

end Selector

end Bemjson
