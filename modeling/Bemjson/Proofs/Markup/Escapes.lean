import Bemjson.Text.CharRef
import Mathlib.Logic.Function.Basic
import Mathlib.Tactic.Lemma

/-! What escaped text looks like: what was escaped can be read back from it, and it has no other form. -/

namespace Bemjson.CharRef

structure Confined (chosen text : List Char) : Prop where
  free : ∀ c ∈ chosen, c ≠ '&' → c ∉ text
  references : ∀ before after, text = before ++ '&' :: after → ∃ c ∈ chosen, ofChar c <+: '&' :: after

section Confined

variable {chosen : List Char}

lemma ofChar_eq (c : Char) : ∃ r, ofChar c = '&' :: r ∧ '&' ∉ r := by
  unfold ofChar
  repeat' split
  all_goals exact ⟨_, rfl, by decide⟩

lemma piece_eq_append (hchosen : Reversible chosen) {c : Char} {before after : List Char}
    (h : (if c ∈ chosen then ofChar c else [c]) = before ++ '&' :: after) :
    c ∈ chosen ∧ ofChar c = '&' :: after := by
  by_cases hc : c ∈ chosen
  · rw [if_pos hc] at h
    obtain ⟨r, hr, hnot⟩ := ofChar_eq c
    refine ⟨hc, ?_⟩
    cases before with
    | nil => exact h
    | cons d before =>
      rw [hr] at h
      obtain ⟨_, rfl⟩ := List.cons.inj h
      exact absurd (List.mem_append_right before List.mem_cons_self) hnot
  · rw [if_neg hc] at h
    have hmem : '&' ∈ [c] := h ▸ List.mem_append_right before List.mem_cons_self
    obtain rfl := List.mem_singleton.mp hmem
    exact absurd hchosen.ampersand hc

lemma exists_reference (hchosen : Reversible chosen) (cs : List Char) {before after : List Char}
    (h : escapeWith chosen cs = before ++ '&' :: after) : ∃ c ∈ chosen, ofChar c <+: '&' :: after := by
  induction cs generalizing before with
  | nil => simp [escapeWith] at h
  | cons c cs ih =>
    rw [escapeWith_cons] at h
    rcases List.append_eq_append_iff.mp h with ⟨rest, _, hrest⟩ | ⟨piece, hpiece, hafter⟩
    · exact ih hrest
    · cases piece with
      | nil =>
        have hnil : escapeWith chosen cs = [] ++ '&' :: after := hafter.symm
        exact ih hnil
      | cons d piece =>
        obtain ⟨rfl, hafter⟩ := List.cons.inj hafter
        obtain ⟨hc, hof⟩ := piece_eq_append hchosen hpiece
        refine ⟨c, hc, ?_⟩
        rw [hof, hafter]
        exact List.cons_prefix_cons.mpr ⟨rfl, List.prefix_append piece _⟩

lemma confined_escapeWith (hchosen : Reversible chosen) (cs : List Char) : Confined chosen (escapeWith chosen cs) where
  free c hc hne := not_mem_escapeWith (hchosen.special c hc) hne hc cs
  references _ _ h := exists_reference hchosen cs h

lemma Confined.of_append (front : List Char) {text : List Char} (h : Confined chosen (front ++ text)) :
    Confined chosen text where
  free c hc hne hmem := h.free c hc hne (List.mem_append_right front hmem)
  references before after ht := h.references (front ++ before) after (by rw [ht, List.append_assoc])

lemma escapeWith_decode (hchosen : Reversible chosen) {text : List Char} (h : Confined chosen text) :
    escapeWith chosen (decode text) = text := by
  -- a reference is read as one character, so the induction is on the length
  induction hn : text.length using Nat.strongRecOn generalizing text with
  | ind n ih =>
    subst hn
    cases text with
    | nil => rfl
    | cons c text =>
      by_cases hc : c = '&'
      · subst hc
        obtain ⟨d, hd, rest, hrest⟩ := h.references [] text rfl
        rw [← hrest] at h ih ⊢
        obtain ⟨r, hr, _⟩ := ofChar_eq d
        have hlt : rest.length < (ofChar d ++ rest).length := by
          rw [hr, List.length_append, List.length_cons]
          omega
        rw [decode_ofChar_append d (hchosen.special d hd), escapeWith_cons, if_pos hd, ih _ hlt (h.of_append _) rfl]
      · have hnot : c ∉ chosen := fun hmem => h.free c hmem hc List.mem_cons_self
        have hrest : Confined chosen text := Confined.of_append [c] h
        rw [decode_cons c hc, escapeWith_cons, if_neg hnot, ih _ (Nat.lt_succ_self _) hrest rfl, List.singleton_append]

end Confined

structure Lossless (escape : String → String) (out : List Char) (references : List String) : Prop where
  read : ∀ s, decode (escape s).toList = s.toList
  injective : Function.Injective escape
  free : ∀ s, ∀ c ∈ out, c ∉ (escape s).toList
  own : ∀ s before after, (escape s).toList = before ++ '&' :: after →
    ∃ ref ∈ references, ref.toList <+: '&' :: after
  all : ∀ t : String, (∀ c ∈ out, c ∉ t.toList) →
    (∀ before after, t.toList = before ++ '&' :: after → ∃ ref ∈ references, ref.toList <+: '&' :: after) →
    ∃ s, escape s = t

lemma lossless_escapeWith {chosen out : List Char} {references : List String} (hchosen : Reversible chosen)
    (hout : out = chosen.filter (· ≠ '&')) (hrefs : references.map String.toList = chosen.map ofChar) :
    Lossless (fun s => String.ofList (escapeWith chosen s.toList)) out references := by
  have hread : ∀ s : String, decode (String.ofList (escapeWith chosen s.toList)).toList = s.toList := by
    intro s
    rw [String.toList_ofList]
    exact decode_escapeWith hchosen s.toList
  have href : ∀ after, (∃ ref ∈ references, ref.toList <+: '&' :: after) ↔ ∃ c ∈ chosen, ofChar c <+: '&' :: after := by
    intro after
    have hlist : (∃ r ∈ references.map String.toList, r <+: '&' :: after) ↔
        ∃ r ∈ chosen.map ofChar, r <+: '&' :: after := by rw [hrefs]
    simpa only [List.mem_map, exists_exists_and_eq_and] using hlist
  have hmem : ∀ c, c ∈ out ↔ c ∈ chosen ∧ c ≠ '&' := by
    intro c
    rw [hout, List.mem_filter, decide_eq_true_iff]
  constructor
  case read => exact hread
  case injective =>
    intro s t hst
    have hsame := congrArg (fun text : String => decode text.toList) hst
    simp only [hread] at hsame
    exact String.toList_injective hsame
  case free =>
    intro s c hc
    obtain ⟨hc, hne⟩ := (hmem c).mp hc
    rw [String.toList_ofList]
    exact (confined_escapeWith hchosen s.toList).free c hc hne
  case own =>
    intro s before after h
    rw [String.toList_ofList] at h
    exact (href after).mpr ((confined_escapeWith hchosen s.toList).references before after h)
  case all =>
    intro t hfree hown
    have ht : Confined chosen t.toList :=
      ⟨fun c hc hne => hfree c ((hmem c).mpr ⟨hc, hne⟩), fun before after h => (href after).mp (hown before after h)⟩
    refine ⟨String.ofList (decode t.toList), ?_⟩
    rw [String.toList_ofList, escapeWith_decode hchosen ht, String.ofList_toList]

/-- Each of the three escapes can be undone, whatever the text is, and none lets out of its place what would end it. -/
theorem escapes_lossless :
    Lossless escapeText ['<', '>'] ["&amp;", "&lt;", "&gt;"] ∧
      Lossless escapeAttribute ['"'] ["&amp;", "&quot;"] ∧
      Lossless escapeBehavior [apostrophe] ["&amp;", "&#39;"] := by
  refine ⟨?_, ?_, ?_⟩
  · exact lossless_escapeWith reversible_inText (by decide) (by decide)
  · exact lossless_escapeWith reversible_inAttribute (by decide) (by decide)
  · exact lossless_escapeWith reversible_inBehavior (by decide) (by decide)

end Bemjson.CharRef
