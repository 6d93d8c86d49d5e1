import Bemjson.Proofs.Runs

/-! Two settings in which rules do the same, as long as the run comes to a good end in the first one. -/

namespace Bemjson

/-- A program that asks for none but the given calls, and goes on alike with either of two options. -/
inductive Program.Indifferent {α : Type} (calls : Call → Prop) (o o' : Options) : Program α → Prop
  | done (a : α) : Indifferent calls o o' (.done a)
  | options (next : Options → Program α) : next o' = next o → (next o).Indifferent calls o o' →
      Indifferent calls o o' (.call .options next)
  | call (c : Call) (next : c.Reply → Program α) : c ≠ .options → calls c → (∀ r, (next r).Indifferent calls o o') →
      Indifferent calls o o' (.call c next)

inductive Program.IdFree {α : Type} : Program α → Prop
  | done (a : α) : IdFree (.done a)
  | call (c : Call) (next : c.Reply → Program α) : c ≠ .freshId → (∀ r, (next r).IdFree) → IdFree (.call c next)

lemma Program.IdFree.indifferent {α : Type} {p : Program α} (h : p.IdFree) (o o' : Options) (ho : o' = o) :
    p.Indifferent (fun c => c ≠ .freshId) o o' := by
  subst ho
  induction h with
  | done a => exact .done a
  | call c next hc _ ih =>
    cases c with
    | options => exact .options next rfl (ih o')
    | _ => exact .call _ next (by simp) hc ih

/-- A relation between the foci of two settings that all of the given calls keep. What is good of a run at its end was
good of it before. -/
structure Setting.Twin (a b : Setting) (calls : Call → Prop) (good : Focus → Prop) (S : Focus → Focus → Prop) :
    Prop where
  index : b.index = a.index
  bodies : ∀ rule ∈ a.index.rules, rule.body.Indifferent calls a.options b.options
  back : Focus.Closed a fun f g => good g → good f
  node : ∀ f g, S f g → f.node = g.node
  replaced : ∀ f g, S f g → f.replaced = g.replaced
  place : ∀ f g, S f g → f.place = g.place
  inherited : ∀ f g key, S f g → f.run.inherited f.slot key = g.run.inherited g.slot key
  change : ∀ f g c, S f g → S (f.mapEntity c) (g.mapEntity c)
  replace : ∀ f g n, S f g → S (f.replace n) (g.replace n)
  keep : ∀ f g key value force, S f g →
    S (f.mapRun fun r => r.keep f.slot key value force) (g.mapRun fun r => r.keep g.slot key value force)
  write : ∀ f g entry, S f g → S (f.mapRun fun r => r.write entry) (g.mapRun fun r => r.write entry)
  count : ∀ f g id, S f g → S (f.mapRun fun r => r.countFire id f.slot) (g.mapRun fun r => r.countFire id g.slot)
  issue : calls .freshId → ∀ f g, S f g →
    (f.run.issueId a.idStart).1 = (g.run.issueId b.idStart).1 ∧
      S { f with run := (f.run.issueId a.idStart).2 } { g with run := (g.run.issueId b.idStart).2 }

structure Nested.Simulates (good : Focus → Prop) (S : Focus → Focus → Prop) (A B : Nested) : Prop where
  tryRest : ∀ f g f', S f g → A.tryRest f = some f' → good f' → ∃ g', B.tryRest g = some g' ∧ S f' g'
  expand : ∀ tree f g n f', S f g → A.expand tree f = some (n, f') → good f' →
    ∃ g', B.expand tree g = some (n, g') ∧ S f' g'

section Simulation

variable {a b : Setting} {A B : Nested} {calls : Call → Prop} {good : Focus → Prop} {S : Focus → Focus → Prop}
  {f g f' : Focus}

lemma perform_simulates (ht : a.Twin b calls good S) (hs : A.Simulates good S B) {c : Call} (ho : c ≠ .options)
    (hc : calls c) (h : S f g) {r : c.Reply} (hf : c.perform a A f = some (r, f')) (hgood : good f') :
    ∃ g', c.perform b B g = some (r, g') ∧ S f' g' := by
  cases c with
  | node =>
    cases hf
    exact ⟨g, by rw [ht.node _ _ h]; rfl, h⟩
  | options => exact absurd rfl ho
  | place =>
    cases hf
    exact ⟨g, by rw [ht.place _ _ h]; rfl, h⟩
  | inherited key =>
    cases hf
    exact ⟨g, by rw [ht.inherited _ _ key h]; rfl, h⟩
  | edit change force =>
    cases hf
    exact ⟨_, rfl, ht.change _ _ _ h⟩
  | keep key value force =>
    cases hf
    exact ⟨_, rfl, ht.keep _ _ key value force h⟩
  | stop =>
    cases hf
    exact ⟨_, rfl, ht.change _ _ _ h⟩
  | tryRest =>
    obtain ⟨f'', hf'', he⟩ := Option.map_eq_some_iff.mp hf
    cases he
    obtain ⟨g', hg', hfg⟩ := hs.tryRest f g f' h hf'' hgood
    exact ⟨g', Option.map_eq_some_iff.mpr ⟨g', hg', rfl⟩, hfg⟩
  | expand tree => exact hs.expand tree f g r f' h hf hgood
  | freshId =>
    cases hf
    obtain ⟨hid, hrun⟩ := ht.issue hc f g h
    exact ⟨_, congrArg (fun id => some (id, _)) hid.symm, hrun⟩
  | log entry =>
    cases hf
    exact ⟨_, rfl, ht.write _ _ entry h⟩

variable (ht : a.Twin b calls good S) (hA : A.Within fun f g => good g → good f) (hs : A.Simulates good S B)
include ht hA hs

lemma exec_simulates {α : Type} {p : Program α} (hp : p.Indifferent calls a.options b.options) (h : S f g) {r : α}
    (hf : p.exec a A f = some (r, f')) (hgood : good f') : ∃ g', p.exec b B g = some (r, g') ∧ S f' g' := by
  induction hp generalizing f g with
  | done r =>
    cases hf
    exact ⟨g, rfl, h⟩
  | options next hnext _ ih =>
    obtain ⟨g', hg', h'⟩ := ih h hf
    refine ⟨g', ?_, h'⟩
    change (next b.options).exec b B g = _
    rw [hnext, hg']
  | call c next ho hc _ ih =>
    obtain ⟨⟨reply, f''⟩, hperform, hrest⟩ := Option.bind_eq_some_iff.mp hf
    have hgood'' : good f'' := exec_within ht.back.carried hA _ f'' f' r hrest hgood
    obtain ⟨g'', hg, h''⟩ := perform_simulates ht hs ho hc h hperform hgood''
    obtain ⟨g', hg', h'⟩ := ih reply h'' hrest
    exact ⟨g', Option.bind_eq_some_iff.mpr ⟨(reply, g''), hg, hg'⟩, h'⟩

lemma fire_simulates {id : Nat} (h : S f g) {out : Bool} (hf : fire a A id f = some (out, f')) (hgood : good f') :
    ∃ g', fire b B id g = some (out, g') ∧ S f' g' := by
  have hcount := ht.count _ _ id (ht.change _ _ (fun e => e.fire id) h)
  simp only [fire, ht.index] at hf ⊢
  cases hrule : a.index.rules[id]? with
  | none =>
    simp only [hrule] at hf
    cases hf
    refine ⟨_, ?_, hcount⟩
    simp only [Focus.mapEntity, Focus.mapRun, ht.replaced _ _ h]
  | some rule =>
    simp only [hrule] at hf
    obtain ⟨⟨ending, f''⟩, hexec, hend⟩ := Option.map_eq_some_iff.mp hf
    have hgood'' : good f'' := by
      cases ending with
      | none =>
        cases hend
        exact hgood
      | some n =>
        cases hend
        exact ht.back.replace f'' n hgood
    obtain ⟨g'', hg, h''⟩ := exec_simulates ht hA hs (ht.bodies rule (List.mem_of_getElem? hrule)) hcount hexec hgood''
    simp only [Focus.mapEntity, Focus.mapRun] at hg ⊢
    simp only [hg, Option.map_some]
    cases ending with
    | none =>
      cases hend
      exact ⟨g'', by rw [ht.replaced _ _ h''], h''⟩
    | some n =>
      cases hend
      exact ⟨g''.replace n, rfl, ht.replace _ _ n h''⟩

lemma tryRules_simulates {cs : List Candidate} (h : S f g) {ended : Option Fate}
    (hf : tryRules a A cs f = some (ended, f')) (hgood : good f') :
    ∃ g', tryRules b B cs g = some (ended, g') ∧ S f' g' := by
  induction cs generalizing f g with
  | nil =>
    cases hf
    exact ⟨g, rfl, h⟩
  | cons c cs ih =>
    simp only [tryRules, ← ht.node _ _ h] at hf ⊢
    split at hf
    · rename_i hc
      rw [if_pos hc]
      obtain ⟨⟨out, f''⟩, hfire, hrest⟩ := Option.bind_eq_some_iff.mp hf
      cases out with
      | true =>
        cases hrest
        obtain ⟨g'', hg, h''⟩ := fire_simulates ht hA hs h hfire hgood
        exact ⟨g'', by rw [hg]; rfl, h''⟩
      | false =>
        simp only at hrest
        split at hrest
        · rename_i ho
          have hgood'' : good f'' := tryRules_within ht.back hA cs f'' f' ended hrest hgood
          obtain ⟨g'', hg, h''⟩ := fire_simulates ht hA hs h hfire hgood''
          have hopen : g''.isOpen = true := by rw [Focus.isOpen, ← ht.node _ _ h'', ← Focus.isOpen, ho]
          rw [hg, Option.bind_some]
          simp only [hopen, if_true]
          exact ih h'' hrest
        · rename_i ho
          cases hrest
          obtain ⟨g'', hg, h''⟩ := fire_simulates ht hA hs h hfire hgood
          have hopen : ¬g''.isOpen = true := by rwa [Focus.isOpen, ← ht.node _ _ h'', ← Focus.isOpen]
          rw [hg, Option.bind_some]
          simp only [hopen]
          exact ⟨g'', rfl, h''⟩
    · rename_i hc
      rw [if_neg hc]
      exact ih h hf

lemma tryAll_simulates (h : S f g) {fate : Fate} (hf : tryAll a A f = some (fate, f')) (hgood : good f') :
    ∃ g', tryAll b B g = some (fate, g') ∧ S f' g' := by
  obtain ⟨⟨ended, f''⟩, hfirst, hrest⟩ := Option.bind_eq_some_iff.mp hf
  rw [tryAll, ht.index]
  cases ended with
  | some fate' =>
    cases hrest
    obtain ⟨g'', hg, h''⟩ := tryRules_simulates ht hA hs h hfirst hgood
    exact ⟨g'', by rw [hg]; rfl, h''⟩
  | none =>
    simp only at hrest
    split at hrest
    · rename_i he
      cases hrest
      obtain ⟨g'', hg, h''⟩ := tryRules_simulates ht hA hs h hfirst hgood
      rw [ht.node _ _ h''] at he
      exact ⟨g'', by rw [hg, Option.bind_some]; simp only [he], h''⟩
    · rename_i e he
      obtain ⟨⟨ended', f₃⟩, hlater, hend⟩ := Option.map_eq_some_iff.mp hrest
      cases hend
      have hgood'' : good f'' := tryRules_within ht.back hA _ f'' _ ended' hlater hgood
      obtain ⟨g'', hg, h''⟩ := tryRules_simulates ht hA hs h hfirst hgood''
      obtain ⟨g', hg', h'⟩ := tryRules_simulates ht hA hs h'' hlater hgood
      rw [ht.node _ _ h''] at he
      refine ⟨g', ?_, h'⟩
      rw [hg, Option.bind_some]
      simp only [he, hg', Option.map_some]

lemma judge_simulates (h : S f g) {fate : Fate} (hf : judge a A f = some (fate, f')) (hgood : good f') :
    ∃ g', judge b B g = some (fate, g') ∧ S f' g' := by
  have hopen : g.isOpen = f.isOpen := by rw [Focus.isOpen, Focus.isOpen, ht.node _ _ h]
  simp only [judge, hopen] at hf ⊢
  split at hf
  · rename_i ho
    rw [if_pos ho]
    exact tryAll_simulates ht hA hs h hf hgood
  · rename_i ho
    cases hf
    rw [if_neg ho]
    exact ⟨g, rfl, h⟩

omit hA hs

/-- By induction on the depth of nesting, only the expansions within rules are left to be compared. -/
lemma Nested.Simulates.of_expand {N : Nat → Nested} (hzero : ∀ tree f, (N 0).tryRest f = none ∧ (N 0).expand tree f = none)
    (htry : ∀ fuel f, (N (fuel + 1)).tryRest f = (tryAll a (N fuel) f).map Prod.snd)
    (hback : ∀ fuel, (N fuel).Within fun f g => good g → good f)
    (hrest : ∀ g g' fate, tryAll b B g = some (fate, g') → B.tryRest g = some g')
    (hexpand : ∀ fuel, (N fuel).Simulates good S B → ∀ tree f g n f', S f g →
      (N (fuel + 1)).expand tree f = some (n, f') → good f' → ∃ g', B.expand tree g = some (n, g') ∧ S f' g')
    (fuel : Nat) : (N fuel).Simulates good S B := by
  induction fuel with
  | zero =>
    constructor
    · intro f g f' _ hf
      cases (hzero .null f).1.symm.trans hf
    · intro tree f g n f' _ hf
      cases (hzero tree f).2.symm.trans hf
  | succ fuel ih =>
    refine ⟨fun f g f' h hf hgood => ?_, hexpand fuel ih⟩
    rw [htry] at hf
    obtain ⟨⟨fate, f''⟩, hall, rfl⟩ := Option.map_eq_some_iff.mp hf
    obtain ⟨g', hg, h'⟩ := tryAll_simulates ht (hback fuel) ih h hall hgood
    exact ⟨g', hrest g g' fate hg, h'⟩

end Simulation

end Bemjson
