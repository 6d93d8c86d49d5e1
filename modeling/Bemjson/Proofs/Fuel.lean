import Bemjson.Expansion.Walk
import Mathlib.Tactic.Lemma

/-! An answer stays the same with more fuel, so calls that run rules have a meaning that no fuel bounds. -/

namespace Bemjson

section Limit

variable {α : Type}

open scoped Classical in
noncomputable def limit (x : Nat → Option α) : Option α :=
  if h : ∃ n, (x n).isSome then x h.choose else none

lemma limit_eq_some {x : Nat → Option α} (hx : ∀ m n a, m ≤ n → x m = some a → x n = some a) (a : α) :
    limit x = some a ↔ ∃ n, x n = some a := by
  constructor
  · intro h
    by_cases hn : ∃ n, (x n).isSome
    · rw [limit, dif_pos hn] at h
      exact ⟨_, h⟩
    · rw [limit, dif_neg hn] at h
      cases h
  · rintro ⟨n, h⟩
    have hn : ∃ n, (x n).isSome := ⟨n, by rw [h]; rfl⟩
    obtain ⟨b, hb⟩ := Option.isSome_iff_exists.mp hn.choose_spec
    have he : some b = some a :=
      (hx _ _ b (Nat.le_max_left _ n) hb).symm.trans (hx _ _ a (Nat.le_max_right hn.choose n) h)
    rw [limit, dif_pos hn, hb, he]

end Limit

namespace Nested

structure Le (a b : Nested) : Prop where
  tryRest : ∀ f g, a.tryRest f = some g → b.tryRest f = some g
  expand : ∀ tree f r, a.expand tree f = some r → b.expand tree f = some r

def Rising (N : Nat → Nested) : Prop := ∀ m n, m ≤ n → (N m).Le (N n)

noncomputable def sup (N : Nat → Nested) : Nested where
  tryRest f := limit fun n => (N n).tryRest f
  expand tree f := limit fun n => (N n).expand tree f

lemma tryRest_sup {N : Nat → Nested} (hN : Rising N) (f g : Focus) :
    (sup N).tryRest f = some g ↔ ∃ n, (N n).tryRest f = some g :=
  limit_eq_some (fun m n a hmn h => (hN m n hmn).tryRest f a h) g

lemma expand_sup {N : Nat → Nested} (hN : Rising N) (tree : Node) (f : Focus) (r : Node × Focus) :
    (sup N).expand tree f = some r ↔ ∃ n, (N n).expand tree f = some r :=
  limit_eq_some (fun m n a hmn h => (hN m n hmn).expand tree f a h) r

lemma le_sup {N : Nat → Nested} (hN : Rising N) (n : Nat) : (N n).Le (sup N) where
  tryRest f g h := (tryRest_sup hN f g).mpr ⟨n, h⟩
  expand tree f r h := (expand_sup hN tree f r).mpr ⟨n, h⟩

structure Finitary {α : Type} (x : Nested → Option α) : Prop where
  mono : ∀ a b r, a.Le b → x a = some r → x b = some r
  reached : ∀ N r, Rising N → x (sup N) = some r → ∃ n, x (N n) = some r

namespace Finitary

variable {α β : Type}

lemma const (o : Option α) : Finitary fun _ => o where
  mono _ _ _ _ h := h
  reached _ _ _ h := ⟨0, h⟩

lemma bind {x : Nested → Option α} {k : α → Nested → Option β} (hx : Finitary x) (hk : ∀ a, Finitary (k a)) :
    Finitary fun n => (x n).bind fun a => k a n where
  mono a b r hab h := by
    obtain ⟨v, hv, hr⟩ := Option.bind_eq_some_iff.mp h
    exact Option.bind_eq_some_iff.mpr ⟨v, hx.mono a b v hab hv, (hk v).mono a b r hab hr⟩
  reached N r hN h := by
    obtain ⟨v, hv, hr⟩ := Option.bind_eq_some_iff.mp h
    obtain ⟨m, hm⟩ := hx.reached N v hN hv
    obtain ⟨n, hn⟩ := (hk v).reached N r hN hr
    refine ⟨max m n, Option.bind_eq_some_iff.mpr ⟨v, ?_, ?_⟩⟩
    · exact hx.mono _ _ v (hN m _ (Nat.le_max_left m n)) hm
    · exact (hk v).mono _ _ r (hN n _ (Nat.le_max_right m n)) hn

lemma map {x : Nested → Option α} (hx : Finitary x) (k : α → β) : Finitary fun n => (x n).map k := by
  simpa only [Option.map_eq_bind, Function.comp_def] using hx.bind fun a => const (some (k a))

lemma exists_iff {x : Nested → Option α} (hx : Finitary x) {N : Nat → Nested} (hN : Rising N) (r : α) :
    x (sup N) = some r ↔ ∃ n, x (N n) = some r := by
  constructor
  · exact hx.reached N r hN
  · rintro ⟨n, h⟩
    exact hx.mono _ _ r (le_sup hN n) h

end Finitary

end Nested

section Rules

open Nested (Finitary)

variable (env : Setting)

lemma perform_finitary (f : Focus) (c : Call) : Finitary fun n => c.perform env n f := by
  cases c with
  | tryRest => exact Finitary.map ⟨fun _ _ r h => h.tryRest f r, fun N r hN => (Nested.tryRest_sup hN f r).mp⟩ _
  | expand tree => exact ⟨fun _ _ r h => h.expand tree f r, fun N r hN => (Nested.expand_sup hN tree f r).mp⟩
  | _ => exact Finitary.const _

lemma exec_finitary {α : Type} (p : Program α) (f : Focus) : Finitary fun n => p.exec env n f := by
  induction p generalizing f with
  | done a => exact Finitary.const _
  | call c next ih => exact (perform_finitary env f c).bind fun r => ih r.1 r.2

lemma fire_finitary (id : Nat) (f : Focus) : Finitary fun n => fire env n id f := by
  unfold fire
  cases env.index.rules[id]? with
  | none => exact Finitary.const _
  | some rule => exact (exec_finitary env rule.body _).map _

lemma tryRules_finitary (cs : List Candidate) (f : Focus) : Finitary fun n => tryRules env n cs f := by
  induction cs generalizing f with
  | nil => exact Finitary.const _
  | cons c cs ih =>
    simp only [tryRules]
    split
    · apply (fire_finitary env c.id f).bind
      rintro ⟨_ | _, g⟩
      · by_cases hg : g.isOpen
        · simpa only [hg, if_true] using ih g
        · simpa only [if_neg hg] using Finitary.const _
      · exact Finitary.const _
    · exact ih f

lemma tryAll_finitary (f : Focus) : Finitary fun n => tryAll env n f := by
  unfold tryAll
  apply (tryRules_finitary env _ f).bind
  rintro ⟨_ | fate, g⟩
  · cases hg : g.node.entity? with
    | none => simpa only [hg] using Finitary.const _
    | some e => simpa only [hg] using (tryRules_finitary env _ g).map _
  · exact Finitary.const _

lemma attend_finitary (deep : Bool) (id : Nat) (s : State) : Finitary fun n => attend env n deep id s := by
  simp only [attend, visit]
  split
  · exact Finitary.const _
  · split
    · exact Finitary.const _
    · split
      · exact Finitary.const _
      · split
        · exact Finitary.const _
        · exact (tryAll_finitary env _).map _
    · exact Finitary.const _

lemma drain_finitary (deep : Bool) (steps : Nat) (s : State) : Finitary fun n => drain env n deep steps s := by
  induction steps generalizing s with
  | zero => exact Finitary.const _
  | succ steps ih =>
    simp only [drain]
    split
    · exact Finitary.const _
    · exact Finitary.const _
    · exact (attend_finitary env deep _ _).bind fun t => ih _

lemma drain_more (nested : Nested) (deep : Bool) {m n : Nat} (hmn : m ≤ n) {s t : State}
    (h : drain env nested deep m s = some t) : drain env nested deep n s = some t := by
  induction m generalizing n s with
  | zero => cases h
  | succ m ih =>
    obtain ⟨k, rfl⟩ : ∃ k, n = k + 1 := ⟨n - 1, by omega⟩
    cases he : s.run.error with
    | some e => simpa only [drain, he] using h
    | none =>
      cases hq : s.queue with
      | nil => simpa only [drain, he, hq] using h
      | cons id queue =>
        simp only [drain, he, hq] at h ⊢
        obtain ⟨u, hu, ht⟩ := Option.bind_eq_some_iff.mp h
        exact Option.bind_eq_some_iff.mpr ⟨u, hu, ih (by omega) ht⟩

end Rules

section Unbounded

variable (env : Setting)

lemma tryRest_sup_iff {N : Nat → Nested} (hN : Nested.Rising N) (hzero : ∀ f, (N 0).tryRest f = none)
    (hsucc : ∀ n f, (N (n + 1)).tryRest f = (tryAll env (N n) f).map Prod.snd) (f g : Focus) :
    (Nested.sup N).tryRest f = some g ↔ ∃ fate, tryAll env (.sup N) f = some (fate, g) := by
  constructor
  · intro h
    obtain ⟨n, hn⟩ := (Nested.tryRest_sup hN f g).mp h
    cases n with
    | zero =>
      rw [hzero] at hn
      cases hn
    | succ n =>
      rw [hsucc] at hn
      obtain ⟨⟨fate, g'⟩, hf, rfl⟩ := Option.map_eq_some_iff.mp hn
      exact ⟨fate, ((tryAll_finitary env f).exists_iff hN _).mpr ⟨n, hf⟩⟩
  · rintro ⟨fate, h⟩
    obtain ⟨n, hn⟩ := ((tryAll_finitary env f).exists_iff hN _).mp h
    refine (Nested.tryRest_sup hN f g).mpr ⟨n + 1, ?_⟩
    rw [hsucc]
    exact Option.map_eq_some_iff.mpr ⟨_, hn, rfl⟩

lemma ofFuel_rising : Nested.Rising (.ofFuel env) := by
  intro m
  induction m with
  | zero =>
    intro n _
    exact ⟨fun f g h => (by cases h), fun tree f r h => (by cases h)⟩
  | succ m ih =>
    intro n hmn
    obtain ⟨k, rfl⟩ : ∃ k, n = k + 1 := ⟨n - 1, by omega⟩
    have hk : m ≤ k := by omega
    constructor
    · intro f g h
      exact ((tryAll_finitary env f).map _).mono _ _ g (ih k hk) h
    · intro tree f r h
      obtain ⟨s, hs, hr⟩ := Option.map_eq_some_iff.mp h
      have hm := (drain_finitary env true m _).mono _ _ s (ih k hk) hs
      exact Option.map_eq_some_iff.mpr ⟨s, drain_more env _ true hk hm, hr⟩

noncomputable def Nested.unbounded : Nested := .sup (.ofFuel env)

lemma unbounded_iff {α : Type} {x : Nested → Option α} (hx : Nested.Finitary x) (r : α) :
    x (.unbounded env) = some r ↔ ∃ fuel, x (.ofFuel env fuel) = some r :=
  hx.exists_iff (ofFuel_rising env) r

lemma ofFuel_le (fuel : Nat) : (Nested.ofFuel env fuel).Le (.unbounded env) := Nested.le_sup (ofFuel_rising env) fuel

lemma tryRest_unbounded (f g : Focus) :
    (Nested.unbounded env).tryRest f = some g ↔ ∃ fate, tryAll env (.unbounded env) f = some (fate, g) :=
  tryRest_sup_iff env (ofFuel_rising env) (fun _ => rfl) (fun _ _ => rfl) f g

def Focus.inner (env : Setting) (f : Focus) (tree : Node) : State :=
  .start env tree (f.node.entity?.bind Entity.block) f.run.visits f.run.journal

lemma drain_unbounded (deep : Bool) (s t : State) :
    (∃ steps, drain env (.unbounded env) deep steps s = some t) ↔
      ∃ fuel, drain env (.ofFuel env fuel) deep fuel s = some t := by
  constructor
  · rintro ⟨steps, h⟩
    obtain ⟨n, hn⟩ := (unbounded_iff env (drain_finitary env deep steps s) t).mp h
    have hm := (drain_finitary env deep steps s).mono _ _ t (ofFuel_rising env n _ (Nat.le_max_right steps n)) hn
    exact ⟨max steps n, drain_more env _ deep (Nat.le_max_left steps n) hm⟩
  · rintro ⟨fuel, h⟩
    exact ⟨fuel, (drain_finitary env deep fuel s).mono _ _ t (ofFuel_le env fuel) h⟩

lemma expand_unbounded (tree : Node) (f : Focus) (r : Node × Focus) :
    (Nested.unbounded env).expand tree f = some r ↔
      ∃ steps s, drain env (.unbounded env) true steps (f.inner env tree) = some s ∧ f.absorb s = r := by
  constructor
  · intro h
    obtain ⟨n, hn⟩ := (Nested.expand_sup (ofFuel_rising env) tree f r).mp h
    cases n with
    | zero => cases hn
    | succ n =>
      obtain ⟨s, hs, hr⟩ := Option.map_eq_some_iff.mp hn
      obtain ⟨steps, hd⟩ := (drain_unbounded env true _ s).mpr ⟨n, hs⟩
      exact ⟨steps, s, hd, hr⟩
  · rintro ⟨steps, s, hd, hr⟩
    obtain ⟨n, hn⟩ := (drain_unbounded env true _ s).mp ⟨steps, hd⟩
    exact (Nested.expand_sup (ofFuel_rising env) tree f r).mpr ⟨n + 1, Option.map_eq_some_iff.mpr ⟨s, hn, hr⟩⟩

end Unbounded

end Bemjson
