import Bemjson.Proofs.LoopGuard.Budget
import Bemjson.Proofs.Lockstep

/-! Loop detection changes nothing in an expansion that keeps within the limits, and ends every other one. -/

namespace Bemjson

/-- A program that goes on alike whether loops are looked for or not. -/
inductive Program.LoopBlind {α : Type} : Program α → Prop
  | done (a : α) : LoopBlind (.done a)
  | options (next : Options → Program α) : (∀ o on, next { o with detectLoops := on } = next o) →
      (∀ o, (next o).LoopBlind) → LoopBlind (.call .options next)
  | call (c : Call) (next : c.Reply → Program α) : c ≠ .options → (∀ r, (next r).LoopBlind) → LoopBlind (.call c next)

lemma Program.LoopBlind.indifferent {α : Type} {p : Program α} (h : p.LoopBlind) (o : Options) (on : Bool) :
    p.Indifferent (fun _ => True) o { o with detectLoops := on } := by
  induction h with
  | done a => exact .done a
  | options next hnext _ ih => exact .options next (hnext o on) (ih o)
  | call c next hc _ ih => exact .call c next hc trivial ih

structure Run.Modest (r : Run) : Prop where
  error : r.error = none
  calm : Calm r.trace
  visits : r.visits ≤ totalLimit

section Runs

variable {env : Setting}

lemma Run.Modest.before {r later : Run} (h : later.Modest) (hb : r.Before later) : r.Modest :=
  ⟨hb.sound h.error, h.calm.of_suffix hb.trace, Nat.le_trans hb.visits h.visits⟩

lemma Run.Modest.allowed {r : Run} {n : Nat} (h : r.Modest) (ht : r.Tallied n) (id : Nat) (e : Entity) :
    overrun env r id e = none := by
  have hslot : ¬slotLimit < (r.slots[id]?.map Slot.visits).getD 0 := by
    have hcalm := h.calm.slots id
    rw [ht.slots] at hcalm
    exact Nat.not_lt.mpr hcalm
  simp only [overrun, if_neg hslot, if_neg (Nat.not_lt.mpr h.visits), ite_self]

lemma Run.Modest.inner {f : Focus} {s : State} (h : (f.absorb s).2.run.Modest) : s.run.Modest := by
  obtain ⟨herror, hcalm, hvisits⟩ := h
  cases he : s.run.error with
  | some e =>
    rw [Focus.absorb, he] at herror
    cases herror
  | none =>
    rw [Focus.absorb, he] at hcalm hvisits
    exact ⟨he, hcalm.within List.mem_cons_self, hvisits⟩

lemma sound_of_unguarded (hloops : env.options.detectLoops = false) : Run.Invariant env fun _ r => r.error = none where
  start _ _ _ _ := rfl
  keep _ _ _ _ _ _ h := h
  issue _ _ h := h
  write _ _ _ h := h
  count _ _ _ _ h := h
  pop _ _ _ h := h
  push _ _ _ _ h := h
  visit _ _ _ _ h _ _ _ := h
  fail n r id e err _ _ _ ho := by simp [overrun, hloops] at ho
  replace _ _ _ _ h := h
  absorb n f s hf hs := by
    rw [Focus.absorb, hs]
    exact hf

lemma Run.Guarded.modest {r : Run} (h : r.Guarded 0) (he : r.error = none) : r.Modest := by
  obtain ⟨hcalm, hvisits⟩ := h.sound (Nat.zero_le _) he
  exact ⟨he, hcalm, hvisits⟩

end Runs

section Markup

variable (o : Options) (on : Bool) (custom : Entity → Option String → Option String)

mutual

lemma markupWith_detectLoops (n : Node) :
    n.markupWith { o with detectLoops := on } custom = n.markupWith o custom := by
  cases n with
  | list items => exact markupItems_detectLoops items
  | entity e => exact entityMarkup_detectLoops e
  | bool b => cases b <;> rfl
  | _ => rfl

lemma markupItems_detectLoops (items : List Node) :
    Node.markupItems { o with detectLoops := on } custom items = Node.markupItems o custom items := by
  cases items with
  | nil => rfl
  | cons n ns => rw [Node.markupItems, Node.markupItems, markupWith_detectLoops n, markupItems_detectLoops ns]

lemma entityMarkup_detectLoops (e : Entity) :
    e.markupWith { o with detectLoops := on } custom = e.markupWith o custom := by
  obtain ⟨_, _, _, _, _, _, _, content, _, _, _, _, _, _, _, _, _⟩ := e
  cases content with
  | none => rfl
  | some c =>
    rw [Entity.markupWith, Entity.markupWith, markupWith_detectLoops c]
    rfl

end

lemma markup_detectLoops (n : Node) : n.markup { o with detectLoops := on } = n.markup o := by
  have hwrite : Piece.write { o with detectLoops := on } = Piece.write o := by
    funext e content p
    cases p with
    | plain => exact congrArg some (markupWith_detectLoops o on _ _)
    | _ => rfl
  have hhook : Hook.write { o with detectLoops := on } = Hook.write o := by
    funext e content hook
    simp only [Hook.write, hwrite]
  rw [Node.markup, Node.markup, hhook, markupWith_detectLoops]

end Markup

namespace Engine

variable (engine : Engine)

lemma inStep_detectLoops (hblind : ∀ rule ∈ engine.index.rules, rule.body.LoopBlind) (on off : Bool) :
    (engine.detectLoops on).setting.InStep (engine.detectLoops off).setting id (fun _ => True) Run.Modest where
  index := rfl
  bodies rule hr := (hblind rule hr).indifferent (engine.detectLoops on).options off
  write _ _ := rfl
  issue _ := ⟨rfl, fun _ => rfl⟩
  back r later hb h := h.before hb
  inner f s h := h.inner
  guard n r id e ht h hfail := by
    rw [h.allowed ht, h.allowed ht]

lemma report_detectLoops (on : Bool) (s : State) : (engine.detectLoops on).report s = engine.report s := by
  have hmarkup : (engine.detectLoops on).markup = engine.markup := funext (markup_detectLoops engine.options on)
  rw [report, report, hmarkup]
  rfl

/-- An expansion with loop detection that comes to a tree is the one that comes about without it, and keeps within the
limits there. Without loop detection, an expansion that keeps within them is the one that comes about with it. -/
theorem detectLoops_transparent (hblind : ∀ rule ∈ engine.index.rules, rule.body.LoopBlind) (tree : Node)
    (block : Option String) (deep : Bool) (journal : Journal) (s : State) :
    ((∃ fuel, (engine.detectLoops true).expand fuel tree block deep journal = some s) ∧
        (∃ report, (engine.detectLoops true).report s = .ok report) ↔
      (∃ fuel, (engine.detectLoops false).expand fuel tree block deep journal = some s) ∧
        Calm s.run.trace ∧ s.run.visits ≤ totalLimit) ∧
    (engine.detectLoops true).report s = (engine.detectLoops false).report s := by
  have hreport : (∃ report, (engine.detectLoops true).report s = .ok report) ↔ s.run.error = none := by
    cases he : s.run.error with
    | none => simp [report, State.result, he, Except.map]
    | some err => simp [report, State.result, he, Except.map]
  refine ⟨?_, by rw [report_detectLoops, report_detectLoops]⟩
  rw [hreport]
  constructor
  · rintro ⟨⟨fuel, hs⟩, he⟩
    have hmodest : s.run.Modest := (Run.Guarded.invariant (by rfl) |>.expand hs).modest he
    exact ⟨(engine.inStep_detectLoops hblind true false).expand_rejournal hs hmodest, hmodest.calm, hmodest.visits⟩
  · rintro ⟨⟨fuel, hs⟩, hcalm, hvisits⟩
    have he : s.run.error = none := (sound_of_unguarded (by rfl)).expand hs
    exact ⟨(engine.inStep_detectLoops hblind false true).expand_rejournal hs ⟨he, hcalm, hvisits⟩, he⟩

end Engine

def filling : Engine where
  rules := [⟨.selector { block := { name := "a", cond := none }, elem := none },
      .call (.expand (.entity { block := some "b" })) fun reply =>
        .call (.edit (.content reply) true) fun _ => .done none⟩,
    ⟨.selector { block := { name := "b", cond := none }, elem := none }, .done (some (.text "c"))⟩]

theorem filling_detectLoops : ∃ s, s.run.visits = 2 ∧
    (∃ fuel, (filling.detectLoops true).expand fuel (.entity { block := some "a" }) none true {} = some s) ∧
    (∃ fuel, (filling.detectLoops false).expand fuel (.entity { block := some "a" }) none true {} = some s) ∧
    Calm s.run.trace ∧ (filling.detectLoops true).report s = (filling.detectLoops false).report s := by
  have hblind : ∀ rule ∈ filling.index.rules, rule.body.LoopBlind := by
    intro rule hr
    rcases List.mem_cons.mp hr with rfl | hr
    · exact .call _ _ nofun fun _ => .call _ _ nofun fun _ => .done none
    · obtain rfl := List.mem_singleton.mp hr
      exact .done _
  have hon : ((filling.detectLoops true).expand 4 (.entity { block := some "a" }) none true {}).map
      (fun s => (s.run.error, s.run.visits)) = some (none, 2) := by decide +kernel
  obtain ⟨s, hs, he⟩ := Option.map_eq_some_iff.mp hon
  have herror : s.run.error = none := congrArg Prod.fst he
  obtain ⟨hiff, hreport⟩ := filling.detectLoops_transparent hblind (.entity { block := some "a" }) none true {} s
  obtain ⟨hoff, hcalm, _⟩ := hiff.mp ⟨⟨4, hs⟩, by simp [Engine.report, State.result, herror, Except.map]⟩
  exact ⟨s, congrArg Prod.snd he, ⟨4, hs⟩, hoff, hcalm, hreport⟩

end Bemjson
