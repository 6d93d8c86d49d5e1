import Bemjson.Proofs.RoundTrip.Rows
import Bemjson.Rule.Program

/-! Bodies of rules that write only what comes from JSON and from the trees that they are given: all they hand over is
regular as long as all they are given is. -/

namespace Bemjson

inductive Node.Drawn (given : List Node) : Node → Prop
  | read (v : Json) : Drawn given (.ofJson v)
  | given {n : Node} : n ∈ given → Drawn given n
  | list {items : List Node} : (∀ n ∈ items, Drawn given n) → Drawn given (.list items)
  | part {n m : Node} {p : Path} : Drawn given n → n.at? p = some m → Drawn given m
  | mixed {e m : Entity} {ms : List Entity} : Drawn given (.entity e) → e.mix = some ms → m ∈ ms → Drawn given (.entity m)
  | written {e : Entity} {n : Node} (name : String) (v : Json) : Drawn given (.entity e) → Drawn given n →
      Drawn given (.entity (e.write (.ofName name) v n))

def Call.handed : Call → List Node
  | .edit (.content n) _ | .edit (.mix n) _ | .expand n => [n]
  | _ => []

def Call.answered : (c : Call) → c.Reply → List Node
  | .node, n | .expand _, n => [n]
  | _, _ => []

def Call.forcesNull : Call → Bool
  | .edit (.js .null) force => force
  | _ => false

/-- A body that hands over no nodes but those drawn from JSON and from the answers so far; with `nulls`, it may force
behavior to be null. -/
inductive Program.Draws (nulls : Prop) : List Node → Body → Prop
  | keep {given : List Node} : Draws nulls given (.done none)
  | replace {given : List Node} {n : Node} : n.Drawn given → Draws nulls given (.done (some n))
  | call {given : List Node} {c : Call} {next : c.Reply → Body} : (∀ n ∈ c.handed, n.Drawn given) →
      (c.forcesNull = true → nulls) → (∀ reply, Draws nulls (c.answered reply ++ given) (next reply)) →
      Draws nulls given (.call c next)

variable {nulls : Prop}

lemma Node.Drawn.regular {given : List Node} {n : Node} (h : n.Drawn given) (hg : ∀ g ∈ given, g.Regular nulls) :
    n.Regular nulls := by
  induction h with
  | read v => exact Node.regular_ofJson nulls v
  | given hn => exact hg _ hn
  | list _ ih => exact Node.all_list.mpr ih
  | part _ hp ih => exact Node.All.at? ih hp
  | mixed _ hms hm ih => exact (Entity.all_iff.mp ih).2.2 _ hms _ hm
  | written name v _ _ ihe ihn => exact Entity.all_write (fun e name v n h => h.write name v n) ihe ihn

section Edits

lemma Entity.All.of_same {P : Entity → Prop} {e d : Entity} (h : e.All P) (hP : P d) (hc : d.content = e.content)
    (hm : d.mix = e.mix) : d.All P := by
  obtain ⟨_, hcontent, hmix⟩ := Entity.all_iff.mp h
  refine Entity.all_iff.mpr ⟨hP, ?_, ?_⟩
  · rwa [hc]
  · rwa [hm]

lemma Entity.regular_setOwnMods {e : Entity} (h : e.All (Entity.Regular nulls)) (mods : Assoc Json) :
    (e.setOwnMods mods).All (Entity.Regular nulls) := by
  have he := (Entity.all_iff.mp h).1
  unfold Entity.setOwnMods
  split
  · exact h.of_same ⟨he.block, he.elem, he.keys, he.names, he.js, he.hook⟩ rfl rfl
  · exact h.of_same ⟨he.block, he.elem, he.keys, he.names, he.js, he.hook⟩ rfl rfl

lemma Entity.mergeJs_null {force : Bool} {old : Option Json} {value : Json}
    (h : Entity.mergeJs force old value = some .null) : old = some .null ∨ force = true ∧ value = .null := by
  unfold Entity.mergeJs at h
  split at h
  · rename_i hforce
    refine Or.inr ⟨hforce, ?_⟩
    split at h
    · cases h
    · exact Option.some.inj h
  · split at h
    · cases h
    · exact Or.inl h

lemma Entity.regular_edit {e : Entity} {force : Bool} {change : Edit} (h : e.All (Entity.Regular nulls))
    (hn : ∀ n ∈ (Call.edit change force).handed, n.Regular nulls)
    (hnull : (Call.edit change force).forcesNull = true → nulls) : (e.edit force change).All (Entity.Regular nulls) := by
  obtain ⟨he, hc, hm⟩ := Entity.all_iff.mp h
  cases change with
  | content n =>
    refine Entity.all_iff.mpr ⟨⟨he.block, he.elem, he.keys, he.names, he.js, he.hook⟩, ?_, hm⟩
    intro c hc'
    simp only [Entity.edit, fill] at hc'
    split at hc'
    · cases hc'
      exact hn n List.mem_cons_self
    · exact hc c hc'
  | mix n =>
    have hmixes : ∀ m ∈ n.mixes, m.All (Entity.Regular nulls) := (hn n List.mem_cons_self).mixes
    simp only [Entity.edit]
    split
    · rename_i ms hms
      refine Entity.all_iff.mpr ⟨⟨he.block, he.elem, he.keys, he.names, he.js, he.hook⟩, hc, ?_⟩
      rintro _ ⟨⟩ m hm'
      exact (List.mem_append.mp hm').elim (hm ms hms m) (hmixes m)
    · refine Entity.all_iff.mpr ⟨⟨he.block, he.elem, he.keys, he.names, he.js, he.hook⟩, hc, ?_⟩
      rintro _ ⟨⟩
      exact hmixes
  | mods values =>
    simp only [Entity.edit]
    split
    · exact Entity.regular_setOwnMods h _
    · exact h
  | mod name value => exact Entity.regular_setOwnMods h _
  | attrs values =>
    simp only [Entity.edit]
    split
    · exact h.of_same ⟨he.block, he.elem, he.keys, he.names, he.js, he.hook⟩ rfl rfl
    · exact h
  | js value =>
    refine h.of_same ⟨he.block, he.elem, he.keys, he.names, fun hjs => ?_, he.hook⟩ rfl rfl
    rcases Entity.mergeJs_null hjs with hold | ⟨rfl, rfl⟩
    · exact he.js hold
    · exact hnull rfl
  | param key value =>
    simp only [Entity.edit]
    split
    · exact Entity.all_write (fun e name v n h => h.write name v n) h (Node.regular_ofJson nulls value)
    · exact h
  | _ => exact h.of_same ⟨he.block, he.elem, he.keys, he.names, he.js, he.hook⟩ rfl rfl

end Edits

end Bemjson
