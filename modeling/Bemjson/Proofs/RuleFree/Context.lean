import Bemjson.Proofs.RuleFree.Expansion

namespace Bemjson

/-- The entities that stand in a tree, each with what is around it. -/
inductive Node.Stands : Node → Ambient → Ambient → Entity → Prop
  | here (around : Ambient) (e : Entity) : Stands (.entity e) around around e
  | item {items : List Node} {n : Node} {first around : Ambient} {e : Entity} : n ∈ items → n.Stands first around e →
      Stands (.list items) first around e
  | content {host : Entity} {c : Node} {first around : Ambient} {e : Entity} : host.content = some c →
      c.Stands ((host.adopt first).aroundContent first) around e → Stands (.entity host) first around e

section Stands

variable {first around : Ambient} {e d : Entity}

lemma Node.stands_splice (n : Node) : n.Stands first around e ↔ ∃ m ∈ n.splice [], m.Stands first around e := by
  induction n using Node.induction with
  | leaf n hn => simp [splice_of_leaf hn]
  | list items ih =>
    rw [splice_list, flatten_eq]
    constructor
    · rintro (_ | ⟨hn, hs⟩)
      obtain ⟨m, hm, hs⟩ := (ih _ hn).mp hs
      exact ⟨m, List.mem_flatMap.mpr ⟨_, hn, hm⟩, hs⟩
    · rintro ⟨m, hm, hs⟩
      obtain ⟨n, hn, hm⟩ := List.mem_flatMap.mp hm
      exact .item hn ((ih n hn).mpr ⟨m, hm, hs⟩)
  | entity e _ _ =>
    rw [splice_of_isList rfl]
    simp

lemma Node.stands_list (items : List Node) :
    (list items).Stands first around e ↔ ∃ m ∈ flatten items, m.Stands first around e := by
  rw [stands_splice, splice_list]

lemma Node.stands_entity (host : Entity) : (entity host).Stands first around e ↔
    (around = first ∧ e = host) ∨ ∃ c ∈ host.content, c.Stands ((host.adopt first).aroundContent first) around e := by
  constructor
  · rintro (_ | _ | ⟨hc, hs⟩)
    · exact .inl ⟨rfl, rfl⟩
    · exact .inr ⟨_, hc, hs⟩
  · rintro (⟨rfl, rfl⟩ | ⟨c, hc, hs⟩)
    · exact .here _ _
    · exact .content hc hs

lemma Node.at?_placed (n : Node) (first : Ambient) (d : Entity) :
    (∃ p, (n.placed true first).at? p = some (.entity d)) ↔
      ∃ around e, n.Stands first around e ∧ d = e.placed true around := by
  induction n using Node.flatInduction generalizing first with
  | leaf n hn =>
    rw [placed_of_leaf hn]
    constructor
    · rintro ⟨p, hp⟩
      obtain ⟨_, rfl⟩ := at?_of_simple hn hp
      cases hn
    · rintro ⟨around, e, hs, _⟩
      cases hs <;> cases hn
  | list items ih =>
    rw [placed_list, exists_at?_list]
    constructor
    · rintro ⟨_, hm, hp⟩
      obtain ⟨n, hn, rfl⟩ := List.mem_map.mp hm
      obtain ⟨around, e, hs, hd⟩ := (ih n hn first).mp hp
      exact ⟨around, e, (stands_list items).mpr ⟨n, hn, hs⟩, hd⟩
    · rintro ⟨around, e, hs, hd⟩
      obtain ⟨n, hn, hs⟩ := (stands_list items).mp hs
      exact ⟨_, List.mem_map_of_mem hn, (ih n hn first).mpr ⟨around, e, hs, hd⟩⟩
  | entity host hcontent =>
    have hc : (host.placed true first).content =
        host.content.map (placed true ((host.adopt first).aroundContent first)) := by rw [Entity.placed_deep]
    rw [placed, exists_at?_entity, hc]
    constructor
    · rintro (hd | ⟨_, hm, hp⟩)
      · exact ⟨first, host, .here first host, hd⟩
      · obtain ⟨c, hc, rfl⟩ := Option.map_eq_some_iff.mp hm
        obtain ⟨around, e, hs, hd⟩ := (hcontent c hc _).mp hp
        exact ⟨around, e, .content hc hs, hd⟩
    · rintro ⟨around, e, hs, hd⟩
      rcases (stands_entity host).mp hs with ⟨rfl, rfl⟩ | ⟨c, hc, hs⟩
      · exact .inl hd
      · exact .inr ⟨_, Option.map_eq_some_iff.mpr ⟨c, hc, rfl⟩, (hcontent c hc _).mpr ⟨around, e, hs, hd⟩⟩

end Stands

section Modifiers

variable {first around : Ambient} {e : Entity}

namespace Entity

/-- The block modifiers that an entity gives itself: those of an element without element modifiers are no block
modifiers. -/
def givenMods (e : Entity) : Option (Assoc Json) := if e.elem.isSome && e.elemMods.isNone then none else e.mods

structure Foreign (e : Entity) (around : Ambient) : Prop where
  elem : e.elem.isSome
  block : e.block.isSome
  other : e.block ≠ around.block
  given : e.givenMods = none

lemma block_placed (e : Entity) (around : Ambient) : (e.placed true around).block = (e.adopt around).block := by
  rw [placed_deep]

lemma mods_placed (e : Entity) (around : Ambient) : (e.placed true around).mods = (e.adopt around).mods := by
  rw [placed_deep]

lemma mods_adopt_of_elem (h : e.elem.isSome) : (e.adopt around).mods = e.givenMods.or around.mods := by
  cases hm : e.elemMods <;> simp [adopt, givenMods, h, hm]

lemma mods_adopt_of_plain (h : e.elem.isSome = false) : (e.adopt around).mods.getD [] = e.givenMods.getD [] := by
  cases hb : e.block <;> simp [adopt, givenMods, h, hb]

end Entity

lemma holds_congr {mods other : Option (Assoc Json)} (h : mods.getD [] = other.getD []) (c : Condition) :
    c.holds mods = c.holds other := by
  rw [Condition.holds, Condition.holds, h]

lemma not_holds_nil {mods : Option (Assoc Json)} (h : mods.getD [] = []) (c : Condition) : c.holds mods = false := by
  rw [Condition.holds, h]
  cases c.value <;> rfl

variable {given : Option String → Condition → Prop}

def Ambient.Backed (given : Option String → Condition → Prop) (around : Ambient) : Prop :=
  ∀ c : Condition, c.holds around.mods = true → given around.block c

lemma backed_adopt (hgiven : ∀ c : Condition, c.holds e.givenMods = true → given (e.adopt around).block c)
    (hforeign : e.Foreign around → around.mods.getD [] = []) (ha : around.Backed given) :
    Ambient.Backed given ⟨(e.adopt around).block, (e.adopt around).mods⟩ := by
  intro c hc
  change c.holds (e.adopt around).mods = true at hc
  change given (e.adopt around).block c
  cases helem : e.elem.isSome with
  | false =>
    rw [holds_congr (Entity.mods_adopt_of_plain helem)] at hc
    exact hgiven c hc
  | true =>
    rw [Entity.mods_adopt_of_elem helem] at hc
    cases hm : e.givenMods with
    | some mods =>
      rw [hm] at hc
      exact hgiven c (by rw [hm]; exact hc)
    | none =>
      rw [hm, Option.none_or] at hc
      -- What is not given here comes from around, so it must not be that of another block.
      by_cases hother : e.block.isSome = true ∧ e.block ≠ around.block
      · have hempty := hforeign ⟨helem, hother.1, hother.2, hm⟩
        rw [not_holds_nil hempty] at hc
        cases hc
      · have hblock : (e.adopt around).block = around.block := by
          rw [Entity.block_adopt_of_elem helem]
          cases hb : e.block with
          | none => rfl
          | some b =>
            rw [hb] at hother
            simpa using hother
        rw [hblock]
        exact ha c hc

lemma Node.Stands.backed {n : Node} (h : n.Stands first around e)
    (hgiven : ∀ around e, n.Stands first around e → ∀ c : Condition, c.holds e.givenMods = true →
      given (e.adopt around).block c)
    (hforeign : ∀ around e, n.Stands first around e → e.Foreign around → around.mods.getD [] = [])
    (hfirst : first.Backed given) : around.Backed given := by
  induction h with
  | here => exact hfirst
  | item hn _ ih =>
    exact ih (fun a d hd => hgiven a d (.item hn hd)) (fun a d hd => hforeign a d (.item hn hd)) hfirst
  | content hc _ ih =>
    rename_i host c first around e _
    refine ih (fun a d hd => hgiven a d (.content hc hd)) (fun a d hd => hforeign a d (.content hc hd)) ?_
    unfold Entity.aroundContent
    split
    · exact backed_adopt (hgiven _ _ (.here first host)) (hforeign _ _ (.here first host)) hfirst
    · exact hfirst

end Modifiers

/-- Where no rule applies, an element of another block that gives itself no block modifiers comes to have those of the
block around it, if that one has any. Only where no such element stands below a block with modifiers, no condition on
block modifiers holds on an entity but on what an entity of the same block gives itself. -/
theorem Engine.mods_of_expand (engine : Engine) (hsound : engine.Sound) (hrules : engine.rules = []) (tree : Node)
    (block : Option String) (journal : Journal) (fuel : Nat) (s : State) (n : Node)
    (h : engine.expand fuel tree block true journal = some s) (hn : s.result = .ok n) :
    (∀ d, (∃ p, n.at? p = some (.entity d)) ↔
      ∃ around e, tree.Stands { block } around e ∧ d = e.placed true around) ∧
    (∀ around e, tree.Stands { block } around e → e.Foreign around → (e.placed true around).mods = around.mods) ∧
    ((∀ around e, tree.Stands { block } around e → e.Foreign around → around.mods.getD [] = []) →
      ∀ around e, tree.Stands { block } around e → ∀ c : Condition, c.holds (e.placed true around).mods = true →
        ∃ around' e', tree.Stands { block } around' e' ∧
          (e'.placed true around').block = (e.placed true around).block ∧ c.holds e'.givenMods = true) := by
  have hroot : n = tree.placed true { block } := ok_of_expand (hsound.index_of_rules hrules) h hn
  refine ⟨fun d => ?_, fun around e _ hf => ?_, fun hforeign around e hs c hc => ?_⟩
  · rw [hroot]
    exact tree.at?_placed { block } d
  · rw [Entity.mods_placed, Entity.mods_adopt_of_elem hf.elem, hf.given, Option.none_or]
  · let given (b : Option String) (c : Condition) : Prop := ∃ around' e', tree.Stands { block } around' e' ∧
      (e'.placed true around').block = b ∧ c.holds e'.givenMods = true
    have hgiven : ∀ around e, tree.Stands { block } around e → ∀ c : Condition, c.holds e.givenMods = true →
        given (e.adopt around).block c := fun around e hs c hc => ⟨around, e, hs, e.block_placed around, hc⟩
    have hfirst : Ambient.Backed given { block } := fun c hc => by
      rw [not_holds_nil rfl] at hc
      cases hc
    rw [Entity.mods_placed] at hc
    rw [Entity.block_placed]
    exact backed_adopt (hgiven around e hs) (hforeign around e hs) (hs.backed hgiven hforeign hfirst) c hc

def lodging : Node := .entity
  { block := some "a"
    mods := some [("m", .string "x")]
    content := some (.entity { block := some "b", elem := some "e" }) }

theorem mods_of_expand_lodging : ∃ s n d, Engine.expand {} 5 lodging none true {} = some s ∧ s.result = .ok n ∧
    (∃ p, n.at? p = some (.entity d)) ∧ d.block = some "b" ∧ d.mods = some [("m", .string "x")] := by
  obtain ⟨s, hs, he⟩ : ∃ s, Engine.expand {} 5 lodging none true {} = some s ∧ s.run.error = none := ⟨_, rfl, rfl⟩
  have hn := State.result_eq_ok.mpr ⟨he, rfl⟩
  obtain ⟨hentities, hmods, _⟩ := Engine.mods_of_expand {} (.of_unbuilt rfl) rfl lodging none {} 5 s s.root hs hn
  have hstands : lodging.Stands { block := none } ⟨some "a", some [("m", .string "x")]⟩
      { block := some "b", elem := some "e" } := .content rfl (.here _ _)
  exact ⟨s, s.root, _, hs, hn, (hentities _).mpr ⟨_, _, hstands, rfl⟩, rfl,
    hmods _ _ hstands ⟨rfl, rfl, by decide, rfl⟩⟩

/-- The modifier of `a` is found on the element of `b`, and a rule for such elements of `b` is run on it. -/
theorem lodging_leaks :
    (Engine.expand {} 5 lodging none true {}).map (fun s =>
      (s.root.at? [.content]).bind fun n => n.entity?.map fun e => (e.block, e.elem, e.mods)) =
        some (some (some "b", some "e", some [("m", .string "x")])) ∧
    (Engine.expand { rules := [⟨.selector { block := ⟨"b", some ⟨"m", .exact "x"⟩⟩, elem := some ⟨"e", none⟩ },
      .done none⟩] } 5 lodging none true {}).map (fun s => s.run.fired) = some [1] := ⟨rfl, rfl⟩

end Bemjson
