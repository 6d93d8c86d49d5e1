import Bemjson.Proofs.Runs

/-! Expanding a tree by plain recursion: all that is below a node is done before what follows the node. -/

namespace Bemjson

/-- What there is to know of a node besides the node: what is around it, its place in its list, and the params that
were kept for it and for the nodes above it, the nearest first. -/
structure Spot where
  around : Ambient := {}
  position : Option Nat := none
  siblings : Nat := 0
  kept : Assoc Json := []
  above : List (Assoc Json) := []

namespace Spot

def last : Nat → Option Nat
  | 0 => none
  | n + 1 => some n

def line : List (Assoc Json) → List Slot
  | [] => []
  | kept :: above => line above ++ [{ parent := last above.length, kept }]

def slot (spot : Spot) : Slot where
  parent := last spot.above.length
  around := spot.around
  position := spot.position
  siblings := spot.siblings
  kept := spot.kept

def focus (spot : Spot) (e : Entity) : Focus :=
  { node := .entity e, slot := spot.above.length, run := { slots := line spot.above ++ [spot.slot] } }

def keeping (spot : Spot) (f : Focus) (around : Ambient) : Spot :=
  { spot with around, kept := (f.run.slots[f.slot]?.map Slot.kept).getD [] }

def below (spot : Spot) (around : Ambient) : Spot := { around, above := spot.kept :: spot.above }

end Spot

section Recursion

variable (expand : Spot → Node → Option Node)

def expandItems (spot : Spot) (siblings : Nat) : Nat → List Node → Option (List Node)
  | _, [] => some []
  | position, n :: ns =>
    if n.isStructured then
      (expand { spot with position := some position, siblings } n).bind fun n =>
        (expandItems spot siblings (position + 1) ns).map fun ns => n :: ns
    else (expandItems spot siblings position ns).map fun ns => n :: ns

def expandList (spot : Spot) (items : List Node) : Option (List Node) :=
  expandItems expand spot ((Node.flatten items).countP Node.isStructured) 1 (Node.flatten items)

def expandContent (spot : Spot) : Node → Option Node
  | .list items => (expandList expand spot items).map .list
  | .entity e => expand spot (.entity e)
  | n => some n

end Recursion

section Expansion

variable (env : Setting)

def expandNode (nested : Nested) (deep : Bool) : Nat → Spot → Node → Option Node
  | 0, _, _ => none
  | fuel + 1, spot, n =>
    match n with
    | .list items => (expandList (expandNode nested deep fuel) (spot.below spot.around) items).map .list
    | .entity e =>
      let e := e.adopt spot.around
      let around := e.aroundContent spot.around
      (judge env nested (spot.focus e)).bind fun (fate, f) =>
        let spot := spot.keeping f around
        match fate, f.node, deep with
        | .replaced, n, _ => expandNode nested deep fuel spot n
        | .kept, .entity e, true =>
          match e.content with
          | none => some (.entity e)
          | some c =>
            (expandContent (expandNode nested deep fuel) (spot.below (e.aroundContent around)) c).map fun c =>
              .entity { e with content := some c }
        | .kept, n, _ => some n
    | n => some n

def Nested.depthFirst : Nat → Nested
  | 0 => { tryRest := fun _ => none, expand := fun _ _ => none }
  | fuel + 1 =>
    { tryRest := fun f => (tryAll env (depthFirst fuel) f).map Prod.snd
      expand := fun tree f =>
        let block := f.node.entity?.bind Entity.block
        (expandNode env (depthFirst fuel) true fuel { around := { block } } tree).map fun n => (n, f) }

def expandDepthFirst (fuel : Nat) (deep : Bool) (tree : Node) (block : Option String) : Option Node :=
  expandNode env (.depthFirst env fuel) deep fuel { around := { block } } tree

end Expansion

section Fuel

open Nested (Finitary)

variable (env : Setting)

lemma judge_finitary (f : Focus) : Finitary fun n => judge env n f := by
  unfold judge
  split
  · exact tryAll_finitary env f
  · exact Finitary.const _

lemma expandItems_finitary {expand : Nested → Spot → Node → Option Node}
    (he : ∀ spot n, Finitary fun nested => expand nested spot n) (spot : Spot) (siblings position : Nat)
    (items : List Node) : Finitary fun nested => expandItems (expand nested) spot siblings position items := by
  induction items generalizing position with
  | nil => exact Finitary.const _
  | cons n ns ih =>
    simp only [expandItems]
    split
    · exact (he _ n).bind fun n => (ih (position + 1)).map _
    · exact (ih position).map _

lemma expandContent_finitary {expand : Nested → Spot → Node → Option Node}
    (he : ∀ spot n, Finitary fun nested => expand nested spot n) (spot : Spot) (n : Node) :
    Finitary fun nested => expandContent (expand nested) spot n := by
  cases n with
  | list items => exact (expandItems_finitary he spot _ 1 _).map _
  | entity e => exact he spot (.entity e)
  | _ => exact Finitary.const _

lemma expandNode_finitary (deep : Bool) (fuel : Nat) (spot : Spot) (n : Node) :
    Finitary fun nested => expandNode env nested deep fuel spot n := by
  induction fuel generalizing spot n with
  | zero => exact Finitary.const _
  | succ fuel ih =>
    cases n with
    | list items => exact (expandItems_finitary ih _ _ 1 _).map _
    | entity e =>
      apply (judge_finitary env _).bind
      rintro ⟨fate, f⟩
      simp only
      split
      · exact ih _ _
      · split
        · exact Finitary.const _
        · exact (expandContent_finitary ih _ _).map _
      · exact Finitary.const _
    | _ => exact Finitary.const _

def Extends (a b : Spot → Node → Option Node) : Prop := ∀ spot n m, a spot n = some m → b spot n = some m

lemma Extends.items {a b : Spot → Node → Option Node} (h : Extends a b) (spot : Spot) (siblings position : Nat)
    (items : List Node) (out : List Node) (ha : expandItems a spot siblings position items = some out) :
    expandItems b spot siblings position items = some out := by
  induction items generalizing position out with
  | nil => exact ha
  | cons n ns ih =>
    simp only [expandItems] at ha ⊢
    split at ha
    · rename_i hs
      obtain ⟨m, hm, hrest⟩ := Option.bind_eq_some_iff.mp ha
      obtain ⟨ms, hms, rfl⟩ := Option.map_eq_some_iff.mp hrest
      rw [if_pos hs, h _ n m hm, Option.bind_some, ih _ ms hms, Option.map_some]
    · rename_i hs
      obtain ⟨ms, hms, rfl⟩ := Option.map_eq_some_iff.mp ha
      rw [if_neg hs, ih _ ms hms, Option.map_some]

lemma Extends.content {a b : Spot → Node → Option Node} (h : Extends a b) (spot : Spot) (n m : Node)
    (ha : expandContent a spot n = some m) : expandContent b spot n = some m := by
  cases n with
  | list items =>
    obtain ⟨out, ho, rfl⟩ := Option.map_eq_some_iff.mp ha
    exact Option.map_eq_some_iff.mpr ⟨out, h.items _ _ _ _ out ho, rfl⟩
  | entity e => exact h _ _ m ha
  | _ => exact ha

lemma expandNode_succ_extends (nested : Nested) (deep : Bool) (fuel : Nat) :
    Extends (expandNode env nested deep fuel) (expandNode env nested deep (fuel + 1)) := by
  induction fuel with
  | zero =>
    intro spot n m h
    cases h
  | succ fuel ih =>
    intro spot n m h
    cases n with
    | list items =>
      obtain ⟨out, ho, rfl⟩ := Option.map_eq_some_iff.mp h
      exact Option.map_eq_some_iff.mpr ⟨out, ih.items _ _ _ _ out ho, rfl⟩
    | entity e =>
      obtain ⟨⟨fate, f⟩, hj, hm⟩ := Option.bind_eq_some_iff.mp h
      refine Option.bind_eq_some_iff.mpr ⟨(fate, f), hj, ?_⟩
      simp only at hm ⊢
      split at hm
      · exact ih _ _ m hm
      · split at hm
        · exact hm
        · obtain ⟨c, hc, rfl⟩ := Option.map_eq_some_iff.mp hm
          exact Option.map_eq_some_iff.mpr ⟨c, ih.content _ _ c hc, rfl⟩
      · exact hm
    | _ => exact h

lemma expandNode_more (nested : Nested) (deep : Bool) {m n : Nat} (hmn : m ≤ n) :
    Extends (expandNode env nested deep m) (expandNode env nested deep n) := by
  induction hmn with
  | refl => exact fun _ _ _ h => h
  | step _ ih => exact fun spot n m h => expandNode_succ_extends env nested deep _ spot n m (ih spot n m h)

lemma depthFirst_rising : Nested.Rising (.depthFirst env) := by
  intro m
  induction m with
  | zero =>
    intro n _
    exact ⟨fun f g h => (by cases h), fun tree f r h => (by cases h)⟩
  | succ m ih =>
    intro n hmn
    obtain ⟨k, rfl⟩ : ∃ k, n = k + 1 := ⟨n - 1, by omega⟩
    have hk : m ≤ k := by omega
    constructor
    · intro f g h
      exact ((tryAll_finitary env f).map _).mono _ _ g (ih k hk) h
    · intro tree f r h
      obtain ⟨t, ht, hr⟩ := Option.map_eq_some_iff.mp h
      have hm := (expandNode_finitary env true m _ tree).mono _ _ t (ih k hk) ht
      exact Option.map_eq_some_iff.mpr ⟨t, expandNode_more env _ true hk _ tree t hm, hr⟩

noncomputable def Nested.depthFirstLimit : Nested := .sup (.depthFirst env)

lemma depthFirstLimit_tryRest (f g : Focus) :
    (Nested.depthFirstLimit env).tryRest f = some g ↔ ∃ fate, tryAll env (.depthFirstLimit env) f = some (fate, g) :=
  tryRest_sup_iff env (depthFirst_rising env) (fun _ => rfl) (fun _ _ => rfl) f g

lemma expandNode_limit (deep : Bool) (spot : Spot) (n m : Node) :
    (∃ fuel, expandNode env (.depthFirstLimit env) deep fuel spot n = some m) ↔
      ∃ fuel, expandNode env (.depthFirst env fuel) deep fuel spot n = some m := by
  constructor
  · rintro ⟨fuel, h⟩
    obtain ⟨k, hk⟩ := ((expandNode_finitary env deep fuel spot n).exists_iff (depthFirst_rising env) m).mp h
    have hr := depthFirst_rising env k _ (Nat.le_max_right fuel k)
    have hm := (expandNode_finitary env deep fuel spot n).mono _ _ m hr hk
    exact ⟨max fuel k, expandNode_more env _ deep (Nat.le_max_left fuel k) spot n m hm⟩
  · rintro ⟨fuel, h⟩
    exact ⟨fuel, ((expandNode_finitary env deep fuel spot n).exists_iff (depthFirst_rising env) m).mpr ⟨fuel, h⟩⟩

lemma depthFirstLimit_expand (tree : Node) (f : Focus) (r : Node × Focus) :
    (Nested.depthFirstLimit env).expand tree f = some r ↔
      ∃ fuel n, expandNode env (.depthFirstLimit env) true fuel { around := { block := f.node.entity?.bind Entity.block } }
        tree = some n ∧ (n, f) = r := by
  constructor
  · intro h
    obtain ⟨n, hn⟩ := (Nested.expand_sup (depthFirst_rising env) tree f r).mp h
    cases n with
    | zero => cases hn
    | succ n =>
      obtain ⟨t, ht, hr⟩ := Option.map_eq_some_iff.mp hn
      obtain ⟨fuel, hf⟩ := (expandNode_limit env true _ tree t).mpr ⟨n, ht⟩
      exact ⟨fuel, t, hf, hr⟩
  · rintro ⟨fuel, t, hf, hr⟩
    obtain ⟨n, hn⟩ := (expandNode_limit env true _ tree t).mp ⟨fuel, hf⟩
    exact (Nested.expand_sup (depthFirst_rising env) tree f r).mpr ⟨n + 1, Option.map_eq_some_iff.mpr ⟨t, hn, hr⟩⟩

end Fuel

end Bemjson
