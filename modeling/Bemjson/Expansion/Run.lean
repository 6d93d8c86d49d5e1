import Bemjson.Expansion.Path

/-! The state of one expansion that rules can see and change, and the trace that it leaves. -/

namespace Bemjson

structure Ambient where
  block : Option String := none
  mods : Option (Assoc Json) := none

namespace Entity

/-- An element without a block belongs to the one around it. The modifiers that it is written with are its own,
unless it has such already, and those of its block come from around it. A block has modifiers, if only none. -/
def adopt (e : Entity) (around : Ambient) : Entity :=
  if e.elem.isSome then
    let own := e.elemMods.getD (e.mods.getD [])
    let mods := if e.elemMods.isSome then e.mods else none
    { e with block := e.block.or around.block, elemMods := some own, mods := mods.or around.mods }
  else if e.block.isSome then { e with mods := some (e.mods.getD []) }
  else e

theorem fired_adopt (e : Entity) (around : Ambient) : (e.adopt around).fired = e.fired := by
  unfold adopt
  split
  · rfl
  · split <;> rfl

theorem stopped_adopt (e : Entity) (around : Ambient) : (e.adopt around).stopped = e.stopped := by
  unfold adopt
  split
  · rfl
  · split <;> rfl

def aroundContent (e : Entity) (around : Ambient) : Ambient :=
  if e.elem.isSome || e.block.isSome then ⟨e.block, e.mods⟩ else around

end Entity

/-- A place of the tree that is to be visited. It outlives the node that stands there. -/
structure Slot where
  path : Path := []
  parent : Option Nat := none
  around : Ambient := {}
  position : Option Nat := none
  siblings : Nat := 0
  visits : Nat := 0
  kept : Assoc Json := []

inductive LoopError where
  | slot (path : String) (visits : Nat)
  | total (path : String) (visits : Nat)
  deriving DecidableEq

def LoopError.message : LoopError → String
  | slot path n => "Infinite json loop detected at \"" ++ path ++ "\" (" ++ Nat.repr n ++ " visits)."
  | total path n => "Infinite matcher loop detected at \"" ++ path ++ "\" (" ++ Nat.repr n ++ " dispatches)."

inductive Event where
  | popped (slot : Nat)
  | visited (slot : Nat)
  | fired (rule slot : Nat)
  | replaced (slot : Nat)
  | failed (e : LoopError)
  | inner (events : List Event)

structure Journal where
  issued : Nat := 0
  log : List Json := []

structure Run where
  slots : List Slot := []
  fired : List Nat := []
  visits : Nat := 0
  replacements : Nat := 0
  error : Option LoopError := none
  trace : List Event := []
  journal : Journal := {}

namespace Run

def note (r : Run) (e : Event) : Run := { r with trace := e :: r.trace }

def modifySlot (r : Run) (id : Nat) (f : Slot → Slot) : Run := { r with slots := r.slots.modify id f }

def fail (r : Run) (e : LoopError) : Run := { r.note (.failed e) with error := some (r.error.getD e) }

def countVisit (r : Run) (id : Nat) : Run :=
  let r := (r.note (.visited id)).modifySlot id fun s => { s with visits := s.visits + 1 }
  { r with visits := r.visits + 1 }

def countFire (r : Run) (rule id : Nat) : Run :=
  { r.note (.fired rule id) with fired := r.fired.modify rule (· + 1) }

def countReplacement (r : Run) (id : Nat) (around : Ambient) : Run :=
  let r := (r.note (.replaced id)).modifySlot id fun s => { s with around }
  { r with replacements := r.replacements + 1 }

def lookup (r : Run) (key : String) : Nat → Nat → Option Json
  | 0, _ => none
  | steps + 1, id =>
    r.slots[id]?.bind fun s => (s.kept.get? key).or (s.parent.bind (r.lookup key steps))

def inherited (r : Run) (id : Nat) (key : String) : Option Json := r.lookup key r.slots.length id

def keep (r : Run) (id : Nat) (key : String) (value : Json) (force : Bool) : Run :=
  r.modifySlot id fun s => { s with kept := s.kept.put force key value }

def issueId (r : Run) (start : String) : String × Run :=
  let n := r.journal.issued + 1
  (start ++ Nat.repr n, { r with journal := { r.journal with issued := n } })

def write (r : Run) (entry : Json) : Run :=
  { r with journal := { r.journal with log := entry :: r.journal.log } }

end Run

def itemSlots (parent : Nat) (path : Path) (around : Ambient) (items : List Node) : List Slot :=
  let places := (items.zipIdx.filter fun p => p.1.isStructured).map Prod.snd
  places.zipIdx.map fun (place, before) =>
    { path := path ++ [.item place], parent := some parent, around, position := some (before + 1),
      siblings := places.length }

end Bemjson
