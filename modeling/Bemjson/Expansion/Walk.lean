import Bemjson.Expansion.Trial
import Bemjson.Node.Field

/-! Expanding a tree: slots wait in a queue, and a slot whose node has been replaced goes to its end again. -/

namespace Bemjson

structure State where
  root : Node
  queue : List Nat := []
  maxQueue : Nat := 1
  run : Run

namespace State

def push (s : State) (slots : List Slot) : State :=
  { s with
    queue := s.queue ++ List.range' s.run.slots.length slots.length
    run := { s.run with slots := s.run.slots ++ slots } }

def start (env : Setting) (tree : Node) (block : Option String) (visits : Nat) (journal : Journal) : State :=
  push { root := tree, run := { fired := env.index.rules.map fun _ => 0, visits, journal } }
    [{ around := { block } }]

def pushItems (s : State) (id : Nat) (path : Path) (around : Ambient) (items : List Node) : State :=
  { s with root := s.root.setAt (.list (Node.flatten items)) path }.push
    (itemSlots id path around (Node.flatten items))

def pushContent (s : State) (id : Nat) (path : Path) (around : Ambient) : Option Node → State
  | some (.list items) => s.pushItems id (path ++ [.content]) around items
  | some (.entity _) => s.push [{ path := path ++ [.content], parent := some id, around }]
  | _ => s

def result (s : State) : Except LoopError Node :=
  match s.run.error with
  | some e => .error e
  | none => .ok s.root

end State

def slotLimit : Nat := 100

def totalLimit : Nat := 1000

def overrun (env : Setting) (r : Run) (id : Nat) (e : Entity) : Option LoopError :=
  let visits := (r.slots[id]?.map Slot.visits).getD 0
  if !env.options.detectLoops then none
  else if slotLimit < visits then some (.slot (e.path env.options.elemDelim) visits)
  else if totalLimit < r.visits then some (.total (e.path env.options.elemDelim) r.visits)
  else none

def descend (deep : Bool) (id : Nat) (path : Path) (around : Ambient) (node : Node) (s : State) : State :=
  match deep, node with
  | true, .entity e => s.pushContent id path (e.aroundContent around) e.content
  | _, _ => s

def settle (deep : Bool) (id : Nat) (path : Path) (around : Ambient) (s : State) (fate : Fate) (f : Focus) : State :=
  let s := { s with root := s.root.setAt f.node path, run := f.run }
  match f.run.error, fate with
  | some _, _ => s
  | none, .kept => descend deep id path around f.node s
  | none, .replaced => { s with queue := s.queue ++ [id], run := f.run.countReplacement id around }

def visit (env : Setting) (nested : Nested) (deep : Bool) (id : Nat) (slot : Slot) (e : Entity) (s : State) :
    Option State :=
  let e := e.adopt slot.around
  let around := e.aroundContent slot.around
  let run := s.run.countVisit id
  let f : Focus := { node := .entity e, slot := id, run }
  match overrun env run id e with
  | some err => some { s with run := run.fail err }
  | none =>
    if e.stopped then some (settle deep id slot.path around s .kept f)
    else (tryAll env nested f).map fun (fate, f) => settle deep id slot.path around s fate f

def attend (env : Setting) (nested : Nested) (deep : Bool) (id : Nat) (s : State) : Option State :=
  let s := { s with run := s.run.note (.popped id) }
  match s.run.slots[id]? with
  | none => some s
  | some slot =>
    match s.root.at? slot.path with
    | some (.list items) => some (s.pushItems id slot.path slot.around items)
    | some (.entity e) => visit env nested deep id slot e s
    | _ => some s

/-- Goes on until the queue is empty or the run has failed; `none` if that takes more than `steps` slots. -/
def drain (env : Setting) (nested : Nested) (deep : Bool) : Nat → State → Option State
  | 0, _ => none
  | steps + 1, s =>
    match s.run.error, s.queue with
    | some _, _ | none, [] => some s
    | none, id :: queue =>
      (attend env nested deep id { s with queue }).bind fun s =>
        drain env nested deep steps { s with maxQueue := max s.maxQueue s.queue.length }

def Focus.absorb (f : Focus) (s : State) : Node × Focus :=
  let run := { f.run.note (.inner s.run.trace) with journal := s.run.journal }
  match s.run.error with
  | some e => (.null, { f with run := { run with error := some (run.error.getD e) } })
  | none => (s.root, { f with run := { run with visits := s.run.visits } })

/-- The calls that run rules, nested at most `fuel` deep, with at most `fuel` steps in each expansion. -/
def Nested.ofFuel (env : Setting) : Nat → Nested
  | 0 => { tryRest := fun _ => none, expand := fun _ _ => none }
  | fuel + 1 =>
    { tryRest := fun f => (tryAll env (ofFuel env fuel) f).map Prod.snd
      expand := fun tree f =>
        let block := f.node.entity?.bind Entity.block
        (drain env (ofFuel env fuel) true fuel (.start env tree block f.run.visits f.run.journal)).map f.absorb }

def expand (env : Setting) (fuel : Nat) (deep : Bool) (tree : Node) (block : Option String) (journal : Journal) :
    Option State :=
  drain env (.ofFuel env fuel) deep fuel (.start env tree block 0 journal)

end Bemjson
