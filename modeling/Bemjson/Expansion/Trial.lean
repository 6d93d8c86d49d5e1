import Bemjson.Expansion.Run
import Bemjson.Rule.Index

/-! Trying the rules on a node, one after the other, until one replaces it or stops the trials. -/

namespace Bemjson

structure Setting where
  options : Options := {}
  index : RuleIndex := {}
  idStart : String := "uniq"

structure Focus where
  node : Node
  replaced : Bool := false
  slot : Nat
  run : Run

namespace Focus

def mapEntity (f : Focus) (change : Entity → Entity) : Focus := { f with node := f.node.mapEntity change }

def mapRun (f : Focus) (change : Run → Run) : Focus := { f with run := change f.run }

def isOpen (f : Focus) : Bool := (f.node.entity?.map fun e => !e.stopped).getD false

def place (f : Focus) : Place :=
  match f.run.slots[f.slot]? with
  | some s => ⟨s.position, s.siblings⟩
  | none => ⟨none, 0⟩

def replace (f : Focus) (node : Node) : Focus := { f with node, replaced := true }

end Focus

/-- What the two calls mean that run rules in turn; `none` if they come to no end in the steps allowed. -/
structure Nested where
  tryRest : Focus → Option Focus
  expand : Node → Focus → Option (Node × Focus)

def Call.perform (env : Setting) (nested : Nested) (f : Focus) : (c : Call) → Option (c.Reply × Focus)
  | .node => some (f.node, f)
  | .options => some (env.options, f)
  | .place => some (f.place, f)
  | .inherited key => some (f.run.inherited f.slot key, f)
  | .edit change force => some ((), f.mapEntity fun e => e.edit force change)
  | .keep key value force => some ((), f.mapRun fun r => r.keep f.slot key value force)
  | .stop => some ((), f.mapEntity fun e => { e with stopped := true })
  | .tryRest => (nested.tryRest f).map fun f => ((), f)
  | .expand tree => nested.expand tree f
  | .freshId =>
    let (id, run) := f.run.issueId env.idStart
    some (id, { f with run })
  | .log entry => some ((), f.mapRun fun r => r.write entry)

def Program.exec {α : Type} (env : Setting) (nested : Nested) : Program α → Focus → Option (α × Focus)
  | .done a, f => some (a, f)
  | .call c next, f => (c.perform env nested f).bind fun (reply, f) => (next reply).exec env nested f

inductive Fate where
  | kept
  | replaced
  deriving DecidableEq

def fire (env : Setting) (nested : Nested) (id : Nat) (f : Focus) : Option (Bool × Focus) :=
  let f := (f.mapEntity fun e => e.fire id).mapRun fun r => r.countFire id f.slot
  match env.index.rules[id]? with
  | none => some (f.replaced, f)
  | some rule =>
    (rule.body.exec env nested f).map fun
      | (some node, f) => (true, f.replace node)
      | (none, f) => (f.replaced, f)

def tryRules (env : Setting) (nested : Nested) : List Candidate → Focus → Option (Option Fate × Focus)
  | [], f => some (none, f)
  | c :: cs, f =>
    if f.node.entity?.any c.accepts then
      (fire env nested c.id f).bind fun
        | (true, f) => some (some .replaced, f)
        | (false, f) => if f.isOpen then tryRules env nested cs f else some (some .kept, f)
    else tryRules env nested cs f

/-- The rules for all nodes come first and last. Those between are chosen once the first have been tried, which
can have moved the node to another block or element. -/
def tryAll (env : Setting) (nested : Nested) (f : Focus) : Option (Fate × Focus) :=
  (tryRules env nested env.index.before f).bind fun
    | (some fate, f) => some (fate, f)
    | (none, f) =>
      match f.node.entity? with
      | none => some (.kept, f)
      | some e =>
        (tryRules env nested (env.index.candidates e.block e.elem ++ env.index.after) f).map
          fun (ended, f) => (ended.getD .kept, f)

end Bemjson
