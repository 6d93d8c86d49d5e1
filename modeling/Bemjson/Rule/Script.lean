import Bemjson.Rule.Program

/-! Rules as data: actions on a node with values and trees that are computed from it. -/

namespace Bemjson.Script

open Program

inductive Source where
  | param (key : String)
  | attr (name : String)
  | mod (name : String)
  | inherited (key : String)
  | tag
  | cls
  | html
  | bem
  | js
  | mods
  | attrs
  | content
  | mix
  | position
  | first
  | last
  | elemDelim
  | json
  | node
  | id

mutual

inductive Expr where
  | literal (v : Json)
  | source (s : Source)
  | list (items : List Expr)
  | record (fields : List (String × Expr))
  | same (a b : Expr)
  | not (a : Expr)
  | isSimple (t : Template)
  | ofTemplate (t : Template)

inductive Template where
  | self
  | node
  | content
  | ofExpr (v : Expr)
  | list (items : List Template)
  | build (fields : List Field)
  | copy (fields : List Field)
  | expand (t : Template)

inductive Field where
  | hook (h : Hook)
  | content (t : Template)
  | mix (t : Template)
  | other (key : String) (v : Expr)

end

instance : Inhabited Expr := ⟨.literal .null⟩

instance : Inhabited Template := ⟨.ofExpr default⟩

inductive Target where
  | tag
  | cls
  | html
  | bem
  | mods
  | attrs
  | js
  | mod (name : String)
  | attr (name : String)
  | param (key : String)

def Target.edit? (v : Json) : Target → Option Edit
  | tag => v.string?.map .tag
  | cls => v.string?.map .cls
  | html => v.string?.map .html
  | bem => v.bool?.map .bem
  | mods => some (.mods v)
  | attrs => some (.attrs v)
  | js => some (.js v)
  | mod name => some (.mod name v)
  | attr name => some (.attr name v)
  | param key => some (.param key v)

inductive Action where
  | write (target : Target) (v : Expr) (force : Bool)
  | keep (key : String) (v : Expr) (force : Bool)
  | mix (t : Template) (force : Bool)
  | content (t : Template) (force : Bool)
  | stop
  | tryRest
  | log (v : Expr)
  | cond (v : Expr) (yes no : List Action)
  | replace (t : Template)
  | finish

def current : Program Entity := do
  let n ← ask .node
  return n.entity?.getD {}

def orNull (v : Option Json) : Json := v.getD .null

def readSource : Source → Program Json
  | .param key => return orNull ((← current).field key)
  | .attr name => return orNull (((← current).attrs.getD []).get? name)
  | .mod name => return orNull (((← current).ownMods.getD []).get? name)
  | .inherited key => return orNull (← ask (.inherited key))
  | .tag => return orNull ((← current).tag.map .string)
  | .cls => return orNull ((← current).cls.map .string)
  | .html => return orNull ((← current).html.map .string)
  | .bem => return orNull ((← current).bem.map .bool)
  | .js => return orNull (← current).js
  | .mods => return orNull ((← current).ownMods.map .object)
  | .attrs => return orNull ((← current).attrs.map .object)
  | .content => return orNull ((← current).content.map Node.toJson)
  | .mix => return .array (((← current).mix.getD []).map Entity.toJson)
  | .position => return orNull ((← ask .place).position.map fun n => .number (.int n))
  | .first => return .bool (← ask .place).isFirst
  | .last => return .bool (← ask .place).isLast
  | .elemDelim => return .string (← ask .options).elemDelim
  | .json => return (← current).toJson
  | .node => return (← ask .node).toJson
  | .id => return .string (← ask .freshId)

mutual

def evalExpr : Expr → Program Json
  | .literal v => return v
  | .source s => readSource s
  | .list items => return .array (← evalExprs items)
  | .record fields => return .object (Assoc.ofList (← evalRecord fields))
  | .same a b => do
    let a ← evalExpr a
    let b ← evalExpr b
    return .bool (a.same b)
  | .not a => return .bool (!(← evalExpr a).isTruthy)
  | .isSimple t => return .bool (!(← evalTemplate t).isStructured)
  | .ofTemplate t => return (← evalTemplate t).toJson

def evalExprs : List Expr → Program (List Json)
  | [] => return []
  | v :: vs => do
    let v ← evalExpr v
    return v :: (← evalExprs vs)

def evalRecord : List (String × Expr) → Program (List (String × Json))
  | [] => return []
  | (k, v) :: fields => do
    let v ← evalExpr v
    return (k, v) :: (← evalRecord fields)

def evalTemplate : Template → Program Node
  | .self => return .entity (← current)
  | .node => ask .node
  | .content => return (← current).content.getD .null
  | .ofExpr v => return .ofJson (← evalExpr v)
  | .list items => return .list (← evalTemplates items)
  | .build fields => return .entity (← evalFields {} fields)
  | .copy fields => do
    let e ← current
    return .entity (← evalFields e fields)
  | .expand t => do
    let tree ← evalTemplate t
    ask (.expand tree)

def evalTemplates : List Template → Program (List Node)
  | [] => return []
  | t :: ts => do
    let n ← evalTemplate t
    return n :: (← evalTemplates ts)

def evalFields (e : Entity) : List Field → Program Entity
  | [] => return e
  | .hook h :: fields => evalFields { e with hook := some h } fields
  | .content t :: fields => do
    let n ← evalTemplate t
    evalFields { e with content := some n } fields
  | .mix t :: fields => do
    let n ← evalTemplate t
    evalFields { e with mix := some n.mixes } fields
  | .other key v :: fields => do
    let v ← evalExpr v
    evalFields (e.setField key v) fields

end

mutual

def runAction : Action → Program (Option (Option Node))
  | .write target v force => do
    match target.edit? (← evalExpr v) with
    | some change => ask (.edit change force)
    | none => pure ()
    return none
  | .keep key v force => do
    let v ← evalExpr v
    ask (.keep key v force)
    return none
  | .mix t force => do
    let n ← evalTemplate t
    ask (.edit (.mix n) force)
    return none
  | .content t force => do
    let n ← evalTemplate t
    ask (.edit (.content n) force)
    return none
  | .stop => do
    ask .stop
    return none
  | .tryRest => do
    ask .tryRest
    return none
  | .log v => do
    let v ← evalExpr v
    ask (.log v)
    return none
  | .cond v yes no => do
    let v ← evalExpr v
    if v.isTruthy then runActions yes else runActions no
  | .replace t => return some (some (← evalTemplate t))
  | .finish => return some none

def runActions : List Action → Program (Option (Option Node))
  | [] => return none
  | a :: as => do
    match ← runAction a with
    | some ending => return some ending
    | none => runActions as

end

def body (actions : List Action) : Body := return (← runActions actions).getD none

end Bemjson.Script
