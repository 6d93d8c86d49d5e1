import Bemjson.Node.Edit
import Bemjson.Options.Basic

/-! What a rule does with the node that it is tried on, as a program of calls. -/

namespace Bemjson

structure Place where
  position : Option Nat
  siblings : Nat

def Place.isFirst (p : Place) : Bool := p.position == some 1

def Place.isLast (p : Place) : Bool := p.position == some p.siblings

inductive Call where
  | node
  | options
  | place
  | inherited (key : String)
  | edit (change : Edit) (force : Bool)
  | keep (key : String) (value : Json) (force : Bool)
  | stop
  /-- Tries the rules that have not been run on the node as it is now. -/
  | tryRest
  | expand (tree : Node)
  | freshId
  | log (entry : Json)

abbrev Call.Reply : Call → Type
  | node => Node
  | options => Options
  | place => Place
  | inherited _ => Option Json
  | expand _ => Node
  | freshId => String
  | _ => Unit

inductive Program (α : Type) where
  | done (a : α)
  | call (c : Call) (next : c.Reply → Program α)

namespace Program

variable {α β : Type}

def bind (p : Program α) (f : α → Program β) : Program β :=
  match p with
  | done a => f a
  | call c next => call c fun r => (next r).bind f

instance : Monad Program where
  pure := done
  bind := bind

def ask (c : Call) : Program c.Reply := call c done

end Program

abbrev Body := Program (Option Node)

end Bemjson
