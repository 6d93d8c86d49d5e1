import Bemjson.Json.Basic

namespace Bemjson

inductive Piece where
  | text (s : String)
  | content
  | modifier (name : String)
  | plain
  | behaviorName
  deriving DecidableEq

abbrev Hook := List Piece

mutual

inductive Node where
  | null
  | bool (b : Bool)
  | number (n : Number)
  | text (s : String)
  | list (items : List Node)
  | entity (e : Entity)

structure Entity where
  tag : Option String := none
  block : Option String := none
  elem : Option String := none
  mods : Option (Assoc Json) := none
  elemMods : Option (Assoc Json) := none
  mix : Option (List Entity) := none
  attrs : Option (Assoc Json) := none
  content : Option Node := none
  html : Option String := none
  js : Option Json := none
  jsAttr : Option String := none
  cls : Option String := none
  bem : Option Bool := none
  params : Assoc Json := []
  hook : Option Hook := none
  fired : List Nat := []
  stopped : Bool := false

end

instance : Inhabited Node := ⟨.null⟩

instance : Inhabited Entity := ⟨{}⟩

namespace Node

def isStructured : Node → Bool
  | list _ | entity _ => true
  | _ => false

def isList : Node → Bool
  | list _ => true
  | _ => false

def isTruthy : Node → Bool
  | null => false
  | bool b => b
  | number n => !n.isZero
  | text s => !s.isEmpty
  | list _ | entity _ => true

def entity? : Node → Option Entity
  | entity e => some e
  | _ => none

def mapEntity (f : Entity → Entity) : Node → Node
  | entity e => entity (f e)
  | n => n

mutual

def mixes : Node → List Entity
  | entity e => [e]
  | list items => mixesOfList items
  | _ => []

def mixesOfList : List Node → List Entity
  | [] => []
  | n :: ns => n.mixes ++ mixesOfList ns

end

mutual

def splice : Node → List Node → List Node
  | list items, rest => spliceAll items rest
  | n, rest => n :: rest

def spliceAll : List Node → List Node → List Node
  | [], rest => rest
  | n :: ns, rest => splice n (spliceAll ns rest)

end

mutual

theorem splice_append (n : Node) (before after : List Node) :
    n.splice (before ++ after) = n.splice before ++ after := by
  cases n <;> simp [splice, spliceAll_append]

theorem spliceAll_append (ns before after : List Node) :
    spliceAll ns (before ++ after) = spliceAll ns before ++ after := by
  cases ns with
  | nil => simp [spliceAll]
  | cons n ns => simp [spliceAll, spliceAll_append ns, splice_append n]

end

def flatten (items : List Node) : List Node :=
  if items.any isList then spliceAll items [] else items

end Node

mutual

def Node.size : Node → Nat
  | .list items => Node.sizeOfItems items + 1
  | .entity e => e.size
  | _ => 1

def Node.sizeOfItems : List Node → Nat
  | [] => 0
  | n :: ns => n.size + Node.sizeOfItems ns

def Entity.size : Entity → Nat
  | { content, .. } =>
    match content with
    | some c => c.size + 1
    | none => 1

end

def Entity.ownMods (e : Entity) : Option (Assoc Json) :=
  if e.elem.isSome then e.elemMods else e.mods

def Entity.fire (e : Entity) (rule : Nat) : Entity := { e with fired := rule :: e.fired }

end Bemjson
