import Bemjson.Node.Basic

namespace Bemjson

inductive Step where
  | item (index : Nat)
  | content
  deriving DecidableEq

abbrev Path := List Step

namespace Node

def at? : Node → Path → Option Node
  | n, [] => some n
  | list items, .item i :: p => items[i]?.bind fun n => n.at? p
  | entity e, .content :: p => e.content.bind fun n => n.at? p
  | _, _ :: _ => none
termination_by structural _ p => p

def setAt (root new : Node) (path : Path) : Node :=
  match root, path with
  | _, [] => new
  | list items, .item i :: p => list (items.modify i fun n => n.setAt new p)
  | entity e, .content :: p => entity { e with content := e.content.map fun n => n.setAt new p }
  | n, _ :: _ => n
termination_by structural path

theorem at?_append (n : Node) (p q : Path) : n.at? (p ++ q) = (n.at? p).bind fun m => m.at? q := by
  induction p generalizing n with
  | nil => simp [at?]
  | cons step p ih =>
    cases step with
    | item i => cases n <;> simp [at?, Option.bind_assoc, ih]
    | content => cases n <;> simp [at?, Option.bind_assoc, ih]

theorem at?_setAt (n new : Node) (p : Path) : (n.setAt new p).at? p = (n.at? p).map fun _ => new := by
  induction p generalizing n with
  | nil => simp [at?, setAt]
  | cons step p ih =>
    cases step with
    | item i =>
      cases n with
      | list items => cases hi : items[i]? <;> simp [at?, setAt, hi, ih]
      | _ => rfl
    | content =>
      cases n with
      | entity e => cases hc : e.content <;> simp [at?, setAt, hc, ih]
      | _ => rfl

end Node

end Bemjson
