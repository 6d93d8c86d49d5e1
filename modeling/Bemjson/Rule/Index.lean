import Bemjson.Rule.Program
import Bemjson.Selector

/-! Rules in the order of their registration; the number of a rule is its place in that order. -/

namespace Bemjson

inductive Reach where
  | before
  | after
  | selector (s : Selector)
  deriving DecidableEq

structure Rule where
  reach : Reach
  body : Body

def Reach.label : Reach → String
  | before => "$before"
  | after => "$after"
  | selector s => s.text

def Rule.label (r : Rule) : String := r.reach.label

namespace Rule

def readAll (entries : List (String × Body)) : Except SelectorError (List Rule) :=
  entries.mapM fun (text, body) => (Selector.read text).map fun s => ⟨.selector s, body⟩

end Rule

structure Candidate where
  id : Nat
  blockMod : Option Condition := none
  elemMod : Option Condition := none

def holdsOn (cond : Option Condition) (mods : Option (Assoc Json)) : Bool := cond.all fun c => c.holds mods

def Candidate.accepts (c : Candidate) (e : Entity) : Bool :=
  !e.fired.contains c.id && holdsOn c.elemMod e.elemMods && holdsOn c.blockMod e.mods

structure BlockRules where
  plain : List Candidate := []
  elems : Assoc (List Candidate) := []

namespace BlockRules

def get (b : BlockRules) : Option String → List Candidate
  | some elem => (b.elems.get? elem).getD []
  | none => b.plain

def add (b : BlockRules) (elem : Option String) (c : Candidate) : BlockRules :=
  match elem with
  | some elem => { b with elems := Assoc.insert b.elems elem (b.get elem ++ [c]) }
  | none => { b with plain := b.plain ++ [c] }

end BlockRules

structure RuleIndex where
  rules : List Rule := []
  before : List Candidate := []
  after : List Candidate := []
  blocks : Assoc BlockRules := []

namespace RuleIndex

def ofBlock (index : RuleIndex) (block : String) : BlockRules := (index.blocks.get? block).getD {}

def candidates (index : RuleIndex) (block elem : Option String) : List Candidate :=
  match block with
  | some block => (index.ofBlock block).get elem
  | none => []

def add (index : RuleIndex) (rule : Rule) (id : Nat) : RuleIndex :=
  match rule.reach with
  | .before => { index with before := index.before ++ [{ id }] }
  | .after => { index with after := index.after ++ [{ id }] }
  | .selector s =>
    let c : Candidate := { id, blockMod := s.block.cond, elemMod := s.elem.bind Part.cond }
    let updated := (index.ofBlock s.block.name).add (s.elem.map Part.name) c
    { index with blocks := Assoc.insert index.blocks s.block.name updated }

def ordered (rules : List Rule) : RuleOrder → List (Rule × Nat)
  | .registration => rules.zipIdx
  | .latestFirst => rules.zipIdx.reverse

def build (rules : List Rule) (order : RuleOrder) : RuleIndex :=
  (ordered rules order).foldl (fun index r => index.add r.1 r.2) { rules }

end RuleIndex

end Bemjson
