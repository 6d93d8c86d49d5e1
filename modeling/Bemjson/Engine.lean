import Bemjson.Expansion.Walk
import Bemjson.Markup.Writer
import Bemjson.Json.Reader
import Bemjson.Options.Patch

namespace Bemjson

structure Engine where
  rules : List Rule := []
  options : Options := {}
  built : Option RuleIndex := none
  idStart : String := "uniq"

inductive ConfigError where
  | selector (e : SelectorError)
  | options (e : PatchError)

def ConfigError.message : ConfigError → String
  | selector e => e.message
  | options e => e.message

inductive SourceError where
  | json (e : Json.ReadError)
  | loop (e : LoopError)

def SourceError.message : SourceError → String
  | json e => "invalid BEMJSON: " ++ e.message
  | loop e => e.message

structure Counts where
  slots : Nat
  visits : Nat
  replacements : Nat
  maxQueue : Nat
  fired : List (String × Nat)
  deriving DecidableEq

def State.counts (s : State) (rules : List Rule) : Counts where
  slots := s.run.slots.length
  visits := s.run.visits
  replacements := s.run.replacements
  maxQueue := s.maxQueue
  fired := ((rules.map Rule.label).zip s.run.fired).filter fun p => p.2 != 0

structure Report where
  html : String
  counts : Counts
  deriving DecidableEq

namespace Engine

section Registration

def addRules (engine : Engine) (rules : List Rule) : Engine :=
  { engine with rules := engine.rules ++ rules, built := none }

def register (engine : Engine) (entries : List (String × Body)) : Except ConfigError Engine :=
  ((Rule.readAll entries).mapError .selector).map engine.addRules

def registerBefore (engine : Engine) (body : Body) : Engine := engine.addRules [⟨.before, body⟩]

def registerAfter (engine : Engine) (body : Body) : Engine := engine.addRules [⟨.after, body⟩]

end Registration

section Configuration

def withOptions (engine : Engine) (options : Options) : Engine := { engine with options, built := none }

def patch (engine : Engine) (patch : Json) : Except ConfigError Engine :=
  ((engine.options.patch patch).mapError .options).map engine.withOptions

def detectLoops (engine : Engine) (on : Bool) : Engine :=
  { engine with options := { engine.options with detectLoops := on } }

end Configuration

section Rendering

def index (engine : Engine) : RuleIndex :=
  engine.built.getD (.build engine.rules engine.options.ruleOrder)

def prepare (engine : Engine) : Engine := { engine with built := some engine.index }

def setting (engine : Engine) : Setting := ⟨engine.options, engine.index, engine.idStart⟩

/-- Expands a tree with `block` around it. With `deep` off, content is left alone. -/
def expand (engine : Engine) (fuel : Nat) (tree : Node) (block : Option String) (deep : Bool)
    (journal : Journal) : Option State :=
  Bemjson.expand engine.setting fuel deep tree block journal

def markup (engine : Engine) (tree : Node) : String := tree.markup engine.options

def report (engine : Engine) (s : State) : Except LoopError Report :=
  s.result.map fun tree => ⟨engine.markup tree, s.counts engine.rules⟩

def render (engine : Engine) (fuel : Nat) (tree : Node) : Option (Except LoopError Report) :=
  (engine.expand fuel tree none true {}).map engine.report

def renderSource (engine : Engine) (fuel : Nat) (source : String) : Option (Except SourceError Report) :=
  match Json.read source with
  | .error e => some (.error (.json e))
  | .ok v => (engine.render fuel (.ofJson v)).map fun r => r.mapError .loop

end Rendering

end Engine

end Bemjson
