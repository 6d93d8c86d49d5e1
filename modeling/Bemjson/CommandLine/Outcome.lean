import Bemjson.CommandLine.Help
import Bemjson.CommandLine.Report

/-! What a command line comes to: an exit code and what is written. Log lines, which carry the time, are left out, also
the one that an aborted expansion leaves on the standard error. -/

namespace Bemjson.CommandLine

structure Outcome where
  code : Nat
  stdout : String := ""
  stderr : String := ""
  deriving DecidableEq

namespace Outcome

def refuse (message : String) : Outcome := { code := 2, stderr := message ++ "\n" }

def ofStop : Stop → Outcome
  | .help => { code := 0, stdout := helpText ++ "\n" }
  | .version => { code := 0, stdout := versionText ++ "\n" }
  | .usage e => refuse e.message

end Outcome

structure Job where
  engine : Engine
  tree : Node
  verbose : Bool
  color : Bool

namespace Job

def adjust (r : Request) (o : Options) : Options :=
  { o with escapeText := o.escapeText && !r.noEscape, detectLoops := o.detectLoops || r.detectLoops }

def options (r : Request) : Except PatchError Options :=
  (match r.options with
    | some patch => Options.patch {} patch
    | none => .ok {}).map (adjust r)

def read (sources : Sources) (args : List String) : Except Outcome Job := do
  let (r, input) ← (Request.readInput sources args).mapError .ofStop
  let options ← (options r).mapError fun e => .refuse ("error: " ++ e.message)
  let tree ← (Json.read input).mapError fun e => .refuse ("error: " ++ (SourceError.json e).message)
  return { engine := { options }, tree := .ofJson tree, verbose := r.verbose, color := r.color }

/-- The steps are enough, for without rules every node is visited once at most. -/
def expand (job : Job) : Option State :=
  job.engine.expand (job.tree.size + 2) job.tree none true {}

def finish (job : Job) (t : Timing) (result : Except LoopError Report) : Outcome :=
  match result with
  | .error e => { code := 1, stderr := "error: " ++ e.message ++ "\n" }
  | .ok r =>
    { code := 0, stdout := r.html ++ "\n",
      stderr := if job.verbose then reportText job.color job.engine.rules.length r t else "" }

end Job

def run (sources : Sources) (args : List String) (t : Timing) : Option Outcome :=
  match Job.read sources args with
  | .error outcome => some outcome
  | .ok job => job.expand.map fun s => job.finish t (job.engine.report s)

end Bemjson.CommandLine
