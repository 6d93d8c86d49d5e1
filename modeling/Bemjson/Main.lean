import Bemjson.CommandLine.Outcome

namespace Bemjson.Main

open CommandLine (Job Outcome Request Source)

def reason : IO.Error → String
  | .noFileOrDirectory .. => "No such file or directory (os error 2)"
  | .permissionDenied .. => "Permission denied (os error 13)"
  | .inappropriateType .. => "Is a directory (os error 21)"
  | e => toString e

def readText (bytes : IO ByteArray) : IO Source := do
  try
    match String.fromUTF8? (← bytes) with
    | some text => return .ok text
    | none => return .error "stream did not contain valid UTF-8"
  catch e => return .error (reason e)

def readFiles (args : List String) : IO (String → Source) := do
  let mut files : List (String × Source) := []
  for arg in args do
    if !arg.startsWith "-" then
      files := (arg, ← readText (IO.FS.readBinFile arg)) :: files
  let found := files
  return fun path => (found.lookup path).getD (.error "No such file or directory (os error 2)")

def needsStdin (args : List String) : Bool :=
  match Request.readInput { stdin := "x", file := fun _ => "x" } args with
  | .ok (r, _) => r.input.isNone || args.contains "-"
  | .error _ => args.contains "-"

def execute (job : Job) : IO Outcome := do
  let start ← IO.monoNanosNow
  match ← IO.lazyPure fun _ => job.expand with
  | none => return { code := 1 }
  | some state =>
    let expanded ← IO.monoNanosNow
    let result ← IO.lazyPure fun _ => job.engine.report state
    let serialized ← IO.monoNanosNow
    return job.finish ⟨serialized - start, expanded - start, serialized - expanded⟩ result

end Bemjson.Main

open Bemjson Main CommandLine in
def main (args : List String) : IO UInt32 := do
  let stdin ← if needsStdin args then readText (do (← IO.getStdin).readBinToEnd) else pure (.ok "")
  let terminal ← (← IO.getStderr).isTty
  let outcome ← match Job.read { stdin, file := ← readFiles args, terminal } args with
    | .error outcome => pure outcome
    | .ok job => execute job
  IO.print outcome.stdout
  IO.eprint outcome.stderr
  return outcome.code.toUInt32

