import Bemjson.Engine

namespace Bemjson.CommandLine

structure Timing where
  total : Nat := 0
  expand : Nat := 0
  serialize : Nat := 0

def fractionText (places part : Nat) : String :=
  let digits := Nat.toDigits 10 part
  let all := List.replicate (places - digits.length) '0' ++ digits
  match (all.reverse.dropWhile fun c => c = '0').reverse with
  | [] => ""
  | ds => "." ++ String.ofList ds

def durationText (n : Nat) : String :=
  if 1000000000 ≤ n then Nat.repr (n / 1000000000) ++ fractionText 9 (n % 1000000000) ++ "s"
  else if 1000000 ≤ n then Nat.repr (n / 1000000) ++ fractionText 6 (n % 1000000) ++ "ms"
  else if 1000 ≤ n then Nat.repr (n / 1000) ++ fractionText 3 (n % 1000) ++ "µs"
  else Nat.repr n ++ "ns"

inductive Ink where
  | bold
  | dim
  | green
  | yellow
  | blue
  | cyan
  | gray

def Ink.code : Ink → String
  | bold => "1"
  | dim => "2"
  | green => "32"
  | yellow => "33"
  | blue => "34"
  | cyan => "36"
  | gray => "90"

def paint (color : Bool) (ink : Ink) (s : String) : String :=
  if color then "\x1b[" ++ ink.code ++ "m" ++ s ++ "\x1b[0m" else s

def heading (color : Bool) (s : String) : String := "\n" ++ paint color .gray ("━━━ " ++ s ++ " ━━━") ++ "\n"

def countersText (color : Bool) (m : Counts) : String :=
  let pair (name : String) (ink : Ink) (n : Nat) :=
    paint color .dim name ++ " " ++ paint color ink (Nat.repr n)
  "  " ++ "  ".intercalate
    [pair "slots:" .blue m.slots, pair "dispatches:" .blue m.visits,
      pair "replacements:" .yellow m.replacements, pair "max queue:" .yellow m.maxQueue] ++ "\n"

def rulesText (color : Bool) (ruleCount : Nat) (m : Counts) : String :=
  if m.fired.isEmpty then paint color .dim ("  No rules fired (" ++ Nat.repr ruleCount ++ " registered)") ++ "\n"
  else String.join (m.fired.map fun (label, n) =>
    "  " ++ paint color .cyan label ++ " " ++ paint color .green ("×" ++ Nat.repr n) ++ "\n")

def timingText (color : Bool) (t : Timing) : String :=
  "  Total: " ++ paint color .green (durationText t.total) ++
    "  │  Expand: " ++ paint color .cyan (durationText t.expand) ++
    "  │  Serialize: " ++ paint color .dim (durationText t.serialize) ++ "\n"

def reportText (color : Bool) (ruleCount : Nat) (r : Report) (t : Timing) : String :=
  "\n" ++ paint color .bold (paint color .cyan ("⚙  Rendered " ++ Nat.repr r.html.utf8ByteSize ++ " bytes")) ++
    "\n" ++ heading color "Expansion" ++ countersText color r.counts ++
    heading color "Rules" ++ rulesText color ruleCount r.counts ++
    heading color "Timing" ++ timingText color t ++ "\n"

end Bemjson.CommandLine
