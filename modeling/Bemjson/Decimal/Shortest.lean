/-! The shortest decimal that reads back as a given binary floating-point value, and of those the nearest. -/

namespace Bemjson

structure Decimal where
  digits : Nat
  exponent : Int
  deriving DecidableEq

inductive Tie where
  | toEven
  | up

structure Binary where
  significand : Nat
  exponent : Int
  closeBelow : Bool

namespace Binary

def ofFloat (x : Float) : Binary :=
  let bits := x.toBits.toNat
  let fraction := bits % Nat.pow 2 52
  let scale : Nat := bits / Nat.pow 2 52 % Nat.pow 2 11
  if scale = 0 then ⟨fraction, -1074, false⟩
  else ⟨fraction + Nat.pow 2 52, (scale : Int) - 1075, fraction == 0 && decide (1 < scale)⟩

def low (x : Binary) : Nat := 4 * x.significand - if x.closeBelow then 1 else 2

def high (x : Binary) : Nat := 4 * x.significand + 2

def scaling (x : Binary) (e : Int) : Nat × Nat :=
  (Nat.pow 2 (x.exponent - 2).toNat * Nat.pow 10 (-e).toNat, Nat.pow 2 (2 - x.exponent).toNat * Nat.pow 10 e.toNat)

def rounds (x : Binary) (e : Int) (d : Nat) : Bool :=
  let (up, down) := x.scaling e
  if x.significand % 2 = 0 then x.low * up ≤ d * down && d * down ≤ x.high * up
  else x.low * up < d * down && d * down < x.high * up

def onGrid (x : Binary) (tie : Tie) (e : Int) : Option Nat :=
  let (up, down) := x.scaling e
  let value := 4 * x.significand * up
  let d := value / down
  let above := (d + 1) * down - value
  let below := value - d * down
  match decide (0 < d) && x.rounds e d, x.rounds e (d + 1) with
  | true, false => some d
  | false, true => some (d + 1)
  | false, false => none
  | true, true =>
    if below < above then some d
    else if above < below then some (d + 1)
    else match tie with
      | .toEven => some (if d % 2 = 0 then d else d + 1)
      | .up => some (d + 1)

def search (x : Binary) (tie : Tie) : Nat → Int → Decimal
  | 0, e => ⟨0, e⟩
  | steps + 1, e =>
    match x.onGrid tie e with
    | some d => ⟨d, e⟩
    | none => search x tie steps (e - 1)

/-- Seventeen digits always suffice, and the search starts at most two places too high. -/
def shortest (x : Binary) (tie : Tie) : Decimal :=
  x.search tie 22 ((x.significand.log2 + x.exponent + 1) * 30103 / 100000 + 1)

end Binary

end Bemjson
