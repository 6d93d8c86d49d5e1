import Bemjson.Decimal.Shortest

namespace Bemjson

structure Layout where
  tie : Tie
  positional : Option (Int × Int)
  pointZero : Bool

namespace Layout

def json : Layout := ⟨.toEven, some (-5, 15), true⟩

def plain : Layout := ⟨.up, none, false⟩

def zeros (n : Nat) : String := String.ofList (List.replicate n '0')

def point (layout : Layout) : String := if layout.pointZero then ".0" else ""

def writePositional (layout : Layout) (digits : List Char) (exponent : Int) : String :=
  let whole := digits.length + exponent
  if 0 ≤ exponent then String.ofList digits ++ zeros exponent.toNat ++ layout.point
  else if 0 < whole then
    String.ofList (digits.take whole.toNat) ++ "." ++ String.ofList (digits.drop whole.toNat)
  else "0." ++ zeros (-whole).toNat ++ String.ofList digits

def writeScientific (digits : List Char) (lead : Int) : String :=
  let fraction := if digits.length ≤ 1 then "" else "." ++ String.ofList (digits.drop 1)
  let sign := if lead < 0 then "-" else "+"
  String.ofList (digits.take 1) ++ fraction ++ "e" ++ sign ++ Nat.repr lead.natAbs

def writeDecimal (layout : Layout) (x : Decimal) : String :=
  let digits := Nat.toDigits 10 x.digits
  let lead := digits.length + x.exponent - 1
  match layout.positional with
  | none => layout.writePositional digits x.exponent
  | some (low, high) =>
    if low ≤ lead ∧ lead ≤ high then layout.writePositional digits x.exponent
    else writeScientific digits lead

def write (layout : Layout) (x : Float) : String :=
  let sign := if x.toBits.toNat < Nat.pow 2 63 then "" else "-"
  let value := Binary.ofFloat x
  if value.significand = 0 then sign ++ "0" ++ layout.point
  else sign ++ layout.writeDecimal (value.shortest layout.tie)

end Layout

end Bemjson
