import Bemjson.Assoc

/-! JSON values whose objects keep the order of their keys. -/

namespace Bemjson

inductive Number where
  | int (z : Int)
  | float (x : Float)
  deriving DecidableEq

inductive Json where
  | null
  | bool (b : Bool)
  | number (n : Number)
  | string (s : String)
  | array (items : List Json)
  | object (fields : List (String × Json))
  deriving Inhabited

def Number.isZero : Number → Bool
  | .int z => z == 0
  | .float x => x == 0.0

def Number.same : Number → Number → Bool
  | .int a, .int b => a == b
  | .float a, .float b => a == b
  | _, _ => false

namespace Json

def isTruthy : Json → Bool
  | null => false
  | bool b => b
  | number n => !n.isZero
  | string s => !s.isEmpty
  | array _ | object _ => true

def isNumber : Json → Bool
  | number _ => true
  | _ => false

def isTrue : Json → Bool
  | bool b => b
  | _ => false

def fields? : Json → Option (Assoc Json)
  | object fields => some fields
  | _ => none

def string? : Json → Option String
  | string s => some s
  | _ => none

def bool? : Json → Option Bool
  | bool b => some b
  | _ => none

mutual

def same : Json → Json → Bool
  | null, null => true
  | bool a, bool b => a == b
  | number a, number b => a.same b
  | string a, string b => a == b
  | array as, array bs => sameItems as bs
  | object as, object bs => as.length == bs.length && sameFields as bs
  | _, _ => false

def sameItems : List Json → List Json → Bool
  | [], [] => true
  | a :: as, b :: bs => same a b && sameItems as bs
  | _, _ => false

def sameFields : List (String × Json) → Assoc Json → Bool
  | [], _ => true
  | (k, a) :: as, bs =>
    (match bs.get? k with
      | some b => same a b
      | none => false) && sameFields as bs

end

end Json

end Bemjson
