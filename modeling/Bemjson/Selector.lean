import Bemjson.Json.Basic

/-! Reading selectors. Underscores part the words, and two of them in a row part the block from the element. -/

namespace Bemjson

inductive Expected where
  | flag
  | exact (value : String)
  deriving DecidableEq

structure Condition where
  name : String
  value : Expected
  deriving DecidableEq

namespace Condition

def holds (c : Condition) (mods : Option (Assoc Json)) : Bool :=
  match c.value, (mods.getD []).get? c.name with
  | .flag, some (.bool b) => b
  | .exact expected, some (.string s) => s == expected
  | _, _ => false

end Condition

structure Part where
  name : String
  cond : Option Condition
  deriving DecidableEq

structure Selector where
  block : Part
  elem : Option Part
  deriving DecidableEq

def Part.text (p : Part) : String :=
  match p.cond with
  | none => p.name
  | some ⟨m, .flag⟩ => p.name ++ "_" ++ m
  | some ⟨m, .exact value⟩ => p.name ++ "_" ++ m ++ "_" ++ value

def Selector.text (s : Selector) : String :=
  match s.elem with
  | none => s.block.text
  | some elem => s.block.text ++ "__" ++ elem.text

inductive SelectorFault where
  | empty
  | badShape
  deriving DecidableEq

structure SelectorError where
  selector : String
  fault : SelectorFault
  deriving DecidableEq

def SelectorFault.reason : SelectorFault → String
  | empty => "empty selector"
  | badShape => "expected block[_mod[_val]][__elem[_mod[_val]]]"

def SelectorError.message (e : SelectorError) : String :=
  "invalid selector \"" ++ e.selector ++ "\": " ++ e.fault.reason

namespace Selector

def splitWords : List Char → List (List Char)
  | [] => [[]]
  | c :: cs =>
    if c = '_' then [] :: splitWords cs
    else match splitWords cs with
      | [] => [[c]]
      | w :: ws => (c :: w) :: ws

def isWordChar (c : Char) : Bool := c.isAlphanum || c = '-'

def isWord (w : List Char) : Bool := !w.isEmpty && w.all isWordChar

def readPart (words : List (List Char)) : Option Part :=
  if words.all isWord then
    match words with
    | [name] => some ⟨String.ofList name, none⟩
    | [name, m] => some ⟨String.ofList name, some ⟨String.ofList m, .flag⟩⟩
    | [name, m, value] => some ⟨String.ofList name, some ⟨String.ofList m, .exact (String.ofList value)⟩⟩
    | _ => none
  else none

def readWords (words : List (List Char)) : Option Selector :=
  match words.dropWhile fun w => !w.isEmpty with
  | [] => (readPart words).map fun block => ⟨block, none⟩
  | _ :: elemWords => do
    let block ← readPart (words.takeWhile fun w => !w.isEmpty)
    let elem ← readPart elemWords
    some ⟨block, some elem⟩

def read (s : String) : Except SelectorError Selector :=
  if s.isEmpty then .error ⟨s, .empty⟩
  else match readWords (splitWords s.toList) with
    | some selector => .ok selector
    | none => .error ⟨s, .badShape⟩

end Selector

end Bemjson
