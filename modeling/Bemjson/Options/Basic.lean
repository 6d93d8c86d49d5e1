import Bemjson.Json.Basic

namespace Bemjson

inductive RuleOrder where
  | registration
  | latestFirst
  deriving DecidableEq

def defaultSelfClosing : List String :=
  ["area", "base", "br", "col", "command", "embed", "hr", "img", "input", "keygen", "link", "menuitem", "meta",
    "param", "source", "track", "wbr"]

structure Options where
  escapeText : Bool := true
  callWrapped : Bool := true
  initOnElems : Bool := true
  noBaseMods : Bool := false
  detectLoops : Bool := false
  jsAttrName : String := "onclick"
  initClass : String := "i-bem"
  elemDelim : String := "__"
  modDelim : String := "_"
  selfClosing : List String := defaultSelfClosing
  ruleOrder : RuleOrder := .registration
  extra : Assoc Json := []

end Bemjson
