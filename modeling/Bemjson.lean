import Bemjson.Main
import Bemjson.Proofs.Coverage
import Bemjson.Proofs.DepthFirst.Agreement
import Bemjson.Proofs.History
import Bemjson.Proofs.LoopGuard.Budget
import Bemjson.Proofs.LoopGuard.Ends
import Bemjson.Proofs.LoopGuard.Transparent
import Bemjson.Rule.Script
import Bemjson.Proofs.Acts
import Bemjson.Proofs.Stopped
import Bemjson.Proofs.Copies.Once
import Bemjson.Proofs.Markup.Behavior
import Bemjson.Proofs.Markup.Grammar
import Bemjson.Proofs.Markup.Nesting
import Bemjson.Proofs.LoopGuard.FirstError
import Bemjson.Proofs.RuleFree.Context
import Bemjson.Proofs.RuleFree.Meaning
import Bemjson.Proofs.Markup.ClassValue
import Bemjson.Proofs.BehaviorParams
import Bemjson.Proofs.Patching.Laws
import Bemjson.Proofs.Selectors
import Bemjson.Proofs.Fields
import Bemjson.Proofs.CommandLine.Outcomes
import Bemjson.Proofs.Chronicle.Inheritance
import Bemjson.Proofs.Chronicle.LevelOrder
import Bemjson.Proofs.Markup.InitClass
import Bemjson.Proofs.Markup.Escapes
import Bemjson.Proofs.Chronicle.Lookups
import Bemjson.Proofs.Chronicle.Siblings
