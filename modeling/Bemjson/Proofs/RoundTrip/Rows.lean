import Bemjson.Proofs.Records
import Bemjson.Proofs.RoundTrip.Regular

namespace Bemjson

namespace Entity

def row (key : Key) (value : Option Json) : List (String × Json) := (value.map fun v => (key.name, v)).toList

def take (a e : Entity) : Key → Entity
  | .tag => { a with tag := e.tag.or a.tag }
  | .block => { a with block := e.block.or a.block }
  | .elem => { a with elem := e.elem.or a.elem }
  | .mods => { a with mods := e.mods.or a.mods }
  | .elemMods => { a with elemMods := e.elemMods.or a.elemMods }
  | .mix => { a with mix := (e.mix.map fun ms => ms.map fun m => .ofJson m.toJson).or a.mix }
  | .attrs => { a with attrs := e.attrs.or a.attrs }
  | .content => { a with content := (e.content.map fun c => .ofJson c.toJson).or a.content }
  | .html => { a with html := e.html.or a.html }
  | .js => { a with js := (e.js.map Json.present).getD a.js }
  | .jsAttr => { a with jsAttr := e.jsAttr.or a.jsAttr }
  | .cls => { a with cls := e.cls.or a.cls }
  | .bem => { a with bem := e.bem.or a.bem }
  | .param _ => a

end Entity

lemma Node.toItems_eq (ns : List Node) : toItems ns = ns.map toJson := by
  induction ns with
  | nil => rfl
  | cons n ns ih => rw [toItems, ih, List.map_cons]

lemma Node.ofItems_eq (vs : List Json) : ofItems vs = vs.map ofJson := by
  induction vs with
  | nil => rfl
  | cons v vs ih => rw [ofItems, ih, List.map_cons]

namespace Entity

lemma toObjects_eq (ms : List Entity) : toObjects ms = ms.map toJson := by
  induction ms with
  | nil => rfl
  | cons m ms ih => rw [toObjects, ih, List.map_cons, toJson]

lemma toFields_eq (e : Entity) : e.toFields = (Key.known.flatMap fun k => row k (e.read k)) ++ e.params := by
  obtain ⟨_, _, _, _, _, mix, _, content, _⟩ := e
  cases mix <;> cases content <;>
    simp [toFields, Key.known, row, read, toObjects_eq, List.append_assoc]

lemma ofFields_append (a : Entity) (xs ys : List (String × Json)) : a.ofFields (xs ++ ys) = (a.ofFields xs).ofFields ys := by
  induction xs generalizing a with
  | nil => rfl
  | cons p xs ih => exact ih _

lemma mixes_ofJson (ms : List Entity) :
    (Node.ofJson (.array (ms.map toJson))).mixes = ms.map fun m => .ofJson m.toJson := by
  rw [Node.ofJson, Node.mixes, Node.mixesOfList_eq, Node.ofItems_eq, List.map_map, List.flatMap_map]
  exact List.flatMap_pure_eq_map (fun m => ofJson m.toJson) ms

lemma toTag_string (s : String) : (Json.string s).toTag = s := by
  by_cases h : s = ""
  · rw [h]
    rfl
  · simp [Json.toTag, Json.isTruthy, Json.toFieldText, h]

lemma toName_string {s : String} (h : s ≠ "") : (Json.string s).toName = some s := by
  simp [Json.toName, Json.toFieldText, Option.filter, h]

lemma take_of_none {a e : Entity} {k : Key} (h : e.read k = none) : a.take e k = a := by
  cases a
  cases k with
  | param s => rfl
  | js => simp [take, show e.js = none from h]
  | _ => simp [take, Option.map_eq_none_iff.mp h]

lemma take_of_some {nulls : Prop} {a e : Entity} {k : Key} {v : Json} (he : e.Regular nulls) (hk : k ∈ Key.known)
    (h : e.read k = some v) : a.take e k = a.write k v (.ofJson v) := by
  cases k with
  | param s => simp [Key.known] at hk
  | js => simp [take, write, show e.js = some v from h]
  | tag =>
    obtain ⟨s, hs, rfl⟩ := Option.map_eq_some_iff.mp h
    simp [take, write, hs, toTag_string]
  | block =>
    obtain ⟨s, hs, rfl⟩ := Option.map_eq_some_iff.mp h
    have hne : s ≠ "" := fun h => he.block (h ▸ hs)
    simp [take, write, hs, toName_string hne]
  | elem =>
    obtain ⟨s, hs, rfl⟩ := Option.map_eq_some_iff.mp h
    have hne : s ≠ "" := fun h => he.elem (h ▸ hs)
    simp [take, write, hs, toName_string hne]
  | mix =>
    obtain ⟨ms, hms, rfl⟩ := Option.map_eq_some_iff.mp h
    simp [take, write, hms, mixes_ofJson]
  | _ =>
    obtain ⟨x, hx, rfl⟩ := Option.map_eq_some_iff.mp h
    simp [take, write, hx, Json.fields?, Json.toFieldText, Json.bool?]

lemma ofFields_row {nulls : Prop} {e : Entity} (he : e.Regular nulls) (a : Entity) {k : Key} (hk : k ∈ Key.known) :
    a.ofFields (row k (e.read k)) = a.take e k := by
  have hname : ∀ k ∈ Key.known, Key.ofName k.name = k := by decide
  cases hr : e.read k with
  | none => exact (take_of_none hr).symm
  | some v =>
    change a.write (.ofName k.name) v (.ofJson v) = _
    rw [hname k hk, take_of_some he hk hr]

lemma ofFields_rows {nulls : Prop} {e : Entity} (he : e.Regular nulls) (a : Entity) {keys : List Key}
    (hk : ∀ k ∈ keys, k ∈ Key.known) : a.ofFields (keys.flatMap fun k => row k (e.read k)) = keys.foldl (·.take e) a := by
  induction keys generalizing a with
  | nil => rfl
  | cons k keys ih =>
    obtain ⟨hk, hkeys⟩ := List.forall_mem_cons.mp hk
    rw [List.flatMap_cons, ofFields_append, ofFields_row he a hk, ih _ hkeys, List.foldl_cons]

lemma ofFields_params (a : Entity) (params : Assoc Json) (hnames : ∀ k ∈ params.keys, Key.ofName k = .param k)
    (hkeys : (a.params.keys ++ params.keys).Nodup) : a.ofFields params = { a with params := a.params ++ params } := by
  induction params generalizing a with
  | nil =>
    cases a
    simp [ofFields]
  | cons p params ih =>
    obtain ⟨k, v⟩ := p
    obtain ⟨hk, hnames⟩ := List.forall_mem_cons.mp hnames
    have hnew : k ∉ a.params.keys := fun h => List.disjoint_of_nodup_append hkeys h List.mem_cons_self
    rw [ofFields, hk, write, Assoc.insert_of_not_mem hnew, ih _ hnames]
    · simp
    · simpa [Assoc.keys] using hkeys

end Entity

lemma Node.ofJson_toJson {nulls : Prop} {n : Node} (h : n.Regular nulls) : Node.ofJson n.toJson = n.bare := by
  induction n using Node.induction with
  | leaf n hn => cases n <;> first | rfl | cases hn
  | list items ih =>
    rw [Node.toJson, Node.toItems_eq, Node.ofJson, Node.ofItems_eq, Node.bare_list, List.map_map]
    exact congrArg Node.list (List.map_congr_left fun n hn => ih n hn (Node.all_list.mp h n hn))
  | entity e hcontent hmix =>
    obtain ⟨he, hc, hm⟩ := Entity.all_iff.mp h
    rw [Node.toJson, Node.ofJson, Node.bare, Entity.toFields_eq, Entity.ofFields_append,
      Entity.ofFields_rows he _ (fun _ h => h), Entity.ofFields_params _ _ he.names]
    · have hcontent' : (e.content.map fun c => Node.ofJson c.toJson) = e.content.map Node.bare :=
        Option.map_congr fun c hc' => hcontent c hc' (hc c hc')
      have hmix' : (e.mix.map fun ms => ms.map fun m => Entity.ofJson m.toJson) =
          e.mix.map fun ms => ms.map Entity.bare := by
        refine Option.map_congr fun ms hms => List.map_congr_left fun m hm' => ?_
        exact Node.entity.inj (hmix ms hms m hm' (hm ms hms m hm'))
      simp only [Key.known, Entity.take, Entity.bare_eq, hcontent', hmix', he.hook, List.foldl, Option.or_none]
      cases e.js <;> rfl
    · exact he.keys

lemma Node.bare_ofJson (v : Json) : (Node.ofJson v).bare = .ofJson v := by
  apply Node.bare_of_all
  have hall : (Node.ofJson v).All fun e => e.Regular False ∧ e.fired = [] ∧ e.stopped = false := by
    apply Node.all_ofJson ⟨.empty, rfl, rfl⟩
    intro e name v n ⟨hr, hf, hs⟩
    exact ⟨hr.write name v n, (Entity.fired_write e _ v n).trans hf, (Entity.stopped_write e _ v n).trans hs⟩
  exact hall.mono fun e ⟨hr, hf, hs⟩ => ⟨fun h => hr.js h, hf, hs⟩

lemma Node.regular_ofJson (nulls : Prop) (v : Json) : (Node.ofJson v).Regular nulls :=
  Node.all_ofJson .empty (fun _ name v n h => h.write name v n) v

end Bemjson
