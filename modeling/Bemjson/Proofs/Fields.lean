import Bemjson.Proofs.RoundTrip.Rows

namespace Bemjson

namespace Assoc

variable {α : Type} {m m' : Assoc α}

lemma insert_insert (m : Assoc α) (key : String) (a b : α) : (m.insert key a).insert key b = m.insert key b := by
  induction m with
  | nil => simp [Assoc.insert]
  | cons p m ih =>
    obtain ⟨k, v⟩ := p
    by_cases hk : k = key <;> simp [Assoc.insert, hk, ih]

lemma nodup_insert (h : m.keys.Nodup) (key : String) (a : α) : (m.insert key a).keys.Nodup := by
  rw [keys_insert]
  split
  · exact h
  · rename_i hnew
    simpa using h.concat hnew

lemma perm_of_get? (h : m.keys.Nodup) (h' : m'.keys.Nodup) (hget : ∀ key, m.get? key = m'.get? key) : m.Perm m' := by
  refine (List.perm_ext_iff_of_nodup h.of_map h'.of_map).mpr fun p => ?_
  rw [← get?_eq_some h, ← get?_eq_some h', hget]

end Assoc

namespace Key

lemma name_ofName (s : String) : (ofName s).name = s := by
  rw [ofName]
  cases h : known.find? fun k => k.name == s with
  | none => rfl
  | some k =>
    have hk := List.find?_some h
    exact eq_of_beq hk

lemma ofName_ne {s t : String} (h : s ≠ t) : ofName s ≠ ofName t := fun he => h <| by
  rw [← name_ofName s, he, name_ofName]

end Key

namespace Entity

def SameFields (e e' : Entity) : Prop := ∃ params, e' = { e with params } ∧ e.params.Perm params

section SameFields

variable {a b c : Entity}

lemma SameFields.refl (e : Entity) : e.SameFields e := ⟨e.params, by cases e; rfl, .refl _⟩

lemma SameFields.trans (h : a.SameFields b) (h' : b.SameFields c) : a.SameFields c := by
  obtain ⟨_, rfl, hp⟩ := h
  obtain ⟨_, rfl, hp'⟩ := h'
  exact ⟨_, rfl, hp.trans hp'⟩

end SameFields

section Writes

variable {e e' : Entity} {key other : Key} {v w : Json} {n m : Node}

lemma read_write_of_ne (h : key ≠ other) : (e.write key v n).read other = e.read other := by
  cases key with
  | param s =>
    cases other with
    | param t =>
      have hne : s ≠ t := fun he => h (congrArg Key.param he)
      exact (Assoc.get?_insert e.params s t v).trans (if_neg hne)
    | _ => rfl
  | _ => cases other <;> first | rfl | exact absurd rfl h

lemma write_write (e : Entity) (key : Key) (v w : Json) (n m : Node) :
    (e.write key v n).write key w m = e.write key w m := by
  cases key with
  | param s => rw [write, write, write, Assoc.insert_insert]
  | _ => rfl

lemma nodup_write (h : e.params.keys.Nodup) (key : Key) (v : Json) (n : Node) : (e.write key v n).params.keys.Nodup := by
  cases key with
  | param s => exact Assoc.nodup_insert h s v
  | _ => exact h

lemma write_comm (hn : e.params.keys.Nodup) (h : key ≠ other) :
    ((e.write key v n).write other w m).SameFields ((e.write other w m).write key v n) := by
  cases key with
  | param s =>
    cases other with
    | param t =>
      have hne : s ≠ t := fun he => h (congrArg Key.param he)
      refine ⟨_, rfl, Assoc.perm_of_get? ?_ ?_ fun k => ?_⟩
      · exact Assoc.nodup_insert (Assoc.nodup_insert hn s v) t w
      · exact Assoc.nodup_insert (Assoc.nodup_insert hn t w) s v
      · simp only [write, Assoc.get?_insert]
        by_cases hs : s = k
        · subst hs
          simp [hne.symm]
        · simp [hs]
    | _ => exact .refl _
  | _ => cases other <;> first | exact .refl _ | exact absurd rfl h

lemma SameFields.write (h : e.SameFields e') (hn : e.params.keys.Nodup) (key : Key) (v : Json) (n : Node) :
    (e.write key v n).SameFields (e'.write key v n) := by
  obtain ⟨params, rfl, hp⟩ := h
  cases key with
  | param s =>
    have hn' := (hp.map Prod.fst).nodup hn
    refine ⟨_, rfl, Assoc.perm_of_get? (Assoc.nodup_insert hn s v) (Assoc.nodup_insert hn' s v) fun k => ?_⟩
    simp only [Entity.write, Assoc.get?_insert, Assoc.get?_perm hp hn]
  | _ => exact ⟨_, rfl, hp⟩

end Writes

section Given

variable {fields fields' : List (String × Json)}

lemma ofJson_eq (v : Json) : ofJson v = ofFields {} (v.fields?.getD []) := rfl

lemma setField_ofFields (e : Entity) (fields : List (String × Json)) (name : String) (v : Json) :
    (e.ofFields fields).setField name v = e.ofFields (fields ++ [(name, v)]) := by
  rw [ofFields_append]
  rfl

lemma nodup_ofFields (fields : List (String × Json)) : (ofFields {} fields).params.keys.Nodup :=
  (all_iff.mp (Node.regular_ofJson False (.object fields))).1.keys

lemma SameFields.ofFields {e e' : Entity} (h : e.SameFields e') (hn : e.params.keys.Nodup)
    (fields : List (String × Json)) : (e.ofFields fields).SameFields (e'.ofFields fields) := by
  induction fields generalizing e e' with
  | nil => exact h
  | cons f fields ih => exact ih (h.write hn _ _ _) (nodup_write hn _ _ _)

lemma ofFields_perm {e : Entity} (hn : e.params.keys.Nodup) (hp : fields.Perm fields')
    (hkeys : (Assoc.keys fields).Nodup) : (e.ofFields fields).SameFields (e.ofFields fields') := by
  induction hp generalizing e with
  | nil => exact .refl e
  | cons f _ ih => exact ih (nodup_write hn _ _ _) (List.nodup_cons.mp hkeys).2
  | swap f g fields =>
    have hne : g.1 ≠ f.1 := fun he => (List.nodup_cons.mp hkeys).1 (he ▸ List.mem_cons_self)
    have hcomm := write_comm (v := g.2) (w := f.2) (n := .ofJson g.2) (m := .ofJson f.2) hn (Key.ofName_ne hne)
    exact hcomm.ofFields (nodup_write (nodup_write hn _ _ _) _ _ _) fields
  | trans hp _ ih ih' => exact (ih hn hkeys).trans (ih' hn ((hp.map Prod.fst).nodup hkeys))

lemma take_self (fields : List (String × Json)) (key : Key) :
    (ofFields {} fields).take (ofFields {} fields) key = ofFields {} fields := by
  have hregular : (ofFields {} fields).All (Regular False) := Node.regular_ofJson False (.object fields)
  have hbare : (ofFields {} fields).bare = ofFields {} fields := Node.entity.inj (Node.bare_ofJson (.object fields))
  generalize ofFields {} fields = e at hregular hbare
  obtain ⟨-, hc, hm⟩ := all_iff.mp hregular
  rw [bare_eq] at hbare
  cases key with
  | content =>
    have hback : (e.content.map fun c => Node.ofJson c.toJson) = e.content :=
      (Option.map_congr fun c hc' => Node.ofJson_toJson (hc c hc')).trans (congrArg content hbare)
    rw [take, hback, Option.or_self]
    cases e
    rfl
  | mix =>
    have hback : (e.mix.map fun ms => ms.map fun m => ofJson m.toJson) = e.mix := by
      refine Eq.trans (Option.map_congr fun ms hms => List.map_congr_left fun m hm' => ?_) (congrArg mix hbare)
      exact Node.entity.inj (Node.ofJson_toJson (n := .entity m) (hm ms hms m hm'))
    rw [take, hback, Option.or_self]
    cases e
    rfl
  | js =>
    have hback : (e.js.map Json.present).getD e.js = e.js := by
      have hjs := congrArg js hbare
      cases he : e.js with
      | none => rfl
      | some v =>
        rw [he] at hjs
        exact hjs
    rw [take, hback]
    cases e
    rfl
  | param s => rfl
  | _ => cases e; simp [take]

lemma write_read {key : Key} {v : Json} (h : (ofFields {} fields).read key = some v) :
    (ofFields {} fields).write key v (.ofJson v) = ofFields {} fields := by
  have hregular : (ofFields {} fields).Regular False := (all_iff.mp (Node.regular_ofJson False (.object fields))).1
  cases key with
  | param s =>
    have hinsert := Assoc.insert_self (m := (ofFields {} fields).params) h
    generalize ofFields {} fields = e at hinsert
    rw [write, hinsert]
    cases e
    rfl
  | _ => exact (take_of_some hregular (by decide) h).symm.trans (take_self fields _)

lemma field_setField_of_ne {e : Entity} {name other : String} (h : other ≠ name) (v : Json) :
    (e.setField name v).field other = e.field other :=
  read_write_of_ne (Key.ofName_ne h.symm)

lemma setField_setField (e : Entity) (name : String) (v w : Json) :
    (e.setField name v).setField name w = e.setField name w :=
  write_write e _ v w _ _

end Given

/-- Of an entity that JSON gives: a write changes no other field, the last write of a field counts, to write what is read
at a field changes nothing, so what a write makes of its value is kept by a second one, and the order of writes to
different fields, or of the keys of the whole object, is seen in the order of unknown fields only. -/
theorem setField_laws (v : Json) (name : String) (x : Json) :
    (∀ other, other ≠ name → ((ofJson v).setField name x).field other = (ofJson v).field other) ∧
    (∀ y, ((ofJson v).setField name x).setField name y = (ofJson v).setField name y) ∧
    (∀ y, (ofJson v).field name = some y → (ofJson v).setField name y = ofJson v) ∧
    (∀ y, ((ofJson v).setField name x).field name = some y →
      ((ofJson v).setField name x).setField name y = (ofJson v).setField name x ∧
      (ofJson v).setField name y = (ofJson v).setField name x) ∧
    (∀ other y, other ≠ name →
      (((ofJson v).setField name x).setField other y).SameFields (((ofJson v).setField other y).setField name x)) ∧
    ∀ fields fields', (Assoc.keys fields).Nodup → fields'.Perm fields →
      (ofJson (.object fields)).SameFields (ofJson (.object fields')) := by
  refine ⟨fun other h => field_setField_of_ne h x, fun y => setField_setField _ name x y, fun y h => write_read h,
    fun y h => ?_, fun other y h => ?_, fun fields fields' hkeys hp => ?_⟩
  · have hback : ((ofJson v).setField name x).setField name y = (ofJson v).setField name x := by
      rw [ofJson_eq, setField_ofFields] at h ⊢
      exact write_read h
    exact ⟨hback, (setField_setField _ name x y).symm.trans hback⟩
  · exact write_comm (nodup_ofFields _) (Key.ofName_ne h.symm)
  · exact ofFields_perm List.nodup_nil hp.symm hkeys

section Assorted

def assorted : List (String × Json) :=
  [("url", .null), ("tag", .bool false), ("block", .number (.int 7)), ("elem", .string ""), ("js", .null),
    ("mix", .array [.null, .array [.object [("block", .string "m"), ("note", .null)]]]),
    ("content", .array [.string "x", .object [("elem", .string "e"), ("js", .bool true)]]), ("alt", .bool true)]

theorem setField_laws_assorted :
    (Assoc.keys assorted).Nodup ∧
    (ofJson (.object assorted)).field "block" = some (.string "7") ∧
    (ofJson (.object assorted)).setField "block" (.string "7") = ofJson (.object assorted) ∧
    ((ofJson (.object assorted)).setField "elem" (.bool true)).field "mix" =
      some (.array [.object [("block", .string "m"), ("note", .null)]]) ∧
    (ofJson (.object assorted)).SameFields (ofJson (.object assorted.reverse)) ∧
    (ofJson (.object assorted)).params.keys = ["url", "alt"] ∧
    (ofJson (.object assorted.reverse)).params.keys = ["alt", "url"] := by
  obtain ⟨hframe, -, hread, -, -, hperm⟩ := setField_laws (.object assorted) "block" .null
  obtain ⟨hother, -⟩ := setField_laws (.object assorted) "elem" (.bool true)
  have hkeys : (Assoc.keys assorted).Nodup := by decide
  exact ⟨hkeys, rfl, hread _ rfl, (hother "mix" (by decide)).trans rfl,
    hperm _ _ hkeys (List.reverse_perm assorted), rfl, rfl⟩

end Assorted

end Entity

end Bemjson
