import Bemjson.Proofs.Markup.Attributes

/-! Markup of trees with plain names is well nested, and text in them stays text. -/

namespace Bemjson

open Markup CharRef

section Outline

def Markup.addText (s : List Char) : List Item → List Item
  | .text t :: rest => .text (s ++ t) :: rest
  | items => if s = [] then items else .text s :: items

def Entity.enclose (e : Entity) (o : Options) (inside : List Item → List Item) (rest : List Item) : List Item :=
  if e.tag = some "" then inside rest
  else if o.selfClosing.contains (e.tag.getD "div") then .void (e.tag.getD "div").toList (e.attrItems o) :: rest
  else .element (e.tag.getD "div").toList (e.attrItems o) (inside []) :: rest

mutual

/-- The tags and texts of a tree in front of what comes after it: an element with an empty tag has only what is in it,
and one that closes itself has nothing in it. -/
def Node.outline (o : Options) : Node → List Item → List Item
  | .null | .bool false => id
  | .bool true => addText "true".toList
  | .number n => addText n.toPlainText.toList
  | .text s => addText s.toList
  | .list items => Node.outlineItems o items
  | .entity e => e.outline o

def Node.outlineItems (o : Options) : List Node → List Item → List Item
  | [] => id
  | n :: ns => fun rest => n.outline o (Node.outlineItems o ns rest)

def Entity.outline (o : Options) : Entity → List Item → List Item
  | e@{ content, .. } => e.enclose o (match content with
    | some c => c.outline o
    | none => id)

end

end Outline

section Nested

variable {o : Options} {items : List Item} {cs : List Char}

lemma isTextChar_escapeWith (s : List Char) : ∀ c ∈ escapeWith inText s, IsTextChar c := by
  intro c hc
  constructor
  · rintro rfl
    exact not_mem_escapeWith (by decide) (by decide) (by decide) s hc
  · rintro rfl
    exact not_mem_escapeWith (by decide) (by decide) (by decide) s hc

lemma Markup.Reads.addText (h : Reads items cs) (s : List Char) : Reads (addText s items) (escapeWith inText s ++ cs) := by
  have hnew : ¬StartsWithText items → Reads (if s = [] then items else .text s :: items) (escapeWith inText s ++ cs) := by
    intro hi
    by_cases hs : s = []
    · subst hs
      exact h
    · have hread := Reads.text _ items cs (escapeWith_eq_nil.not.mpr hs) (isTextChar_escapeWith s) hi h
      rw [decode_escapeWith reversible_inText] at hread
      rwa [if_neg hs]
  cases h with
  | text raw items cs hne hraw hi h =>
    have hread := Reads.text (escapeWith inText s ++ raw) items cs (List.append_ne_nil_of_right_ne_nil _ hne)
      (fun c hc => (List.mem_append.mp hc).elim (isTextChar_escapeWith s c) (hraw c)) hi h
    rwa [decode_escapeWith_append reversible_inText, List.append_assoc] at hread
  | nil => exact hnew nofun
  | void => exact hnew nofun
  | element => exact hnew nofun

lemma Entity.reads_enclose (ho : o.Plain) {e : Entity} (he : e.PlainTag) {inside : List Item → List Item}
    {content : Option String}
    (hinside : ∀ {items cs}, Reads items cs → Reads (inside items) ((content.getD "").toList ++ cs))
    (h : Reads items cs) : Reads (e.enclose o inside items) ((e.wrap o content).toList ++ cs) := by
  have hinner : e.inner content = content.getD "" := by
    unfold Entity.inner
    split
    · rename_i html hhtml
      have hempty := he.html
      rw [hhtml, Option.getD_some] at hempty
      simp [hempty]
    · rfl
  unfold enclose
  split
  · rename_i htag
    have hwrap : e.wrap o content = content.getD "" := by
      rw [wrap, htag]
      exact hinner
    rw [hwrap]
    exact hinside h
  · rename_i htag
    have hname : IsName (e.tag.getD "div").toList := by
      cases ht : e.tag with
      | none => decide
      | some tag => exact he.tag tag ht
    have hne : (e.tag.getD "div").toList ≠ [] := by
      cases ht : e.tag with
      | none => decide
      | some tag =>
        rw [ht] at htag
        simpa using htag
    have hattrs := readsAttrs_attributes he ho
    rw [wrap_tag e o content htag, hinner]
    split
    · have hread := Reads.void _ _ _ items cs hname hne hattrs h
      simpa using hread
    · have hread := Reads.element _ _ _ _ _ items cs hname hne hattrs (hinside .nil) h
      simpa using hread

mutual

lemma Node.reads (ho : o.Plain) (n : Node) (hn : n.Plain) {items : List Item} {cs : List Char} (h : Reads items cs) :
    Reads (n.outline o items) ((n.markup o).toList ++ cs) := by
  have htext : ∀ s : String, Reads (addText s.toList items) ((o.writeText s).toList ++ cs) := by
    intro s
    rw [Options.writeText, if_pos ho.escapeText, escapeText, String.toList_ofList]
    exact h.addText s.toList
  cases n with
  | null => exact h
  | bool b =>
    cases b with
    | false => exact h
    | true => exact htext "true"
  | number x => exact htext x.toPlainText
  | text s => exact htext s
  | list ns => exact Node.readsItems ho ns hn h
  | entity e => exact Entity.reads ho e hn h

lemma Node.readsItems (ho : o.Plain) (ns : List Node) (hn : Node.PlainItems ns) {items : List Item} {cs : List Char}
    (h : Reads items cs) : Reads (Node.outlineItems o ns items) (((Node.list ns).markup o).toList ++ cs) := by
  cases ns with
  | nil => exact h
  | cons n ns =>
    have hread := Node.reads ho n hn.1 (Node.readsItems ho ns hn.2 h)
    rw [← List.append_assoc, ← String.toList_append] at hread
    exact hread

lemma Entity.reads (ho : o.Plain) (e : Entity) (he : e.Plain) {items : List Item} {cs : List Char} (h : Reads items cs) :
    Reads (e.outline o items) (((Node.entity e).markup o).toList ++ cs) := by
  rw [Node.markup_entity o e he.plainTag.hook]
  obtain ⟨_, _, _, _, _, _, _, content, _⟩ := e
  cases content with
  | none => exact Entity.reads_enclose ho he.1 (fun h => h) h
  | some c => exact Entity.reads_enclose ho he.1 (fun h => Node.reads ho c he.2 h) h

end

end Nested

section Order

variable {α : Type} (text : List Char → List α) (tag : List Char → Bool → List α)

namespace Markup

mutual

def Item.collect : Item → List α
  | .text s => text s
  | .void name _ => tag name true
  | .element name _ inner => tag name false ++ Item.collectAll inner

def Item.collectAll : List Item → List α
  | [] => []
  | i :: items => i.collect ++ Item.collectAll items

end

def textOf (items : List Item) : List Char := Item.collectAll id (fun _ _ => []) items

def tagsOf (items : List Item) : List (List Char × Bool) := Item.collectAll (fun _ => []) (fun name void => [(name, void)]) items

end Markup

def Entity.collectAround (e : Entity) (o : Options) (inside : List α) : List α :=
  if e.tag = some "" then inside
  else if o.selfClosing.contains (e.tag.getD "div") then tag (e.tag.getD "div").toList true
  else tag (e.tag.getD "div").toList false ++ inside

mutual

def Node.collect (o : Options) : Node → List α
  | .null | .bool false => []
  | .bool true => text "true".toList
  | .number n => text n.toPlainText.toList
  | .text s => text s.toList
  | .list items => Node.collectItems o items
  | .entity e => e.collect o

def Node.collectItems (o : Options) : List Node → List α
  | [] => []
  | n :: ns => n.collect o ++ Node.collectItems o ns

def Entity.collect (o : Options) : Entity → List α
  | e@{ content, .. } => e.collectAround tag o (match content with
    | some c => c.collect o
    | none => [])

end

def Node.leafText (o : Options) (n : Node) : List Char := n.collect id (fun _ _ => []) o

def Node.tags (o : Options) (n : Node) : List (List Char × Bool) := n.collect (fun _ => []) (fun name void => [(name, void)]) o

variable {text tag} {o : Options}

lemma collectAll_enclose {e : Entity} {inside : List Item → List Item} {within : List α}
    (h : ∀ rest, Item.collectAll text tag (inside rest) = within ++ Item.collectAll text tag rest) (rest : List Item) :
    Item.collectAll text tag (e.enclose o inside rest) =
      e.collectAround tag o within ++ Item.collectAll text tag rest := by
  unfold Entity.enclose Entity.collectAround
  split
  · exact h rest
  · split
    · rfl
    · rw [Item.collectAll, Item.collect, h, Item.collectAll, List.append_nil]

structure Joins (text : List Char → List α) : Prop where
  nil : text [] = []
  append : ∀ s t, text (s ++ t) = text s ++ text t

lemma collectAll_addText (htext : Joins text) (s : List Char) (items : List Item) :
    Item.collectAll text tag (addText s items) = text s ++ Item.collectAll text tag items := by
  unfold addText
  split
  · rw [Item.collectAll, Item.collect, htext.append, List.append_assoc]
    rfl
  · split
    · rename_i hs
      rw [hs, htext.nil, List.nil_append]
    · rfl

mutual

lemma collectAll_outline (htext : Joins text) (n : Node) (rest : List Item) :
    Item.collectAll text tag (n.outline o rest) = n.collect text tag o ++ Item.collectAll text tag rest := by
  cases n with
  | null => rfl
  | bool b =>
    cases b with
    | false => rfl
    | true => exact collectAll_addText htext _ rest
  | number x => exact collectAll_addText htext _ rest
  | text s => exact collectAll_addText htext _ rest
  | list ns => exact collectAll_outlineItems htext ns rest
  | entity e => exact collectAll_outlineEntity htext e rest

lemma collectAll_outlineItems (htext : Joins text) (ns : List Node) (rest : List Item) :
    Item.collectAll text tag (Node.outlineItems o ns rest) =
      Node.collectItems text tag o ns ++ Item.collectAll text tag rest := by
  cases ns with
  | nil => rfl
  | cons n ns =>
    rw [Node.outlineItems, collectAll_outline htext n, collectAll_outlineItems htext ns, Node.collectItems,
      List.append_assoc]

lemma collectAll_outlineEntity (htext : Joins text) (e : Entity) (rest : List Item) :
    Item.collectAll text tag (e.outline o rest) = e.collect text tag o ++ Item.collectAll text tag rest := by
  obtain ⟨_, _, _, _, _, _, _, content, _⟩ := e
  cases content with
  | none => exact collectAll_enclose (fun _ => rfl) rest
  | some c => exact collectAll_enclose (collectAll_outline htext c) rest

end

end Order

/-- Markup of a tree with plain names can be read in one way as nested tags and text. The tags are those of the tree,
each closed by one of its name unless it is among those that close themselves, and the text is that of the leaves. -/
theorem markup_nested (o : Options) (n : Node) (ho : o.Plain) (hn : n.Plain) :
    Reads (n.outline o []) (n.markup o).toList ∧ (∀ items, Reads items (n.markup o).toList → items = n.outline o []) ∧
      tagsOf (n.outline o []) = n.tags o ∧ textOf (n.outline o []) = n.leafText o := by
  have hread : Reads (n.outline o []) (n.markup o).toList := by
    have h := Node.reads ho n hn .nil
    rwa [List.append_nil] at h
  refine ⟨hread, fun items h => ?_, ?_, ?_⟩
  · exact (h.unique hread (Or.inl rfl) (Or.inl rfl) rfl).1
  · have htext : Joins fun _ => ([] : List (List Char × Bool)) := ⟨rfl, fun _ _ => rfl⟩
    exact (collectAll_outline htext n []).trans (List.append_nil _)
  · have htext : Joins (id : List Char → List Char) := ⟨rfl, fun _ _ => rfl⟩
    exact (collectAll_outline htext n []).trans (List.append_nil _)

def bracketed : Node :=
  .list [.text "1 < 2", .bool true,
    .entity { block := some "p", attrs := some [("title", .string "\"<b>\"")], content := some (.entity { tag := some "br" }) }]

theorem markup_nested_bracketed : Options.Plain {} ∧ bracketed.Plain ∧
    bracketed.markup {} = "1 &lt; 2true<div class=\"p\" title=\"&quot;<b>&quot;\"><br/></div>" ∧
    ∀ items, Reads items (bracketed.markup {}).toList →
      items = [.text "1 < 2true".toList, .element "div".toList
        [⟨"class".toList, some "p".toList⟩, ⟨"title".toList, some "\"<b>\"".toList⟩] [.void "br".toList []]] := by
  have ho : Options.Plain {} := ⟨rfl, by decide, by decide, by decide, by decide⟩
  have hn : bracketed.Plain := by
    refine ⟨trivial, trivial, ⟨?_, ⟨?_, trivial⟩⟩, trivial⟩
    · refine ⟨rfl, rfl, nofun, by decide, nofun, ⟨?_, nofun, nofun⟩, nofun⟩
      rintro _ ⟨⟩
      decide
    · refine ⟨rfl, rfl, ?_, nofun, nofun, ⟨nofun, nofun, nofun⟩, nofun⟩
      rintro _ ⟨⟩
      decide
  exact ⟨ho, hn, rfl, fun items h => (markup_nested {} bracketed ho hn).2.1 items h⟩

end Bemjson
