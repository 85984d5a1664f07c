import SchemaWire.Session
import SchemaWire.Syntax.Json

/-!
# Trees kept as JSON

A tree is read back from its JSON form as it was, places included and however deep its namespaces nest
(`lower_reloaded`). Each node is read back if its parts are, and the height of a form leaves enough levels for the
namespaces in it (`mapM_ofJson?_listToJson`).
-/

namespace SchemaWire

/-! ## Names and types -/

@[simp] theorem Span.ofJson?_toJson (s : Span) : ofJson? s.toJson = some s := rfl

@[simp] theorem Identifier.ofJson?_toJson (i : Identifier) : ofJson? i.toJson = some i := rfl

@[simp] theorem Comment.ofJson?_toJson (c : Comment) : ofJson? c.toJson = some c := rfl

@[simp] theorem TypePath.ofJson?_toJson (p : TypePath) : ofJson? p.toJson = some p := by
  have hsegments := Json.listOf?_map p.segments fun i _ => i.ofJson?_toJson
  simp [ofJson?, toJson, Fields.get?, List.lookup_cons, hsegments]

@[simp] theorem Literal.ofJson?_toJson (l : Literal) : ofJson? l.toJson = some l := by
  simp [ofJson?, toJson, Fields.get?, List.lookup_cons]

@[simp] theorem SizedType.ofJson?_toJson (s : SizedType) : ofJson? s.toJson = some s := by
  simp [ofJson?, toJson, Fields.get?, List.lookup_cons]

@[simp] theorem TypeName.ofJson?_toJson (t : TypeName) : ofJson? t.toJson = some t := by
  cases t <;> simp [ofJson?, toJson]

@[simp] theorem PropertyType.ofJson?_toJson (t : PropertyType) : ofJson? t.toJson = some t := by
  cases t <;> simp [ofJson?, toJson, Fields.get?, List.lookup_cons]

@[simp] theorem Property.ofJson?_toJson (p : Property) : ofJson? p.toJson = some p := by
  simp [ofJson?, toJson, Fields.get?, List.lookup_cons, Json.bool?]

/-! ## Bodies and what has them -/

@[simp] theorem BodyEntry.ofJson?_toJson (e : BodyEntry) : ofJson? e.toJson = some e := by
  cases e <;> simp [ofJson?, toJson]

@[simp] theorem BodyEntry.listOf?_bodyToJson (body : List BodyEntry) :
    (bodyToJson body).listOf? ofJson? = some body :=
  Json.listOf?_map body fun e _ => e.ofJson?_toJson

@[simp] theorem Declaration.ofJson?_toJson (d : Declaration) : ofJson? d.toJson = some d := by
  simp [ofJson?, toJson, Fields.get?, List.lookup_cons]

@[simp] theorem GroupContainer.ofJson?_toJson (c : GroupContainer) : ofJson? c.toJson = some c := by
  simp [ofJson?, toJson, Fields.get?, List.lookup_cons]

@[simp] theorem GroupMember.ofJson?_toJson (m : GroupMember) : ofJson? m.toJson = some m := by
  cases m <;> simp [ofJson?, toJson]

@[simp] theorem TypeGroup.ofJson?_toJson (g : TypeGroup) : ofJson? g.toJson = some g := by
  have htraits := Json.listOf?_map g.traits fun p _ => p.ofJson?_toJson
  have hbody := Json.listOf?_map g.body fun m _ => m.ofJson?_toJson
  simp [ofJson?, toJson, Fields.get?, List.lookup_cons, htraits, hbody]

@[simp] theorem Alias.ofJson?_toJson (a : Alias) : ofJson? a.toJson = some a := by
  simp [ofJson?, toJson, Fields.get?, List.lookup_cons]

@[simp] theorem TraitDeclaration.ofJson?_toJson (t : TraitDeclaration) : ofJson? t.toJson = some t := by
  simp [ofJson?, toJson, Fields.get?, List.lookup_cons]

/-! ## Items -/

theorem Item.mapM_ofJson?_cons {levels : Nat} {j : Json} {item : Item} {forms : List Json} {items : List Item}
    (hitem : ofJson? levels j = some item) (hrest : forms.mapM (ofJson? levels) = some items) :
    (j :: forms).mapM (ofJson? levels) = some (item :: items) := by
  rw [List.mapM_cons, hitem, hrest]
  rfl

/-- Items are read back with as many levels as their forms are high. -/
theorem Item.mapM_ofJson?_listToJson (items : List Item) {levels : Nat}
    (h : Json.heightItems (listToJson items) ≤ levels) : (listToJson items).mapM (ofJson? levels) = some items := by
  induction items using listToJson.induct generalizing levels with
  | case1 => simp [listToJson]
  | case3 name body span rest ihbody ih =>
    rw [listToJson, Json.heightItems] at h
    rw [listToJson]
    obtain ⟨hform, hrest⟩ := Nat.max_le.mp h
    simp only [Json.height, Json.heightFields] at hform
    obtain ⟨inner, rfl⟩ : ∃ inner, levels = inner + 1 := ⟨levels - 1, by omega⟩
    have hbody : (Json.array (listToJson body)).listOf? (ofJson? inner) = some body := ihbody (by omega)
    refine mapM_ofJson?_cons ?_ (ih hrest)
    simp [ofJson?, Fields.get?, List.lookup_cons, hbody]
  | _ node rest ih =>
    rw [listToJson, Json.heightItems] at h
    rw [listToJson]
    exact mapM_ofJson?_cons (by simp [ofJson?]) (ih (Nat.max_le.mp h).2)

/-- A tree of any depth is the tree of its JSON form. So what is lowered after it was stored gives the model, or the
error at the same places, that it gives at once, and leaves any session the same. -/
theorem Schema.lower_reloaded (tree : Schema) :
    ofJson? tree.toJson = some tree ∧
      ∀ session : Session, (ofJson? tree.toJson).map session.lower = some (session.lower tree) := by
  have hheight : Json.heightItems (Item.listToJson tree.body) ≤ tree.toJson.height := by
    simp only [toJson, Json.height, Json.heightFields]
    omega
  have hbody : (Json.array (Item.listToJson tree.body)).listOf? (Item.ofJson? tree.toJson.height) = some tree.body :=
    Item.mapM_ofJson?_listToJson tree.body hheight
  have htree : ofJson? tree.toJson = some tree := by
    rw [ofJson?]
    rw [toJson] at hbody ⊢
    simp [Fields.get?, List.lookup_cons, hbody]
  exact ⟨htree, fun session => by rw [htree, Option.map_some]⟩

end SchemaWire
