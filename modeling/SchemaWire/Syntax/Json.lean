import SchemaWire.Json.Read
import SchemaWire.Syntax

/-!
# Syntax trees as JSON

Every node is a record of its parts, and a choice between nodes is an object with one field that names
the choice. `Schema.toJson` writes a tree, and `Schema.ofJson?` reads it.
-/

namespace SchemaWire

namespace Span

/-- The JSON form of a span. -/
def toJson (s : Span) : Json :=
  .object [("start", .ofNat s.start), ("end", .ofNat s.stop)]

/-- The span of a JSON form. -/
def ofJson? (j : Json) : Option Span :=
  match j.record? ["start", "end"] with
  | some [some start, some stop] => return ⟨← start.nat?, ← stop.nat?⟩
  | _ => none

end Span

namespace Identifier

/-- The JSON form of a name. -/
def toJson (i : Identifier) : Json :=
  .object [("name", .string i.name), ("span", i.span.toJson)]

/-- The name of a JSON form. -/
def ofJson? (j : Json) : Option Identifier :=
  match j.record? ["name", "span"] with
  | some [some name, some span] => return ⟨← name.string?, ← Span.ofJson? span⟩
  | _ => none

end Identifier

namespace TypePath

/-- The JSON form of a dotted name. -/
def toJson (p : TypePath) : Json :=
  .object [("segments", .array (p.segments.map Identifier.toJson)), ("span", p.span.toJson)]

/-- The dotted name of a JSON form. -/
def ofJson? (j : Json) : Option TypePath :=
  match j.record? ["segments", "span"] with
  | some [some segments, some span] => return ⟨← segments.listOf? Identifier.ofJson?, ← Span.ofJson? span⟩
  | _ => none

end TypePath

namespace Literal

/-- The JSON form of an integer. -/
def toJson (l : Literal) : Json :=
  .object [("value", .ofNat l.value.toNat), ("span", l.span.toJson)]

/-- The integer of a JSON form. -/
def ofJson? (j : Json) : Option Literal :=
  match j.record? ["value", "span"] with
  | some [some value, some span] => return ⟨← value.uint64?, ← Span.ofJson? span⟩
  | _ => none

end Literal

namespace SizedType

/-- The JSON form of a name with a size. -/
def toJson (s : SizedType) : Json :=
  .object [("name", s.name.toJson), ("size", s.size.toJson), ("span", s.span.toJson)]

/-- The name with a size of a JSON form. -/
def ofJson? (j : Json) : Option SizedType :=
  match j.record? ["name", "size", "span"] with
  | some [some name, some size, some span] =>
    return ⟨← Identifier.ofJson? name, ← Literal.ofJson? size, ← Span.ofJson? span⟩
  | _ => none

end SizedType

namespace TypeName

/-- The JSON form of a type name. -/
def toJson : TypeName → Json
  | .path p => .object [("Path", p.toJson)]
  | .sized s => .object [("Sized", s.toJson)]

/-- The type name of a JSON form. -/
def ofJson? (j : Json) : Option TypeName :=
  match j.variant? with
  | some ("Path", some p) => (TypePath.ofJson? p).map .path
  | some ("Sized", some s) => (SizedType.ofJson? s).map .sized
  | _ => none

end TypeName

namespace PropertyType

/-- The JSON form of a property's type. -/
def toJson : PropertyType → Json
  | .single t => .object [("Type", t.toJson)]
  | .vector v => .object [("Vector", .object [("item", v.item.toJson), ("span", v.span.toJson)])]

/-- The property's type of a JSON form. -/
def ofJson? (j : Json) : Option PropertyType :=
  match j.variant? with
  | some ("Type", some t) => (TypeName.ofJson? t).map .single
  | some ("Vector", some v) =>
    match v.record? ["item", "span"] with
    | some [some item, some span] => return .vector ⟨← TypeName.ofJson? item, ← Span.ofJson? span⟩
    | _ => none
  | _ => none

end PropertyType

namespace Comment

/-- The JSON form of a comment. -/
def toJson (c : Comment) : Json :=
  .object [("text", .string c.text), ("span", c.span.toJson)]

/-- The comment of a JSON form. -/
def ofJson? (j : Json) : Option Comment :=
  match j.record? ["text", "span"] with
  | some [some text, some span] => return ⟨← text.string?, ← Span.ofJson? span⟩
  | _ => none

end Comment

namespace Property

/-- The JSON form of a property. -/
def toJson (p : Property) : Json :=
  .object [("key", p.key.toJson), ("optional", .bool p.optional), ("return_type", p.type.toJson),
    ("span", p.span.toJson)]

/-- The property of a JSON form. -/
def ofJson? (j : Json) : Option Property :=
  match j.record? ["key", "optional", "return_type", "span"] with
  | some [some key, some optional, some type, some span] =>
    return ⟨← Identifier.ofJson? key, ← optional.bool?, ← PropertyType.ofJson? type, ← Span.ofJson? span⟩
  | _ => none

end Property

namespace BodyEntry

/-- The JSON form of an entry. -/
def toJson : BodyEntry → Json
  | .comment c => .object [("Comment", c.toJson)]
  | .property p => .object [("Property", p.toJson)]

/-- The entry of a JSON form. -/
def ofJson? (j : Json) : Option BodyEntry :=
  match j.variant? with
  | some ("Comment", some c) => (Comment.ofJson? c).map .comment
  | some ("Property", some p) => (Property.ofJson? p).map .property
  | _ => none

/-- The JSON form of a body. -/
def bodyToJson (body : List BodyEntry) : Json :=
  .array (body.map toJson)

end BodyEntry

namespace Declaration

/-- The JSON form of a declaration. -/
def toJson (d : Declaration) : Json :=
  .object [("ctor", d.ctor.toJson), ("name", d.name.toJson), ("body", BodyEntry.bodyToJson d.body),
    ("span", d.span.toJson)]

/-- The declaration of a JSON form. -/
def ofJson? (j : Json) : Option Declaration :=
  match j.record? ["ctor", "name", "body", "span"] with
  | some [some ctor, some name, some body, some span] =>
    return ⟨← TypePath.ofJson? ctor, ← TypePath.ofJson? name, ← body.listOf? BodyEntry.ofJson?,
      ← Span.ofJson? span⟩
  | _ => none

end Declaration

namespace GroupContainer

/-- The JSON form of a constructor of a group. -/
def toJson (c : GroupContainer) : Json :=
  .object [("name", c.name.toJson), ("body", BodyEntry.bodyToJson c.body), ("span", c.span.toJson)]

/-- The constructor of a JSON form. -/
def ofJson? (j : Json) : Option GroupContainer :=
  match j.record? ["name", "body", "span"] with
  | some [some name, some body, some span] =>
    return ⟨← TypePath.ofJson? name, ← body.listOf? BodyEntry.ofJson?, ← Span.ofJson? span⟩
  | _ => none

end GroupContainer

namespace GroupMember

/-- The JSON form of a member of a group. -/
def toJson : GroupMember → Json
  | .comment c => .object [("Comment", c.toJson)]
  | .container c => .object [("Container", c.toJson)]

/-- The member of a JSON form. -/
def ofJson? (j : Json) : Option GroupMember :=
  match j.variant? with
  | some ("Comment", some c) => (Comment.ofJson? c).map .comment
  | some ("Container", some c) => (GroupContainer.ofJson? c).map .container
  | _ => none

end GroupMember

namespace TypeGroup

/-- The JSON form of a type group. -/
def toJson (g : TypeGroup) : Json :=
  .object [("name", g.name.toJson), ("traits", .array (g.traits.map TypePath.toJson)),
    ("body", .array (g.body.map GroupMember.toJson)), ("span", g.span.toJson)]

/-- The type group of a JSON form. -/
def ofJson? (j : Json) : Option TypeGroup :=
  match j.record? ["name", "traits", "body", "span"] with
  | some [some name, some traits, some body, some span] =>
    return ⟨← Identifier.ofJson? name, ← traits.listOf? TypePath.ofJson?, ← body.listOf? GroupMember.ofJson?,
      ← Span.ofJson? span⟩
  | _ => none

end TypeGroup

namespace Alias

/-- The JSON form of an alias. -/
def toJson (a : Alias) : Json :=
  .object [("name", a.name.toJson), ("target", a.target.toJson), ("span", a.span.toJson)]

/-- The alias of a JSON form. -/
def ofJson? (j : Json) : Option Alias :=
  match j.record? ["name", "target", "span"] with
  | some [some name, some target, some span] =>
    return ⟨← Identifier.ofJson? name, ← TypeName.ofJson? target, ← Span.ofJson? span⟩
  | _ => none

end Alias

namespace TraitDeclaration

/-- The JSON form of a trait. -/
def toJson (t : TraitDeclaration) : Json :=
  .object [("name", t.name.toJson), ("body", BodyEntry.bodyToJson t.body), ("span", t.span.toJson)]

/-- The trait of a JSON form. -/
def ofJson? (j : Json) : Option TraitDeclaration :=
  match j.record? ["name", "body", "span"] with
  | some [some name, some body, some span] =>
    return ⟨← Identifier.ofJson? name, ← body.listOf? BodyEntry.ofJson?, ← Span.ofJson? span⟩
  | _ => none

end TraitDeclaration

namespace Item

/-- The JSON forms of items. -/
def listToJson : List Item → List Json
  | [] => []
  | .comment c :: rest => .object [("Comment", c.toJson)] :: listToJson rest
  | .namespaceBlock name body span :: rest =>
    .object [("Namespace", .object [("name", name.toJson), ("body", .array (listToJson body)),
      ("span", span.toJson)])] :: listToJson rest
  | .typeGroup g :: rest => .object [("TypeGroup", g.toJson)] :: listToJson rest
  | .aliasDecl a :: rest => .object [("Alias", a.toJson)] :: listToJson rest
  | .traitDecl t :: rest => .object [("Trait", t.toJson)] :: listToJson rest
  | .declaration d :: rest => .object [("Declaration", d.toJson)] :: listToJson rest

/-- The item of a JSON form in which namespaces nest at most `levels` deep. -/
def ofJson? (levels : Nat) (j : Json) : Option Item :=
  match levels, j.variant? with
  | _, some ("Comment", some c) => (Comment.ofJson? c).map .comment
  | levels + 1, some ("Namespace", some n) =>
    match n.record? ["name", "body", "span"] with
    | some [some name, some body, some span] =>
      return .namespaceBlock (← Identifier.ofJson? name) (← body.listOf? (ofJson? levels))
        (← Span.ofJson? span)
    | _ => none
  | _, some ("TypeGroup", some g) => (TypeGroup.ofJson? g).map .typeGroup
  | _, some ("Alias", some a) => (Alias.ofJson? a).map .aliasDecl
  | _, some ("Trait", some t) => (TraitDeclaration.ofJson? t).map .traitDecl
  | _, some ("Declaration", some d) => (Declaration.ofJson? d).map .declaration
  | _, _ => none

end Item

namespace Schema

/-- The JSON form of a tree. -/
def toJson (s : Schema) : Json :=
  .object [("body", .array (Item.listToJson s.body)), ("span", s.span.toJson)]

/-- The tree of a JSON form. A namespace lies deeper than the one around it, so the height of the form
bounds their nesting. -/
def ofJson? (j : Json) : Option Schema :=
  match j.record? ["body", "span"] with
  | some [some body, some span] => return ⟨← body.listOf? (Item.ofJson? j.height), ← Span.ofJson? span⟩
  | _ => none

end Schema

end SchemaWire
