import SchemaWire.Json.Read
import SchemaWire.Model.Container
import SchemaWire.Model.Flags

/-!
# Models as JSON

A model is stored as an object with its containers, and those with their params. Fields of a param that
are missing in it are left out, and may be missing or `null` when it is read.
-/

namespace SchemaWire

/-- The primitive type of a JSON form: its name. -/
def Primitive.ofJson? (j : Json) : Option Primitive :=
  match j.variant? with
  | some (name, none) => ofName? name
  | some (name, some .null) => ofName? name
  | _ => none

namespace Param

/-- A field of a JSON form, unless it is missing. -/
def optionalField {α : Type} (name : String) (f : α → Json) : Option α → List (String × Json)
  | none => []
  | some x => [(name, f x)]

/-- The JSON form of a param. -/
def toJson (p : Param) : Json :=
  .object
    ([("name", .string p.name), ("doc", .ofStrings p.doc), ("type", .string p.flags.text)] ++
      optionalField "genericType" (fun t => .string t.name) p.primitive ++
      optionalField "vectorOf" .string p.vectorOf ++
      optionalField "containerReference" .string p.reference ++
      optionalField "size" (fun n => .ofNat n.toNat) p.size)

/-- The param of a JSON form. -/
def ofJson? (j : Json) : Option Param :=
  match j.record? ["name", "doc", "type", "genericType", "vectorOf", "containerReference", "size"] with
  | some [name, doc, flags, primitive, vectorOf, reference, size] =>
    return ⟨← Json.required? Json.string? name, ← Json.orDefault? [] Json.strings? doc,
      ← Json.required? (fun f => f.string?.bind ParamFlags.ofText?) flags,
      ← Json.nullable? Primitive.ofJson? primitive, ← Json.nullable? Json.string? vectorOf,
      ← Json.nullable? Json.string? reference, ← Json.nullable? Json.uint32? size⟩
  | _ => none

end Param

namespace Container

/-- The JSON form of a container. -/
def toJson (c : Container) : Json :=
  .object [("id", .ofNat c.id.toNat), ("name", .string c.name), ("type", .string c.typeName),
    ("traits", .ofStrings c.traits), ("params", .array (c.params.map Param.toJson)), ("doc", .ofStrings c.doc)]

/-- The container of a JSON form. -/
def ofJson? (j : Json) : Option Container :=
  match j.record? ["id", "name", "type", "traits", "params", "doc"] with
  | some [id, name, typeName, traits, params, doc] =>
    return ⟨← Json.required? Json.uint32? id, ← Json.required? Json.string? name,
      ← Json.required? Json.string? typeName, ← Json.orDefault? [] Json.strings? traits,
      ← Json.orDefault? [] (Json.listOf? Param.ofJson?) params, ← Json.orDefault? [] Json.strings? doc⟩
  | _ => none

end Container

namespace Model

/-- The JSON form of a model. -/
def toJson (m : Model) : Json :=
  .object [("containers", .array (m.containers.map Container.toJson))]

/-- The model of a JSON form. -/
def ofJson? (j : Json) : Option Model :=
  match j.record? ["containers"] with
  | some [containers] => return ⟨← Json.required? (Json.listOf? Container.ofJson?) containers⟩
  | _ => none

end Model

end SchemaWire
