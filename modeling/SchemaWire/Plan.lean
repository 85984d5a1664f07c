import SchemaWire.Keyed
import SchemaWire.Model.Json

/-!
# Build plans

A generator of program text from a model writes one file for each constructor and each type, one for
vectors and an index. A plan says which files these are and what is to be said in each; how it is said is
left to a template.
-/

namespace SchemaWire

/-- What a planned file is about. -/
inductive PlanKind
  | constructor
  | type
  | vector
  | index
  deriving DecidableEq, Repr

/-- The name of a kind of files. -/
def PlanKind.name : PlanKind → String
  | .constructor => "constructor"
  | .type => "type"
  | .vector => "vector"
  | .index => "index"

/-- A file to be generated: its path without an extension, and what its template is given. -/
structure PlannedFile where
  path : String
  kind : PlanKind
  context : Json
  deriving Repr

/-- The JSON form of a planned file. -/
def PlannedFile.toJson (f : PlannedFile) : Json :=
  .object [("path", .string f.path), ("kind", .string f.kind.name), ("context", f.context)]

namespace Plan

/-- The path of a name in a directory of the space. -/
def path (space directory name : String) : String :=
  if space.isEmpty then directory ++ "/" ++ name else space ++ "/" ++ directory ++ "/" ++ name

/-- The path of a constructor's file. -/
def constructorPath (space : String) (c : Container) : String :=
  path space "constructors" c.name

/-- The path of a type's file. -/
def typePath (space typeName : String) : String :=
  path space "types" typeName

/-- The path of the index. -/
def indexPath (space : String) : String :=
  if space.isEmpty then "index" else space ++ "/index"

/-- A name inside the space. -/
def qualified (space name : String) : String :=
  if space.isEmpty then name else space ++ "." ++ name

/-- The ids that a reference may lead to: that of the first container of this name, or else those of all
containers of this type or with this trait. -/
def possibleIds (containers : List Container) (reference : String) : List UInt32 :=
  match containers.find? (·.name == reference) with
  | some c => [c.id]
  | none => (containers.filter fun c => c.typeName == reference || c.implements reference).map Container.id

/-- Ids as JSON. -/
def idsJson (ids : List UInt32) : Json :=
  .array (ids.map fun id => .ofNat id.toNat)

/-- What is said of the layout of a param. -/
def shapeContext (containers : List Container) : Option Shape → List (String × Json)
  | some (.primitive type) => [("kind", .string "generic"), ("type", .string type.name)]
  | some (.strict type size) =>
    [("kind", .string "generic"), ("type", .string type.name), ("size", .ofNat size.toNat)]
  | some (.vector (.primitive type)) => [("kind", .string "vector"), ("type", .string type.name)]
  | some (.vector (.container name)) =>
    [("kind", .string "vector"), ("type", .string name), ("possibleIds", idsJson (possibleIds containers name))]
  | some (.reference name) =>
    [("kind", .string "reference"), ("type", .string name),
      ("possibleIds", idsJson (possibleIds containers name))]
  | none => [("kind", .string "invalid")]

/-- What is said of a param. -/
def paramContext (containers : List Container) (p : Param) : Json :=
  .object
    ([("key", .string p.name), ("optional", .bool p.isOptional), ("doc", .ofStrings p.doc)] ++
      shapeContext containers p.shape?)

/-- The file of a constructor. -/
def constructorFile (space : String) (containers : List Container) (c : Container) : PlannedFile :=
  ⟨constructorPath space c, .constructor,
    .object [("namespace", .string space), ("container", c.toJson),
      ("qualifiedName", .string (qualified space c.name)), ("typePath", .string (typePath space c.typeName)),
      ("params", .array (c.params.map (paramContext containers)))]⟩

/-- The types of containers, in the order of their first constructors, each with the ids of all its
constructors. -/
def types (containers : List Container) : Keyed String (List UInt32) :=
  containers.foldl (fun types c => types.push c.typeName c.id) []

/-- The file of a type. -/
def typeFile (space : String) (type : String × List UInt32) : PlannedFile :=
  ⟨typePath space type.1, .type,
    .object [("namespace", .string space), ("type", .string (qualified space type.1)),
      ("possibleIds", idsJson type.2)]⟩

/-- The file of vectors. -/
def vectorFile : PlannedFile :=
  ⟨"Vector", .vector, .object [("generics", .ofStrings (Primitive.all.map Primitive.name))]⟩

/-- The index of all constructors. -/
def indexFile (space : String) (containers : List Container) : PlannedFile :=
  ⟨indexPath space, .index,
    .object [("namespace", .string space),
      ("constructors", .array (containers.map fun c =>
        .object [("name", .string (qualified space c.name)), ("path", .string (constructorPath space c))]))]⟩

/-- The files for the containers of one space: constructors and types, in the order of the containers, then
vectors, then the index. -/
def files (space : String) (containers : List Container) : List PlannedFile :=
  containers.map (constructorFile space containers) ++ (types containers).map (typeFile space) ++
    [vectorFile, indexFile space containers]

/-- The paths and texts of planned files, up to the first one that has no text. -/
def render {ε : Type} (template : PlannedFile → Except ε String) (planned : List PlannedFile) :
    Except ε (List (String × String)) :=
  planned.mapM fun f => (template f).map fun text => (f.path, text)

end Plan

end SchemaWire
