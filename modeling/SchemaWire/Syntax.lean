import SchemaWire.Span

/-!
# Syntax trees

The tree of a schema source records what was written, comments and order included. Names are not resolved
here and aliases not expanded. Every node knows the span of source that it was read from.
-/

namespace SchemaWire

/-- A name. -/
structure Identifier where
  name : String
  span : Span
  deriving DecidableEq, Repr

/-- A dotted name, `posts.Comment`. -/
structure TypePath where
  segments : List Identifier
  span : Span
  deriving DecidableEq, Repr

/-- An integer, as sizes use it. -/
structure Literal where
  value : UInt64
  span : Span
  deriving DecidableEq, Repr

/-- A name with a size, `bytes[32]`. -/
structure SizedType where
  name : Identifier
  size : Literal
  span : Span
  deriving DecidableEq, Repr

/-- What a property, a vector or an alias names: a dotted name or a sized one. -/
inductive TypeName
  | path (path : TypePath)
  | sized (sized : SizedType)
  deriving DecidableEq, Repr

/-- `Vector<item>`. -/
structure VectorType where
  item : TypeName
  span : Span
  deriving DecidableEq, Repr

/-- The type of a property. -/
inductive PropertyType
  | single (type : TypeName)
  | vector (type : VectorType)
  deriving DecidableEq, Repr

/-- `key?: type`. -/
structure Property where
  key : Identifier
  optional : Bool
  type : PropertyType
  span : Span
  deriving DecidableEq, Repr

/-- A comment, by the text between its delimiters. -/
structure Comment where
  text : String
  span : Span
  deriving DecidableEq, Repr

/-- An entry of a container body. -/
inductive BodyEntry
  | comment (comment : Comment)
  | property (property : Property)
  deriving DecidableEq, Repr

/-- A container on its own: `ctor : name body` or `name ctor body`. -/
structure Declaration where
  /-- The constructor's name. -/
  ctor : TypePath
  /-- The type's name. -/
  name : TypePath
  body : List BodyEntry
  span : Span
  deriving DecidableEq, Repr

/-- A constructor inside a type group. -/
structure GroupContainer where
  name : TypePath
  body : List BodyEntry
  span : Span
  deriving DecidableEq, Repr

/-- A member of a type group. -/
inductive GroupMember
  | comment (comment : Comment)
  | container (container : GroupContainer)
  deriving DecidableEq, Repr

/-- `type name implements traits { body }`. The constructors in the body share the type's name. -/
structure TypeGroup where
  name : Identifier
  traits : List TypePath
  body : List GroupMember
  span : Span
  deriving DecidableEq, Repr

/-- `alias name = target`. -/
structure Alias where
  name : Identifier
  target : TypeName
  span : Span
  deriving DecidableEq, Repr

/-- `trait name;` or `trait name { body }`. -/
structure TraitDeclaration where
  name : Identifier
  body : List BodyEntry
  span : Span
  deriving DecidableEq, Repr

/-- What may stand at the top of a source or inside a namespace. -/
inductive Item
  | comment (comment : Comment)
  /-- `namespace name { body }`. -/
  | namespaceBlock (name : Identifier) (body : List Item) (span : Span)
  | typeGroup (group : TypeGroup)
  | aliasDecl (declaration : Alias)
  | traitDecl (declaration : TraitDeclaration)
  | declaration (declaration : Declaration)
  deriving Repr

/-- The tree of a whole source. -/
structure Schema where
  body : List Item
  span : Span
  deriving Repr

/-- The segments, joined by dots. -/
def TypePath.dotted (p : TypePath) : String :=
  ".".intercalate (p.segments.map Identifier.name)

/-- Whether the name has no dot. -/
def TypePath.isSimple (p : TypePath) : Bool :=
  p.segments.length == 1

namespace TypeName

/-- Where the name was written. -/
def span : TypeName → Span
  | .path p => p.span
  | .sized s => s.span

/-- The name as it is written. -/
def display : TypeName → String
  | .path p => p.dotted
  | .sized s => s!"{s.name.name}[{s.size.value.toNat}]"

end TypeName

/-- Where the type was written. -/
def PropertyType.span : PropertyType → Span
  | .single t => t.span
  | .vector v => v.span

/-- The type's name, or that of a vector's items. -/
def PropertyType.item : PropertyType → TypeName
  | .single t => t
  | .vector v => v.item

/-- The type names in a body, in order. -/
def BodyEntry.typeNames : List BodyEntry → List TypeName :=
  List.filterMap fun
    | .comment _ => none
    | .property p => some p.type.item

namespace Item

/-- Where the item was written. -/
def span : Item → Span
  | .comment c => c.span
  | .namespaceBlock _ _ span => span
  | .typeGroup g => g.span
  | .aliasDecl a => a.span
  | .traitDecl t => t.span
  | .declaration d => d.span

/-- The items of a list and of all namespaces in it, each namespace before its contents. -/
def flatten : List Item → List Item
  | [] => []
  | .namespaceBlock name body span :: rest => .namespaceBlock name body span :: flatten body ++ flatten rest
  | item :: rest => item :: flatten rest

/-- The type names in an item, without those in the items of a namespace. -/
def typeNames : Item → List TypeName
  | .comment _ => []
  | .namespaceBlock .. => []
  | .typeGroup g => g.body.flatMap fun
    | .comment _ => []
    | .container c => BodyEntry.typeNames c.body
  | .aliasDecl a => [a.target]
  | .traitDecl t => BodyEntry.typeNames t.body
  | .declaration d => BodyEntry.typeNames d.body

end Item

end SchemaWire
