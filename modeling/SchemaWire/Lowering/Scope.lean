import SchemaWire.Lowering.Alias
import SchemaWire.Lowering.Docs
import SchemaWire.Model.Container

/-!
# Scopes

A schema is lowered from the inside out. The items of a namespace give a scope with names relative to the
namespace. When the namespace closes, the references in the scope that name something declared there are
qualified by the namespace's name, and so are the declared names themselves. Done at every level, this
binds a reference in the innermost namespace around it that declares its name.
-/

namespace SchemaWire

/-- A declared trait, with the params that it announces. -/
structure Trait where
  name : String
  params : List Param
  deriving DecidableEq, Repr

/-- What a namespace declares, under names relative to it. Each container comes with the place of its
name. -/
structure Scope where
  containers : List (Container × Span)
  traits : List Trait
  deriving DecidableEq, Repr

namespace Scope

/-- The scope that declares nothing. -/
def empty : Scope := ⟨[], []⟩

/-- The declarations of both scopes. -/
def append (s t : Scope) : Scope :=
  ⟨s.containers ++ t.containers, s.traits ++ t.traits⟩

/-- Whether the scope declares a constructor, a type or a trait of the name. -/
def declares (s : Scope) (name : String) : Bool :=
  s.containers.any (fun (c, _) => c.name == name || c.typeName == name) || s.traits.any (·.name == name)

/-- A name inside a namespace. -/
def qualified (spaceName name : String) : String :=
  spaceName ++ "." ++ name

/-- A reference, qualified if it names something declared in the scope. -/
def qualifyReference (s : Scope) (spaceName reference : String) : String :=
  if s.declares reference then qualified spaceName reference else reference

/-- A param with its references qualified. A primitive type's name refers to nothing. -/
def qualifyParam (s : Scope) (spaceName : String) (p : Param) : Param :=
  { p with
    reference := p.reference.map (s.qualifyReference spaceName)
    vectorOf := p.vectorOf.map fun item =>
      if (Primitive.ofName? item).isNone then s.qualifyReference spaceName item else item }

/-- A container of the scope, as it is named outside the namespace. -/
def qualifyContainer (s : Scope) (spaceName : String) (c : Container) : Container :=
  { c with
    name := qualified spaceName c.name
    typeName := qualified spaceName c.typeName
    traits := c.traits.map (s.qualifyReference spaceName)
    params := c.params.map (s.qualifyParam spaceName) }

/-- A trait of the scope, as it is named outside the namespace. -/
def qualifyTrait (s : Scope) (spaceName : String) (t : Trait) : Trait :=
  ⟨qualified spaceName t.name, t.params.map (s.qualifyParam spaceName)⟩

/-- The scope of a namespace, as it is seen from outside. -/
def enclose (s : Scope) (spaceName : String) : Scope :=
  ⟨s.containers.map fun (c, place) => (s.qualifyContainer spaceName c, place),
    s.traits.map (s.qualifyTrait spaceName)⟩

section Congruence

variable {s u : Scope} (h : s.declares = u.declares)
include h

theorem qualifyReference_congr : s.qualifyReference = u.qualifyReference := by
  funext spaceName reference
  rw [qualifyReference, qualifyReference, h]

theorem qualifyParam_congr : s.qualifyParam = u.qualifyParam := by
  funext spaceName p
  rw [qualifyParam, qualifyParam, qualifyReference_congr h]

end Congruence

end Scope

namespace AliasTable

/-- The layout of a property. -/
def shape (t : AliasTable) : PropertyType → Except LoweringError Shape
  | .single type => do
    match ← t.resolve type with
    | .primitive p => return .primitive p
    | .strict p size => return .strict p size
    | .reference name => return .reference name
  | .vector v => do
    match ← t.resolve v.item with
    | .primitive p => return .vector (.primitive p)
    | .strict p size => throw (.sizedItem p size v.item.span)
    | .reference name => return .vector (.container name)

/-- The param of a property. -/
def lowerProperty (t : AliasTable) (doc : List String) (p : Property) : Except LoweringError Param := do
  let shape ← t.shape p.type
  return { (Param.ofShape p.key.name shape).setOptional p.optional with doc }

/-- The params of a body. `pending` are the entries of the comments right before it. -/
def lowerBody (t : AliasTable) (pending : List String) : List BodyEntry → Except LoweringError (List Param)
  | [] => return []
  | .comment c :: rest => t.lowerBody (Docs.collect pending c.text) rest
  | .property p :: rest => do
    let param ← t.lowerProperty pending p
    return param :: (← t.lowerBody [] rest)

/-- The container of a declaration. -/
def lowerDeclaration (t : AliasTable) (doc : List String) (d : Declaration) : Except LoweringError Container := do
  let params ← t.lowerBody [] d.body
  return ((Container.make d.ctor.dotted d.name.dotted).withParams params).withDoc doc

/-- The containers of a type group's members. Each has the group's documentation before its own. -/
def lowerMembers (t : AliasTable) (typeName : String) (traits groupDoc pending : List String) :
    List GroupMember → Except LoweringError (List (Container × Span))
  | [] => return []
  | .comment c :: rest => t.lowerMembers typeName traits groupDoc (Docs.collect pending c.text) rest
  | .container c :: rest => do
    let params ← t.lowerBody [] c.body
    let container :=
      (((Container.make c.name.dotted typeName).withTraits traits).withParams params).withDoc (groupDoc ++ pending)
    return (container, c.name.span) :: (← t.lowerMembers typeName traits groupDoc [] rest)

/-- The containers of a type group. -/
def lowerGroup (t : AliasTable) (doc : List String) (g : TypeGroup) :
    Except LoweringError (List (Container × Span)) :=
  t.lowerMembers g.name.name (g.traits.map TypePath.dotted) doc [] g.body

/-- The trait of a declaration. -/
def lowerTrait (t : AliasTable) (d : TraitDeclaration) : Except LoweringError Trait := do
  return ⟨d.name.name, ← t.lowerBody [] d.body⟩

/-- The scope of a list of items. -/
def lowerItems (t : AliasTable) (pending : List String) : List Item → Except LoweringError Scope
  | [] => return .empty
  | .comment c :: rest => t.lowerItems (Docs.collect pending c.text) rest
  | .declaration d :: rest => do
    let container ← t.lowerDeclaration pending d
    return Scope.append ⟨[(container, d.ctor.span)], []⟩ (← t.lowerItems [] rest)
  | .typeGroup g :: rest => do
    let members ← t.lowerGroup pending g
    return Scope.append ⟨members, []⟩ (← t.lowerItems [] rest)
  | .namespaceBlock name body _ :: rest => do
    let inner ← t.lowerItems [] body
    return (inner.enclose name.name).append (← t.lowerItems [] rest)
  | .traitDecl d :: rest => do
    let declared ← t.lowerTrait d
    return Scope.append ⟨[], [declared]⟩ (← t.lowerItems [] rest)
  | .aliasDecl _ :: rest => t.lowerItems [] rest

end AliasTable

end SchemaWire
