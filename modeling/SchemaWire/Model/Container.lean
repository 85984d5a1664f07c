import SchemaWire.Model.Crc32
import SchemaWire.Model.Param

/-!
# Containers and models

A container is a record type in its compiled form. Its signature spells out its names, traits and params,
but not its documentation, and its id is the checksum of the signature.
-/

namespace SchemaWire

/-- A constructor: the shape of one kind of record. -/
structure Container where
  id : UInt32
  /-- The full name of the constructor. -/
  name : String
  /-- The full name of its type, which other constructors may share. -/
  typeName : String
  traits : List String
  params : List Param
  doc : List String
  deriving DecidableEq, Repr

/-- A compiled list of containers. -/
structure Model where
  containers : List Container
  deriving DecidableEq, Repr

namespace Container

/-- The text that identifies the structure of a container. -/
def signature (c : Container) : String :=
  c.name ++ ":" ++ c.typeName ++
    (if c.traits.isEmpty then "" else " implements " ++ ",".intercalate c.traits) ++ " " ++
    " ".intercalate (c.params.map Param.signature)

/-- The checksum of the signature. -/
def computeId (c : Container) : UInt32 :=
  Crc32.checksum (Utf8.ofString c.signature)

/-- The container with the id that its signature gives. -/
def assignId (c : Container) : Container :=
  { c with id := c.computeId }

/-- A container without traits, params and documentation. -/
def make (name typeName : String) : Container :=
  assignId ⟨0, name, typeName, [], [], []⟩

/-- The container with other traits, and the id that follows. -/
def withTraits (c : Container) (traits : List String) : Container :=
  assignId { c with traits }

/-- The container with other params, and the id that follows. -/
def withParams (c : Container) (params : List Param) : Container :=
  assignId { c with params }

/-- The container with other documentation. -/
def withDoc (c : Container) (doc : List String) : Container :=
  { c with doc }

/-- Whether the container has the trait. -/
def implements (c : Container) (traitName : String) : Bool :=
  c.traits.contains traitName

end Container

/-- The first container of a name. -/
def Model.get? (m : Model) (name : String) : Option Container :=
  m.containers.find? (·.name == name)

end SchemaWire
