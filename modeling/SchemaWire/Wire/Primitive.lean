/-!
# Primitive wire types

The eleven types that have a form of their own on the wire, and their names in the schema language.
-/

namespace SchemaWire

/-- A primitive wire type. -/
inductive Primitive
  | int
  | uint
  | long
  | ulong
  | short
  | ushort
  | float
  | double
  | bool
  | string
  | bytes
  deriving DecidableEq, Repr

namespace Primitive

/-- The primitive types, in their order. -/
def all : List Primitive :=
  [.int, .uint, .long, .ulong, .short, .ushort, .float, .double, .bool, .string, .bytes]

/-- The name of a type in the schema language. -/
def name : Primitive → String
  | .int => "int"
  | .uint => "uint"
  | .long => "long"
  | .ulong => "ulong"
  | .short => "short"
  | .ushort => "ushort"
  | .float => "float"
  | .double => "double"
  | .bool => "bool"
  | .string => "string"
  | .bytes => "bytes"

/-- The type of a name. -/
def ofName? (name : String) : Option Primitive :=
  all.find? (·.name == name)

/-- Whether the type may carry a size, `bytes[32]`. -/
def allowsSize : Primitive → Bool
  | .string => true
  | .bytes => true
  | _ => false

/-- The wording for a name that is no primitive type. -/
def unknownMessage (name : String) : String :=
  "unknown generic type \"" ++ name ++ "\""

@[simp] theorem ofName?_name (p : Primitive) : ofName? p.name = some p := by
  cases p <;> decide

theorem name_of_ofName? {name : String} {p : Primitive} (h : ofName? name = some p) : p.name = name := by
  have := List.find?_some h
  simpa using this

theorem name_injective {p q : Primitive} (h : p.name = q.name) : p = q := by
  have := congrArg ofName? h
  simpa using this

end Primitive

end SchemaWire
