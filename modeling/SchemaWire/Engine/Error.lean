import SchemaWire.Value
import SchemaWire.Wire.Error

/-!
# Why a value cannot be encoded, or bytes cannot be decoded
-/

namespace SchemaWire

/-- What the value of a param has to be. -/
inductive Wanted
  | object
  | array
  | integer
  | number
  | long
  | bool
  | string
  deriving DecidableEq, Repr

/-- The wording of a wanted value. -/
def Wanted.text : Wanted → String
  | .object => "object"
  | .array => "array"
  | .integer => "integer"
  | .number => "number"
  | .long => "long"
  | .bool => "bool"
  | .string => "string"

/-- Why a value has no octets. -/
inductive NotBytes
  | malformedHex
  | nonOctet
  | kind (found : Value.Kind)
  deriving DecidableEq, Repr

/-- The wording for a value that has no octets. -/
def NotBytes.text : NotBytes → String
  | .malformedHex => "malformed hex string"
  | .nonOctet => "array with non-octet elements"
  | .kind found => found.name

/-- A failure of the engine. -/
inductive EngineError
  | unknownName (name : String)
  | unknownId (id : UInt32)
  | missingProperty (container property : String)
  | duplicateName (name : String)
  | duplicateId (id : UInt32) (first second : String)
  /-- A value of exact length that has another length. -/
  | sizeMismatch (param : String) (expected actual : Nat)
  /-- The header of a container that its param does not refer to. -/
  | headerMismatch (param : String) (expected : List UInt32) (found : UInt32)
  | notBytes (param : String) (found : NotBytes)
  | typeMismatch (param : String) (expected : Wanted) (found : Value.Kind)
  /-- A param of exact length whose type has no length. -/
  | strictMismatch (param : String) (type : Primitive)
  /-- A param whose flags and fields disagree. -/
  | malformedParam (container param : String)
  | nestingTooDeep (limit : Nat)
  | wire (error : WireError)
  deriving DecidableEq, Repr

namespace EngineError

/-- The wording of a failure. -/
def message : EngineError → String
  | .unknownName name => "unknown container name \"" ++ name ++ "\""
  | .unknownId id => s!"unknown container header {id.toNat}"
  | .missingProperty container property => "missing required property \"" ++ property ++ "\" of " ++ container
  | .duplicateName name => "duplicate container name \"" ++ name ++ "\""
  | .duplicateId id first second =>
    "containers \"" ++ first ++ "\" and \"" ++ second ++ s!"\" share the id {id.toNat}"
  | .sizeMismatch param expected actual =>
    "invalid size for param \"" ++ param ++ s!"\": expected {expected} but got {actual}"
  | .headerMismatch param expected found =>
    "invalid header for param \"" ++ param ++ "\": expected " ++
      " or ".intercalate (expected.map fun id => toString id.toNat) ++ s!" but got {found.toNat}"
  | .notBytes param found =>
    "invalid buffer type for param \"" ++ param ++ "\": cannot convert " ++ found.text ++ " to bytes"
  | .typeMismatch param expected found =>
    "type mismatch for param \"" ++ param ++ "\": expected " ++ expected.text ++ ", found " ++ found.name
  | .strictMismatch param type =>
    "type mismatch for param \"" ++ param ++ "\": expected string or bytes, found " ++ type.name
  | .malformedParam container param => "param \"" ++ param ++ "\" of " ++ container ++ " has inconsistent flags"
  | .nestingTooDeep limit => s!"containers nested deeper than {limit} levels"
  | .wire error => error.message

end EngineError

end SchemaWire
