import SchemaWire.Engine.Registry
import SchemaWire.Wire.Reader

/-!
# Decoding

A container's id says which params follow. The object that comes out begins with the container's name, its
type and its traits, and holds the params that are there. Decoding that fails tells how far it came.
-/

namespace SchemaWire

/-- Where decoding stopped, and why. -/
structure DecodeFailure where
  error : EngineError
  place : Reader
  deriving DecidableEq, Repr

/-- Reads something and moves on. -/
abbrev Decoder (α : Type) := StateT Reader (Except DecodeFailure) α

namespace Decoder

/-- Stops. -/
def fail {α : Type} (e : EngineError) : Decoder α := fun r =>
  .error ⟨e, r⟩

/-- Reads from the wire. -/
def read {α : Type} (f : Reader → Except WireError (α × Reader)) : Decoder α := fun r =>
  (f r).mapError fun e => ⟨.wire e, r⟩

/-- Reads `n` items. -/
def times {α : Type} (n : Nat) (item : Decoder α) : Decoder (List α) :=
  match n with
  | 0 => return []
  | n + 1 => do
    let first ← item
    return first :: (← times n item)

end Decoder

namespace Registry

open Decoder

/-- Reads a primitive value. Integers come as signed ones, and numbers of 64 bits as text. -/
def decodePrimitive : Primitive → Decoder Value
  | .int => do return .int (Int64.ofInt (← read (Reader.signed 4)))
  | .uint => do return .int (Int64.ofNat (← read (Reader.word 4)))
  | .short => do return .int (Int64.ofInt (← read (Reader.signed 2)))
  | .ushort => do return .int (Int64.ofNat (← read (Reader.word 2)))
  | .float => do return .float (← read Reader.float).toDouble
  | .double => do return .float (← read Reader.double)
  | .long => do return .string (← read Reader.long)
  | .ulong => do return .string (← read Reader.long)
  | .bool => do return .bool (← read Reader.bool)
  | .string => do return .string (← read Reader.string)
  | .bytes => do return .bytes (← read Reader.bytes)

/-- Checks that the header ahead is one that the reference may lead to, if that is wanted and known. -/
def checkHeader (r : Registry) (reference param : String) : Decoder Unit := do
  let expected := r.possibleIds reference
  if r.config.structuralValidation && !expected.isEmpty then
    let found ← read fun place => place.peek.map fun id => (id, place)
    if !expected.contains found then fail (.headerMismatch param expected found)

/-- Reads the container of a reference. -/
def decodeReference (r : Registry) (nested : Decoder Value) (reference param : String) : Decoder Value := do
  r.checkHeader reference param
  nested

/-- Reads a param of the given layout. -/
def decodeShape (r : Registry) (nested : Decoder Value) (param : String) : Shape → Decoder Value
  | .primitive type => decodePrimitive type
  | .strict .bytes size => do return .bytes (← read (Reader.raw size.toNat))
  | .strict _ _ => do return .string (← read Reader.string)
  | .vector item => do
    let count ← read (Reader.word 4)
    return .array (← times count
      (match item with
      | .primitive type => decodePrimitive type
      | .container reference => r.decodeReference nested reference param))
  | .reference reference => r.decodeReference nested reference param

/-- Reads a param, or that it is absent. -/
def decodeParam (r : Registry) (nested : Decoder Value) (containerName : String) (p : Param) :
    Decoder (Option Value) := do
  if p.isOptional then
    if !(← read Reader.bool) then return none
  match p.shape? with
  | none => fail (.malformedParam containerName p.name)
  | some shape => return some (← r.decodeShape nested p.name shape)

/-- Reads the params of a container: the names and values of those that are there. -/
def decodeParams (r : Registry) (nested : Decoder Value) (containerName : String) :
    List Param → Decoder (List (String × Value))
  | [] => return []
  | p :: rest => do
    let value ← r.decodeParam nested containerName p
    let more ← r.decodeParams nested containerName rest
    return value.toList.map (p.name, ·) ++ more

/-- What an object says of its container. -/
def tags (c : Container) : List (String × Value) :=
  [("_name", .string c.name), ("_type", .string c.typeName), ("_traits", .array (c.traits.map .string))]

/-- Reads a container, which with all that it nests has at most `levels` levels. -/
def decodeContainer (r : Registry) : (levels : Nat) → Decoder Value
  | 0 => fail (.nestingTooDeep r.config.maxDepth)
  | levels + 1 => do
    let id ← read Reader.uint
    match r.containerOfId? id with
    | none => fail (.unknownId id)
    | some c => do
      let fields ← r.decodeParams (r.decodeContainer levels) c.name c.params
      return .object (Fields.ofList (tags c ++ fields))

/-- Reads one container. -/
def decodeFrom (r : Registry) : Decoder Value :=
  r.decodeContainer (r.config.maxDepth + 1)

/-- The value of the container that octets begin with. -/
def decode (r : Registry) (octets : Bytes) : Except EngineError Value :=
  match r.decodeFrom.run (.ofBytes octets) with
  | .ok (value, _) => .ok value
  | .error failure => .error failure.error

end Registry

end SchemaWire
