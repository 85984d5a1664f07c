import SchemaWire.Engine.Registry
import SchemaWire.Wire.Entry

/-!
# Encoding

A container is its id and then its params in order. An optional param has a byte in front that says
whether it is there; a plain primitive one that is missing is written as the zero of its type. Values are
taken in several spellings: integral floating-point numbers for integers, text for numbers of 64 bits, and
text or arrays for octets.
-/

namespace SchemaWire

/-- The octets of an entry, as a result of the engine. -/
def Entry.encoded (e : Entry) : Except EngineError Bytes :=
  e.encode.mapError .wire

namespace Value

/-- The error of a value that is not what its param needs. -/
def mismatch {α : Type} (param : String) (expected : Wanted) (v : Value) : Except EngineError α :=
  .error (.typeMismatch param expected v.kind)

/-- The integer that a value stands for. -/
def integer (param : String) (type : Primitive) : Value → Except EngineError Int
  | .int n => .ok n.toInt
  | .uint n => if n.toNat < 0x8000_0000_0000_0000 then .ok n.toNat else .error (.wire (.outOfRange type n.toNat))
  | .float x =>
    match x.toInt? with
    | some n => .ok n
    | none => mismatch param .integer (.float x)
  | other => mismatch param .integer other

/-- The floating-point number that a value stands for. -/
def number (param : String) : Value → Except EngineError Double
  | .int n => .ok (.ofInt n.toInt)
  | .uint n => .ok (.ofInt n.toNat)
  | .float x => .ok x
  | other => mismatch param .number other

/-- The number of 64 bits that a value stands for. -/
def longInput (param : String) : Value → Except EngineError LongInput
  | .int n => .ok (.int n)
  | .uint n => .ok (.uint n)
  | .string text => .ok (.text text)
  | .float x => (integer param .long (.float x)).map fun n => .int (Int64.ofInt n)
  | other => mismatch param .long other

/-- The octet that a value stands for. -/
def octet? (v : Value) : Option UInt8 :=
  v.signed?.bind fun n => if 0 ≤ n.toInt ∧ n.toInt < 256 then some (UInt8.ofNat n.toInt.toNat) else none

/-- The octets that a value stands for: octets as they are, an array of them, pairs of hexadecimal digits
after `0x`, or the UTF-8 form of any other text. -/
def octets (param : String) : Value → Except EngineError Bytes
  | .bytes given => .ok given
  | .string text =>
    match text.toList with
    | '0' :: 'x' :: digits =>
      match Hex.decode? digits with
      | some given => .ok given
      | none => .error (.notBytes param .malformedHex)
    | cs => .ok (Utf8.encode cs)
  | .array items =>
    match items.mapM octet? with
    | some given => .ok given
    | none => .error (.notBytes param .nonOctet)
  | other => .error (.notBytes param (.kind other.kind))

/-- The entry of a primitive value. -/
def entry (param : String) (type : Primitive) (v : Value) : Except EngineError Entry :=
  match type with
  | .int => (v.integer param .int).map .int
  | .uint => (v.integer param .uint).map .uint
  | .short => (v.integer param .short).map .short
  | .ushort => (v.integer param .ushort).map .ushort
  | .float => (v.number param).map fun x => .float x.toSingle
  | .double => (v.number param).map .double
  | .long => (v.longInput param).map .long
  | .ulong => (v.longInput param).map .ulong
  | .bool =>
    match v with
    | .bool b => .ok (.bool b)
    | other => mismatch param .bool other
  | .string =>
    match v with
    | .string text => .ok (.string text)
    | other => mismatch param .string other
  | .bytes => (v.octets param).map .bytes

/-- The entry of a value of exact length. Text is measured in characters and keeps its length prefix;
octets are measured in octets and stand alone. -/
def strictEntry (param : String) (type : Primitive) (size : UInt32) (v : Value) : Except EngineError Entry :=
  match type with
  | .string =>
    match v with
    | .string text =>
      if text.length = size.toNat then .ok (.string text)
      else .error (.sizeMismatch param size.toNat text.length)
    | other => mismatch param .string other
  | .bytes => do
    let given ← v.octets param
    if given.length = size.toNat then .ok (.raw given)
    else .error (.sizeMismatch param size.toNat given.length)
  | other => .error (.strictMismatch param other)

end Value

/-- The entry of a primitive value that is missing. -/
def Primitive.zero : Primitive → Entry
  | .int => .int 0
  | .uint => .uint 0
  | .short => .short 0
  | .ushort => .ushort 0
  | .float => .float ⟨0⟩
  | .double => .double ⟨0⟩
  | .long => .long (.int 0)
  | .ulong => .ulong (.uint 0)
  | .bool => .bool false
  | .string => .string ""
  | .bytes => .bytes []

/-- Encodes the value of the container of a param. -/
abbrev NestedEncoder := (param : String) → Value → Except EngineError Bytes

namespace Registry

/-- The octets of the items of a vector, after their number. -/
def encodeItems (nested : NestedEncoder) (param : String) (item : VectorItem) (items : List Value) :
    Except EngineError Bytes := do
  let count ← (Entry.uint items.length).encoded
  let parts ← items.mapM fun v =>
    match item with
    | .primitive type => do (← v.entry param type).encoded
    | .container _ => nested param v
  return count ++ parts.flatten

/-- The octets of a param of the given layout. A value is missing if there is none, or if it is `null`. -/
def encodeShape (nested : NestedEncoder) (containerName param : String) (field : Option Value) :
    Shape → Except EngineError Bytes
  | .primitive type =>
    match field with
    | none => type.zero.encoded
    | some v => do (← v.entry param type).encoded
  | .strict type size =>
    match field with
    | none => .error (.missingProperty containerName param)
    | some v => do (← v.strictEntry param type size).encoded
  | .vector item =>
    match field with
    | none => .error (.missingProperty containerName param)
    | some (.array items) => encodeItems nested param item items
    | some other => Value.mismatch param .array other
  | .reference _ =>
    match field with
    | none => .error (.missingProperty containerName param)
    | some v => nested param v

/-- The octets of a param that is there. -/
def encodePresent (nested : NestedEncoder) (containerName : String) (p : Param) (field : Option Value) :
    Except EngineError Bytes :=
  match p.shape? with
  | none => .error (.malformedParam containerName p.name)
  | some shape => encodeShape nested containerName p.name field shape

/-- The octets of a param of a container's value. -/
def encodeParam (nested : NestedEncoder) (containerName : String) (v : Value) (p : Param) :
    Except EngineError Bytes :=
  let field := (v.get? p.name).filter fun x => !x.isNull
  if p.isOptional then
    match field with
    | none => .ok [0]
    | some _ => (encodePresent nested containerName p field).map (1 :: ·)
  else encodePresent nested containerName p field

/-- The container that a value names: an object by its key `_name`, and a string by itself. -/
def named (r : Registry) (param : String) (v : Value) : Except EngineError Container := do
  let name ←
    match v with
    | .string name => pure name
    | .object _ =>
      match v.name? with
      | some name => pure name
      | none => throw (.missingProperty ("value of \"" ++ param ++ "\"") "_name")
    | other => Value.mismatch param .object other
  match r.container? name with
  | some c => return c
  | none => throw (.unknownName name)

/-- The octets of a container, which with all that it nests has at most `levels` levels. -/
def encodeContainer (r : Registry) : (levels : Nat) → Container → Value → Except EngineError Bytes
  | 0, _, _ => .error (.nestingTooDeep r.config.maxDepth)
  | levels + 1, c, v => do
    let nested : NestedEncoder := fun param v => do r.encodeContainer levels (← r.named param v) v
    let parts ← c.params.mapM (encodeParam nested c.name v)
    return Word.toBytes 4 c.id.toNat ++ parts.flatten

/-- The octets of a value, as the container that it names. -/
def encode (r : Registry) (v : Value) : Except EngineError Bytes := do
  r.encodeContainer (r.config.maxDepth + 1) (← r.named "root" v) v

/-- The octets of a value, as the container of the given name. -/
def encodeNamed (r : Registry) (name : String) (v : Value) : Except EngineError Bytes :=
  match r.container? name with
  | some c => r.encodeContainer (r.config.maxDepth + 1) c v
  | none => .error (.unknownName name)

end Registry

end SchemaWire
