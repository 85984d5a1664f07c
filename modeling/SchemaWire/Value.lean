import SchemaWire.Json.Read
import SchemaWire.Text.Utf8

/-!
# Values

What is encoded and what decoding gives: trees of objects, of which each names the container that it
belongs to under the key `_name`. Values have a JSON form, in which octets are an array of numbers; JSON
read back gives values without octets.
-/

namespace SchemaWire

/-- A value. Signed and unsigned integers are told apart. -/
inductive Value
  | null
  | bool (value : Bool)
  | int (value : Int64)
  | uint (value : UInt64)
  | float (value : Double)
  | string (text : String)
  | bytes (octets : Bytes)
  | array (items : List Value)
  | object (fields : List (String × Value))
  deriving Repr

namespace Value

/-- The sorts of values that messages tell apart. -/
inductive Kind
  | null
  | bool
  | integer
  | float
  | string
  | bytes
  | array
  | object
  deriving DecidableEq, Repr

/-- The name of a sort. -/
def Kind.name : Kind → String
  | .null => "null"
  | .bool => "bool"
  | .integer => "integer"
  | .float => "float"
  | .string => "string"
  | .bytes => "bytes"
  | .array => "array"
  | .object => "object"

/-- The sort of a value. -/
def kind : Value → Kind
  | .null => .null
  | .bool _ => .bool
  | .int _ => .integer
  | .uint _ => .integer
  | .float _ => .float
  | .string _ => .string
  | .bytes _ => .bytes
  | .array _ => .array
  | .object _ => .object

/-- Whether the value is `null`. -/
def isNull : Value → Bool
  | .null => true
  | _ => false

/-- The value under a key of an object. -/
def get? : Value → String → Option Value
  | .object fields, key => Fields.get? fields key
  | _, _ => none

/-- The text of a string. -/
def text? : Value → Option String
  | .string text => some text
  | _ => none

/-- The number of an integer that is in the signed range. -/
def signed? : Value → Option Int64
  | .int n => some n
  | .uint n => if n.toNat < 0x8000_0000_0000_0000 then some (Int64.ofNat n.toNat) else none
  | _ => none

/-- The number of items of an array. -/
def arrayLength? : Value → Option Nat
  | .array items => some items.length
  | _ => none

/-- The number of keys of an object. -/
def objectLength? : Value → Option Nat
  | .object fields => some fields.length
  | _ => none

/-- The container that an object names. -/
def name? (v : Value) : Option String :=
  (v.get? "_name").bind text?

/-- The object that names a container and holds nothing else. -/
def tagged (name : String) : Value :=
  .object [("_name", .string name)]

/-- The object with a key set. Values that are no objects have no keys to set. -/
def insert (v : Value) (key : String) (value : Value) : Value :=
  match v with
  | .object fields => .object (Keyed.insert key value fields)
  | other => other

mutual

/-- The JSON form of a value. -/
def toJson : Value → Json
  | .null => .null
  | .bool b => .bool b
  | .int n => .number (.int n.toInt)
  | .uint n => .number (.int n.toNat)
  | .float x => .ofDouble x
  | .string text => .string text
  | .bytes octets => .array (octets.map fun b => .ofNat b.toNat)
  | .array items => .array (itemsToJson items)
  | .object fields => .object (fieldsToJson fields)

/-- The JSON forms of items. -/
def itemsToJson : List Value → List Json
  | [] => []
  | item :: items => item.toJson :: itemsToJson items

/-- The JSON forms of fields. -/
def fieldsToJson : List (String × Value) → List (String × Json)
  | [] => []
  | (key, value) :: fields => (key, value.toJson) :: fieldsToJson fields

end

/-- The value of a JSON number: signed if it can be, then unsigned, then floating. -/
def ofNumber : Json.Number → Value
  | .int n =>
    if -0x8000_0000_0000_0000 ≤ n ∧ n < 0x8000_0000_0000_0000 then .int (Int64.ofInt n)
    else if 0 ≤ n ∧ n < UInt64.size then .uint (UInt64.ofNat n.toNat)
    else .float (Double.ofInt n)
  | .float x => .float x

mutual

/-- The value of a JSON form. -/
def ofJson : Json → Value
  | .null => .null
  | .bool b => .bool b
  | .number n => ofNumber n
  | .string text => .string text
  | .array items => .array (itemsOfJson items)
  | .object fields => .object (fieldsOfJson fields)

/-- The values of items. -/
def itemsOfJson : List Json → List Value
  | [] => []
  | item :: items => ofJson item :: itemsOfJson items

/-- The values of fields. -/
def fieldsOfJson : List (String × Json) → List (String × Value)
  | [] => []
  | (key, value) :: fields => (key, ofJson value) :: fieldsOfJson fields

end

end Value

end SchemaWire
