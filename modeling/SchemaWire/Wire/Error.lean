import SchemaWire.Text.Utf8
import SchemaWire.Wire.Primitive

/-!
# Why a value has no bytes, or bytes have no value
-/

namespace SchemaWire

/-- A failure to write or to read one value on the wire. -/
inductive WireError
  /-- `requested` bytes up to offset `stop` of a buffer with only `length` bytes. -/
  | underrun (requested length stop : Nat)
  /-- A number that the type cannot hold. -/
  | outOfRange (type : Primitive) (value : Int)
  /-- A byte for a truth value that is neither 0 nor 1. -/
  | invalidBool (byte : UInt8)
  /-- A text that begins with `0x` and goes on with something else than pairs of digits. -/
  | invalidHex (text : String)
  /-- A text that is no integer of 64 bits. -/
  | invalidLong (text : String)
  /-- A string payload that is no UTF-8. -/
  | invalidUtf8 (fault : Utf8.Fault)
  /-- A payload whose length does not fit 32 bits. -/
  | payloadTooLarge (length : Nat)
  deriving DecidableEq, Repr

/-- The wording of a failure. -/
def WireError.message : WireError → String
  | .underrun requested length stop =>
    s!"buffer underrun: requested {requested} bytes, buffer length {length}, end offset {stop}"
  | .outOfRange type value => s!"value {value} is out of range for {type.name}"
  | .invalidBool byte => s!"invalid bool value {byte.toNat}, expected 0 or 1"
  | .invalidHex text => "invalid hex string \"" ++ text ++ "\""
  | .invalidLong text => "invalid long value \"" ++ text ++ "\""
  | .invalidUtf8 fault => "invalid utf-8 in string payload: " ++ fault.message
  | .payloadTooLarge length => s!"payload of {length} bytes exceeds the length prefix"

end SchemaWire
