import SchemaWire.Number.Float
import SchemaWire.Wire.Long

/-!
# Entries

What the wire carries is a sequence of entries, each of them a number, a truth value or a payload. Numbers
take a fixed number of octets, the lowest first. A payload comes after its length, and `padding` zero octets
come after the payload.
-/

namespace SchemaWire

/-- A value to be written. -/
inductive Entry
  | int (value : Int)
  | uint (value : Int)
  | short (value : Int)
  | ushort (value : Int)
  | float (value : Single)
  | double (value : Double)
  | bool (value : Bool)
  | long (value : LongInput)
  | ulong (value : LongInput)
  | bytes (payload : Bytes)
  | string (text : String)
  /-- Octets as they are, without length and padding. -/
  | raw (octets : Bytes)
  deriving DecidableEq, Repr

/-- The number of zero octets after a payload: what its length leaves when it is divided by four. This does
not align what follows, but it is what the format has. -/
def padding (length : Nat) : Nat :=
  length % 4

namespace Entry

/-- The octets of an integer from `low` up to `high`. -/
def bounded (type : Primitive) (width : Nat) (low high value : Int) : Except WireError Bytes :=
  if low ≤ value ∧ value ≤ high then .ok (Word.ofInt width value) else .error (.outOfRange type value)

/-- The octets of a payload with its length and padding. -/
def framed (payload : Bytes) : Except WireError Bytes :=
  if payload.length < UInt32.size then
    .ok (Word.toBytes 4 payload.length ++ payload ++ List.replicate (padding payload.length) 0)
  else .error (.payloadTooLarge payload.length)

/-- The octets of an entry. -/
def encode : Entry → Except WireError Bytes
  | .int value => bounded .int 4 (-0x8000_0000) 0x7FFF_FFFF value
  | .uint value => bounded .uint 4 0 0xFFFF_FFFF value
  | .short value => bounded .short 2 (-0x8000) 0x7FFF value
  | .ushort value => bounded .ushort 2 0 0xFFFF value
  | .float value => .ok (Word.toBytes 4 value.bits.toNat)
  | .double value => .ok (Word.toBytes 8 value.bits.toNat)
  | .bool value => .ok [if value then 1 else 0]
  | .long value => value.signedBits.map fun bits => Word.toBytes 8 bits.toNat
  | .ulong value => value.unsignedBits.map fun bits => Word.toBytes 8 bits.toNat
  | .bytes payload => framed payload
  | .string text => framed (Utf8.ofString text)
  | .raw octets => .ok octets

end Entry

/-- A buffer that entries are appended to. -/
structure Writer where
  written : Bytes
  deriving DecidableEq, Repr

namespace Writer

/-- The buffer with nothing in it. -/
def empty : Writer := ⟨[]⟩

/-- The number of octets written. -/
def offset (w : Writer) : Nat :=
  w.written.length

/-- Appends an entry. One that has no octets leaves the buffer as it was. -/
def put (w : Writer) (e : Entry) : Except WireError Unit × Writer :=
  match e.encode with
  | .ok octets => (.ok (), ⟨w.written ++ octets⟩)
  | .error e => (.error e, w)

end Writer

end SchemaWire
