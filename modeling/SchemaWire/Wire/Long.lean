import SchemaWire.Text.Hex
import SchemaWire.Wire.Error
import SchemaWire.Wire.Word

/-!
# Numbers of 64 bits

Such a number may be given as an integer or as text, in decimal or after `0x` as pairs of hexadecimal
digits. It is read back as `0x` and sixteen digits, so it survives where numbers have fewer bits.
-/

namespace SchemaWire

/-- A number of 64 bits as it is given. -/
inductive LongInput
  | int (value : Int64)
  | uint (value : UInt64)
  | text (given : String)
  deriving DecidableEq, Repr

namespace LongInput

/-- The number as text. -/
def display : LongInput → String
  | .int value => toString value.toInt
  | .uint value => toString value.toNat
  | .text given => given

/-- A decimal numeral: whether a minus stands before it, and its digits' number. -/
def decimal? : List Char → Option (Bool × Nat)
  | '-' :: digits => (Text.decimal? digits).map (true, ·)
  | '+' :: digits => (Text.decimal? digits).map (false, ·)
  | digits => (Text.decimal? digits).map (false, ·)

/-- The bits of hexadecimal digits, of which `text` is the whole text. -/
def hexBits (text : String) (digits : List Char) : Except WireError UInt64 :=
  match Hex.decode? digits with
  | none => .error (.invalidHex text)
  | some bytes =>
    if 8 < bytes.length then .error (.invalidLong text)
    else .ok (UInt64.ofNat (Word.ofBytes bytes.reverse))

/-- The bits of a text. A numeral with a minus is refused unless the number may be negative. -/
def textBits (text : String) (maybeNegative : Bool) : Except WireError UInt64 :=
  match text.toList with
  | '0' :: 'x' :: digits => hexBits text digits
  | cs =>
    match decimal? cs with
    | none => .error (.invalidLong text)
    | some (false, n) => if n < UInt64.size then .ok (UInt64.ofNat n) else .error (.invalidLong text)
    | some (true, n) =>
      if 0x8000_0000_0000_0000 < n then .error (.invalidLong text)
      else if maybeNegative then .ok (UInt64.ofNat (UInt64.size - n))
      else .error (.outOfRange .ulong (-n))

/-- The bits of the number as a signed one. An unsigned one beyond the signed range keeps its bits. -/
def signedBits : LongInput → Except WireError UInt64
  | .int value => .ok value.toUInt64
  | .uint value => .ok value
  | .text given => textBits given true

/-- The bits of the number as an unsigned one. -/
def unsignedBits : LongInput → Except WireError UInt64
  | .int value => if value.toInt < 0 then .error (.outOfRange .ulong value.toInt) else .ok value.toUInt64
  | .uint value => .ok value
  | .text given => textBits given false

end LongInput

/-- The text of a number of 64 bits, given by its octets. -/
def longText (bytes : Bytes) : String :=
  "0x" ++ String.ofList (Hex.encode bytes.reverse)

end SchemaWire
