import SchemaWire.Text.Utf8

/-!
# CRC-32

The checksum that identifies a container: the CRC of the polynomial 0x04C11DB7, reflected, which starts
from all ones and is inverted at the end.
-/

namespace SchemaWire.Crc32

/-- The polynomial, lowest coefficient in the highest bit. -/
def polynomial : UInt32 := 0xEDB88320

/-- Moves the remainder down by one bit. -/
def shift (r : UInt32) : UInt32 :=
  if r &&& 1 = 1 then (r >>> 1) ^^^ polynomial else r >>> 1

/-- The remainder after one more octet. -/
def step (r : UInt32) (b : UInt8) : UInt32 :=
  shift (shift (shift (shift (shift (shift (shift (shift (r ^^^ b.toUInt32))))))))

/-- The checksum of a byte string. -/
def checksum (bytes : Bytes) : UInt32 :=
  bytes.foldl step 0xFFFFFFFF ^^^ 0xFFFFFFFF

/-- The check value of the checksum: that of the digits `123456789`. -/
example : checksum [0x31, 0x32, 0x33, 0x34, 0x35, 0x36, 0x37, 0x38, 0x39] = 0xCBF43926 := by
  decide +kernel

end SchemaWire.Crc32
