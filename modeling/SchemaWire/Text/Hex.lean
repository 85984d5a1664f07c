import SchemaWire.Text.Numeral
import SchemaWire.Text.Utf8

/-!
# Octets as hexadecimal text

Each octet takes two digits, lower-case ones when it is written. Reading undoes writing (`decode?_encode`).
-/

namespace SchemaWire.Hex

/-- The two digits of an octet. -/
def octet (b : UInt8) : List Char :=
  [Nat.digitChar (b.toNat / 16), Nat.digitChar (b.toNat % 16)]

/-- The digits of octets. -/
def encode (bytes : Bytes) : List Char :=
  bytes.flatMap octet

/-- The octets that digits write. -/
def decode? : List Char → Option Bytes
  | [] => some []
  | [_] => none
  | a :: b :: rest => do
    let high ← Text.digitValue? a
    let low ← Text.digitValue? b
    return UInt8.ofNat (high * 16 + low) :: (← decode? rest)

theorem decode?_encode (bytes : Bytes) : decode? (encode bytes) = some bytes := by
  induction bytes with
  | nil => rfl
  | cons b rest ih =>
    have hb : b.toNat < 256 := b.toNat_lt
    have hhigh := Text.digitValue?_digitChar (n := b.toNat / 16) (by omega)
    have hlow := Text.digitValue?_digitChar (n := b.toNat % 16) (by omega)
    have hsum : b.toNat / 16 * 16 + b.toNat % 16 = b.toNat := by omega
    rw [encode] at ih
    simp only [encode, octet, List.flatMap_cons, List.cons_append, List.nil_append, decode?, hhigh, hlow, ih, hsum,
      Option.bind_eq_bind, Option.bind_some, Option.pure_def, UInt8.ofNat_toNat]

end SchemaWire.Hex
