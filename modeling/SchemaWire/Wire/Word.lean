import SchemaWire.Text.Utf8

/-!
# Words

Natural numbers as octets, the lowest octet first. Writing and reading undo each other
(`ofBytes_toBytes`, `toBytes_ofBytes`), so a width and an offset are all that reading needs. Negative
numbers are written as what they leave modulo the first power that does not fit.
-/

namespace SchemaWire.Word

/-- The lowest `width` octets of a number. -/
def toBytes : (width n : Nat) → Bytes
  | 0, _ => []
  | width + 1, n => UInt8.ofNat n :: toBytes width (n / 256)

/-- The number of octets. -/
def ofBytes : Bytes → Nat
  | [] => 0
  | b :: rest => b.toNat + 256 * ofBytes rest

/-- The octets of an integer. -/
def ofInt (width : Nat) (v : Int) : Bytes :=
  toBytes width (v % (Nat.pow 256 width : Nat)).toNat

/-- The number of octets, those from half the range up standing for negative numbers. -/
def signed (bytes : Bytes) : Int :=
  (ofBytes bytes : Int).bmod (Nat.pow 256 bytes.length)

@[simp] theorem length_toBytes (width n : Nat) : (toBytes width n).length = width := by
  induction width generalizing n with
  | zero => rfl
  | succ width ih => simp [toBytes, ih]

theorem ofBytes_lt (bytes : Bytes) : ofBytes bytes < Nat.pow 256 bytes.length := by
  induction bytes with
  | nil => simp [ofBytes]
  | cons b rest ih =>
    have hb : b.toNat < 256 := b.toNat_lt
    have hpow : Nat.pow 256 (rest.length + 1) = Nat.pow 256 rest.length * 256 := rfl
    simp only [ofBytes, List.length_cons]
    omega

theorem ofBytes_toBytes {width n : Nat} (h : n < Nat.pow 256 width) : ofBytes (toBytes width n) = n := by
  induction width generalizing n with
  | zero =>
    have : Nat.pow 256 0 = 1 := rfl
    simp only [toBytes, ofBytes]
    omega
  | succ width ih =>
    have hpow : Nat.pow 256 (width + 1) = Nat.pow 256 width * 256 := rfl
    have := ih (n := n / 256) (by omega)
    simp only [toBytes, ofBytes, this, UInt8.toNat_ofNat']
    omega

theorem toBytes_ofBytes (bytes : Bytes) : toBytes bytes.length (ofBytes bytes) = bytes := by
  induction bytes with
  | nil => rfl
  | cons b rest ih =>
    have hb : b.toNat < 256 := b.toNat_lt
    have hdiv : (b.toNat + 256 * ofBytes rest) / 256 = ofBytes rest := by omega
    have hlow : UInt8.ofNat (b.toNat + 256 * ofBytes rest) = b := by
      apply UInt8.toNat_inj.mp
      simp only [UInt8.toNat_ofNat']
      omega
    simp only [List.length_cons, ofBytes, toBytes, hdiv, ih, hlow]

end SchemaWire.Word
