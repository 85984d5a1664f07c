import SchemaWire.Number.Binary

/-!
# Single and double precision numbers

Both are held as their bits, so that every pattern, each of the many that are no number included, is a
value of its own and survives a trip over the wire.
-/

namespace SchemaWire

open Number

/-- A number in the 32-bit format, as its bits. -/
structure Single where
  bits : UInt32
  deriving DecidableEq, Repr, Inhabited

/-- A number in the 64-bit format, as its bits. -/
structure Double where
  bits : UInt64
  deriving DecidableEq, Repr, Inhabited

namespace Single

/-- Whether the sign bit is set. -/
def isNegative (x : Single) : Bool :=
  0x8000_0000 ≤ x.bits.toNat

/-- The bits without the sign. -/
def magnitude (x : Single) : Nat :=
  x.bits.toNat % 0x8000_0000

/-- The number with the given sign and the given pattern below it. -/
def ofParts (negative : Bool) (magnitude : Nat) : Single :=
  ⟨UInt32.ofNat (magnitude + if negative then 0x8000_0000 else 0)⟩

/-- Whether the bits are no number. -/
def isNaN (x : Single) : Bool :=
  binary32.infinity < x.magnitude

end Single

namespace Double

/-- Whether the sign bit is set. -/
def isNegative (x : Double) : Bool :=
  0x8000_0000_0000_0000 ≤ x.bits.toNat

/-- The bits without the sign. -/
def magnitude (x : Double) : Nat :=
  x.bits.toNat % 0x8000_0000_0000_0000

/-- The number with the given sign and the given pattern below it. -/
def ofParts (negative : Bool) (magnitude : Nat) : Double :=
  ⟨UInt64.ofNat (magnitude + if negative then 0x8000_0000_0000_0000 else 0)⟩

/-- Zero without a sign. -/
def zero : Double := ⟨0⟩

/-- Whether the bits are no number. -/
def isNaN (x : Double) : Bool :=
  binary64.infinity < x.magnitude

/-- Whether the number is neither infinite nor missing. -/
def isFinite (x : Double) : Bool :=
  x.magnitude < binary64.infinity

/-- The number nearest to `± num / den`. -/
def ofRatio (negative : Bool) (num den : Nat) : Double :=
  ofParts negative (binary64.nearest num den)

/-- The number nearest to an integer. -/
def ofInt (v : Int) : Double :=
  ofRatio (v < 0) v.natAbs 1

/-- The integer that the number is, for an integral number of magnitude below `2 ^ 53`. -/
def toInt? (x : Double) : Option Int :=
  if x.isFinite then
    let (m, q) := binary64.unpack x.magnitude
    let (num, den) := Format.ratio m q
    if num % den = 0 ∧ num / den < 0x20_0000_0000_0000 then
      some (if x.isNegative then -((num / den : Nat) : Int) else ((num / den : Nat) : Int))
    else none
  else none

/-- The nearest number in the 32-bit format. Bits that are no number keep their sign and the head of
their payload, and become quiet. -/
def toSingle (x : Double) : Single :=
  if x.isNaN then
    Single.ofParts x.isNegative (binary32.infinity ||| 1 <<< 22 ||| (x.magnitude % (1 <<< 52)) >>> 29)
  else if x.isFinite then
    let (m, q) := binary64.unpack x.magnitude
    let (num, den) := Format.ratio m q
    Single.ofParts x.isNegative (binary32.nearest num den)
  else Single.ofParts x.isNegative binary32.infinity

end Double

/-- The same number in the 64-bit format. Bits that are no number keep their sign and payload, and become
quiet. -/
def Single.toDouble (x : Single) : Double :=
  if x.isNaN then
    Double.ofParts x.isNegative (binary64.infinity ||| 1 <<< 51 ||| (x.magnitude % (1 <<< 23)) <<< 29)
  else if x.magnitude < binary32.infinity then
    let (m, q) := binary32.unpack x.magnitude
    let (num, den) := Format.ratio m q
    Double.ofRatio x.isNegative num den
  else Double.ofParts x.isNegative binary64.infinity

end SchemaWire
