/-!
# Binary floating-point formats

A finite number of a format is `m · 2 ^ q`, and the patterns of the numbers from zero up are counted in
the order of the numbers: `Format.unpack` takes a pattern to `(m, q)`, and `Format.nearest` takes a
quotient of natural numbers to the pattern nearest to it, of two equally near ones to the even one. All
is exact arithmetic on natural numbers. Signs are added by the types built on a format.
-/

namespace SchemaWire.Number

/-- The quotient of two natural numbers to the nearest natural number, a half going to the even one. -/
def roundHalfEven (num den : Nat) : Nat :=
  let quotient := num / den
  let rest := num % den
  if den < 2 * rest ∨ (2 * rest = den ∧ quotient % 2 = 1) then quotient + 1 else quotient

/-- A binary interchange format: the widths of the fraction and of the exponent. -/
structure Format where
  fractionBits : Nat
  exponentBits : Nat
  deriving DecidableEq, Repr

/-- The 32-bit format. -/
def binary32 : Format := ⟨23, 8⟩

/-- The 64-bit format. -/
def binary64 : Format := ⟨52, 11⟩

namespace Format

/-- The pattern of infinity. Patterns above it, up to the sign bit, are not numbers. -/
def infinity (f : Format) : Nat :=
  (Nat.pow 2 f.exponentBits - 1) * Nat.pow 2 f.fractionBits

/-- The exponent `q` of the numbers nearest to zero. -/
def minExponent (f : Format) : Int :=
  2 - (Nat.pow 2 (f.exponentBits - 1) : Nat) - f.fractionBits

/-- The number of a finite pattern, as `m` and `q` for `m · 2 ^ q`. -/
def unpack (f : Format) (pattern : Nat) : Nat × Int :=
  let exponent := pattern / Nat.pow 2 f.fractionBits
  let fraction := pattern % Nat.pow 2 f.fractionBits
  if exponent = 0 then (fraction, f.minExponent)
  else (Nat.pow 2 f.fractionBits + fraction, f.minExponent + (exponent - 1 : Nat))

/-- `m · 2 ^ q` as a quotient of natural numbers. -/
def ratio (m : Nat) (q : Int) : Nat × Nat :=
  (m * Nat.pow 2 q.toNat, Nat.pow 2 (-q).toNat)

/-- The largest `e` with `2 ^ e ≤ num / den`, for a positive quotient. -/
def exponentOf (num den : Nat) : Int :=
  let guess : Int := (num.log2 : Int) - den.log2
  let (scale, unit) := ratio 1 guess
  if den * scale ≤ num * unit then guess else guess - 1

/-- The pattern nearest to `num / den`. What is too large for the format is taken to infinity. -/
def nearest (f : Format) (num den : Nat) : Nat :=
  if num = 0 then 0
  else
    let q := max (exponentOf num den - f.fractionBits) f.minExponent
    let (scale, unit) := ratio 1 q
    let m := roundHalfEven (num * unit) (den * scale)
    min ((q - f.minExponent).toNat * Nat.pow 2 f.fractionBits + m) f.infinity

/-- The pattern nearest to the product of two finite patterns. -/
def mul (f : Format) (a b : Nat) : Nat :=
  let (m, q) := f.unpack a
  let (n, p) := f.unpack b
  let (num, den) := ratio (m * n) (q + p)
  f.nearest num den

/-- The pattern nearest to the quotient of two finite patterns, the second of them positive. -/
def div (f : Format) (a b : Nat) : Nat :=
  let (m, q) := f.unpack a
  let (n, p) := f.unpack b
  let (num, den) := ratio m (q - p)
  f.nearest num (n * den)

end Format

end SchemaWire.Number
