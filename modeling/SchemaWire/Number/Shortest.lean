import SchemaWire.Number.Float

/-!
# The shortest decimal text of a number

`Double.shortest` finds the decimal with the fewest digits among those that the number is the nearest one
to, and of these the closest to the number. Two layouts write it: `Double.plain` never uses an exponent,
and `Double.exponential` does outside `[10⁻⁵, 10¹⁶)`.
-/

namespace SchemaWire

open Number

/-- Which of two equally close decimals is taken. -/
inductive Tie
  | up
  | even
  deriving DecidableEq, Repr

/-- The positive decimal `digits · 10 ^ exponent`. -/
structure Decimal where
  digits : Nat
  exponent : Int
  deriving DecidableEq, Repr

namespace Number

/-- The quotients that round to one number, over a common denominator: those from `low` to `high`, the
ends belonging to them if `closed`, and the number itself is `value / unit`. -/
structure Interval where
  low : Nat
  value : Nat
  high : Nat
  unit : Nat
  closed : Bool

/-- The quotients that round to a finite positive pattern. The gap below a power of two is half the one
above it. -/
def Format.interval (f : Format) (pattern : Nat) : Interval :=
  let (m, q) := f.unpack pattern
  let (scale, unit) := Format.ratio 1 (q - 2)
  let below := if m = Nat.pow 2 f.fractionBits ∧ 2 * Nat.pow 2 f.fractionBits ≤ pattern then 1 else 2
  ⟨(4 * m - below) * scale, 4 * m * scale, (4 * m + 2) * scale, unit, m % 2 = 0⟩

/-- Whether `num / den` lies in the interval. -/
def Interval.contains (i : Interval) (num den : Nat) : Bool :=
  if i.closed then i.low * den ≤ num * i.unit && num * i.unit ≤ i.high * den
  else i.low * den < num * i.unit && num * i.unit < i.high * den

/-- The multiple of `10 ^ exponent` in the interval that is closest to its number. Only the two multiples
around the number have to be tried. -/
def Interval.onGrid? (i : Interval) (tie : Tie) (exponent : Int) : Option Decimal :=
  let scale := Nat.pow 10 exponent.toNat
  let den := Nat.pow 10 (-exponent).toNat
  let below := i.value * den / (i.unit * scale)
  let rest := i.value * den % (i.unit * scale)
  let lower := i.contains (below * scale) den
  let upper := i.contains ((below + 1) * scale) den
  let preferUpper := i.unit * scale < 2 * rest ∨
    (2 * rest = i.unit * scale ∧ (tie = .up ∨ below % 2 = 1))
  if lower && (!upper || !preferUpper) then some ⟨below, exponent⟩
  else if upper then some ⟨below + 1, exponent⟩
  else none

end Number

/-- The shortest decimal that reads back as a finite number other than zero, without its sign. A number
has at most seventeen digits, so the search over the grids from coarse to fine ends early. -/
def Double.shortest (x : Double) (tie : Tie) : Decimal :=
  let i := binary64.interval x.magnitude
  let top : Int := (Format.exponentOf i.value i.unit) * 30103 / 100000 + 2
  ((List.range 22).findSome? fun (n : Nat) => i.onGrid? tie (top - n)).getD ⟨0, 0⟩

namespace Double

/-- Positional text of a decimal: `12300`, `12.3`, `0.0123`. -/
def positional (d : Decimal) : List Char :=
  let digits := Nat.toDigits 10 d.digits
  if 0 ≤ d.exponent then digits ++ List.replicate d.exponent.toNat '0'
  else
    let places := (-d.exponent).toNat
    if places < digits.length then
      digits.take (digits.length - places) ++ '.' :: digits.drop (digits.length - places)
    else '0' :: '.' :: List.replicate (places - digits.length) '0' ++ digits

/-- The sign of a number, as text. -/
def signText (x : Double) : List Char :=
  if x.isNegative then ['-'] else []

/-- The number without an exponent, and with a point only if it is not integral. -/
def plain (x : Double) : List Char :=
  if x.isNaN then "NaN".toList
  else x.signText ++
    if !x.isFinite then "inf".toList
    else if x.magnitude = 0 then ['0']
    else positional (x.shortest .up)

/-- A finite number that always shows a point or an exponent. It is positional from `10⁻⁵` up to below
`10¹⁶`, and otherwise its first digit stands before the point and a signed exponent follows. -/
def exponential (x : Double) : List Char :=
  x.signText ++
    if x.magnitude = 0 then "0.0".toList
    else
      let d := x.shortest .even
      let digits := Nat.toDigits 10 d.digits
      let leading : Int := digits.length - 1 + d.exponent
      if -5 ≤ leading ∧ leading ≤ 15 then
        positional d ++ if 0 ≤ d.exponent then ".0".toList else []
      else
        let fraction := digits.drop 1
        digits.take 1 ++ (if fraction.isEmpty then [] else '.' :: fraction) ++
          'e' :: (if leading < 0 then '-' else '+') :: Nat.toDigits 10 leading.natAbs

end Double

end SchemaWire
