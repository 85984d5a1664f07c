import SchemaWire.Proofs.Rounding

/-!
# Integers as floating-point numbers

Finite bits stand for a rational number. Where this is an integer below `2 ^ 53` in magnitude, the bits are taken as
that integer (`toInt?_eq_some_iff`), and every such integer has bits (`isInteger_ofInt`).
-/

namespace SchemaWire.Double

open Number

/-- The number that finite bits stand for. -/
def value (x : Double) : ℚ :=
  let (m, q) := binary64.unpack x.magnitude
  if x.isNegative then -(m * 2 ^ q) else m * 2 ^ q

/-- Whether bits stand for an integer. -/
def IsInteger (x : Double) (n : Int) : Prop :=
  x.isFinite = true ∧ x.value = n

variable {x : Double} {n : Int}

/-- A quotient of natural numbers is an integer if nothing is left of the division. -/
theorem div_eq_intCast_iff {num den : Nat} (h : 0 < den) :
    (num : ℚ) / den = n ↔ num % den = 0 ∧ ((num / den : Nat) : Int) = n := by
  have hden : (den : ℚ) ≠ 0 := by positivity
  rw [div_eq_iff hden]
  constructor
  · intro hnum
    have hint : (num : Int) = n * den := by exact_mod_cast hnum
    have hrest : (num : Int) % den = 0 := by rw [hint, Int.mul_emod_left]
    refine ⟨by exact_mod_cast hrest, ?_⟩
    rw [Int.natCast_ediv, hint, Int.mul_ediv_cancel _ (by omega)]
  · rintro ⟨hrest, rfl⟩
    have hnat : num / den * den = num := Nat.div_mul_cancel (Nat.dvd_of_mod_eq_zero hrest)
    exact_mod_cast hnat.symm

/-- What is taken as an integer is any small one. -/
theorem toInt?_eq_some_iff : x.toInt? = some n ↔ x.IsInteger n ∧ n.natAbs < 2 ^ 53 := by
  unfold toInt? IsInteger value
  generalize binary64.unpack x.magnitude = parts
  obtain ⟨m, q⟩ := parts
  dsimp only
  have hden := Format.ratio_den_pos m q
  rw [← Format.ratio_value m q]
  generalize (Format.ratio m q).1 = num, (Format.ratio m q).2 = den at hden
  cases x.isFinite with
  | false => simp
  | true =>
    rw [if_pos rfl, Option.ite_none_right_eq_some, Option.some.injEq]
    cases x.isNegative with
    | false =>
      simp only [Bool.false_eq_true, if_false, div_eq_intCast_iff hden, true_and]
      generalize num / den = k, num % den = rest
      omega
    | true =>
      have hneg : -((num : ℚ) / den) = n ↔ (num : ℚ) / den = ((-n : Int) : ℚ) := by
        rw [neg_eq_iff_eq_neg, Int.cast_neg]
      simp only [if_true, hneg, div_eq_intCast_iff hden, true_and]
      generalize num / den = k, num % den = rest
      omega

/-- A small integer is among the numbers of the format, and so the nearest one to itself. -/
theorem isInteger_ofInt (h : n.natAbs < 2 ^ 53) : (ofInt n).IsInteger n := by
  rcases Nat.eq_zero_or_pos n.natAbs with hzero | hpos
  · obtain rfl := Int.natAbs_eq_zero.mp hzero
    have hunpack : (binary64.unpack (ofInt 0).magnitude).1 = 0 := by decide +kernel
    exact ⟨by decide +kernel, by simp [value, hunpack]⟩
  · -- shifted to full width, the magnitude is a significand of the format
    obtain ⟨k, hnormal⟩ := exists_isNormal (q := 0) hpos h (by decide)
    have hvalue := mul_two_pow_shift n.natAbs k 0
    generalize hm : n.natAbs * 2 ^ k = m at hnormal hvalue
    generalize hq : 0 - (k : Int) = q at hnormal hvalue
    have hfinite : binary64.pack m q < binary64.infinity := by
      have hlt : m < 2 ^ 53 := hnormal.1
      have hleast : binary64.minExponent = -1074 := by decide
      have hbits : binary64.fractionBits = 52 := rfl
      rw [Format.pack, hleast, hbits, infinity_binary64]
      omega
    have hbound : binary64.pack m q < 0x8000_0000_0000_0000 := by
      rw [infinity_binary64] at hfinite
      omega
    have hone : ((n.natAbs : ℚ)) / (1 : Nat) = m * 2 ^ q := by rw [← hvalue]; simp
    have hofInt : ofInt n = ofParts (n < 0) (binary64.pack m q) := by
      rw [ofInt, ofRatio, Format.nearest_of_isNormal hpos Nat.one_pos hone hnormal, min_eq_left hfinite.le]
    refine ⟨?_, ?_⟩
    · rw [hofInt, isFinite, magnitude_ofParts hbound, decide_eq_true hfinite]
    · rw [hofInt, value, magnitude_ofParts hbound, isNegative_ofParts hbound, Format.unpack_pack hnormal]
      dsimp only
      rw [← hvalue, zpow_zero, mul_one, Nat.cast_natAbs]
      by_cases hsign : n < 0
      · rw [if_pos (decide_eq_true hsign), abs_of_neg hsign, Int.cast_neg, neg_neg]
      · rw [if_neg (by simpa using hsign), abs_of_nonneg (not_lt.mp hsign)]

end SchemaWire.Double
