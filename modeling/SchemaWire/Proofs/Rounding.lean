import Mathlib.Data.Int.Log
import Mathlib.Data.Rat.Floor
import Mathlib.Tactic.FieldSimp
import Mathlib.Tactic.Linarith
import Mathlib.Algebra.Order.Field.Power
import Mathlib.Tactic.Ring
import SchemaWire.Number.Float

/-!
# Rounding what needs no rounding

The finite patterns of a format and the pairs `(m, q)` in normal form stand for each other
(`unpack_pack`, `pack_unpack`), and the nearest pattern of a quotient that is `m · 2 ^ q` for such a pair is
the pattern of the pair (`nearest_of_isNormal`). Every number of the 32-bit format has a normal form in the
64-bit format, so widening and narrowing gives the number back (`toSingle_toDouble`).
-/

namespace SchemaWire.Number

theorem pow_eq (b n : Nat) : Nat.pow b n = b ^ n := rfl

theorem roundHalfEven_mul_right (m : Nat) {den : Nat} (h : 0 < den) : roundHalfEven (m * den) den = m := by
  have hquot : m * den / den = m := Nat.mul_div_cancel m h
  have hrest : m * den % den = 0 := Nat.mul_mod_left m den
  simp only [roundHalfEven, hquot, hrest]
  rw [if_neg (by omega)]

namespace Format

/-! ## Quotients as rational numbers -/

theorem ratio_den_pos (m : Nat) (q : Int) : 0 < (ratio m q).2 :=
  Nat.pow_pos (by decide)

theorem ratio_value (m : Nat) (q : Int) : ((ratio m q).1 : ℚ) / (ratio m q).2 = m * 2 ^ q := by
  have h2 : (2 : ℚ) ≠ 0 := by norm_num
  have hq : (q.toNat : Int) - (-q).toNat = q := by omega
  simp only [ratio, pow_eq]
  push_cast
  rw [mul_div_assoc, ← zpow_natCast, ← zpow_natCast, ← zpow_sub₀ h2, hq]

theorem log_eq_of_bounds {r : ℚ} {e : Int} (hlow : 2 ^ e ≤ r) (hhigh : r < 2 ^ (e + 1)) : Int.log 2 r = e := by
  have hpos : 0 < r := lt_of_lt_of_le (by positivity) hlow
  have h1 := (Int.zpow_le_iff_le_log (b := 2) (by decide) hpos).mp (by exact_mod_cast hlow)
  have h2 := (Int.lt_zpow_iff_log_lt (b := 2) (by decide) hpos).mp (by exact_mod_cast hhigh)
  omega

/-- The quotient lies within a factor of two of the quotient of the powers below its parts. -/
theorem quotient_bounds {num den : Nat} (hnum : 0 < num) (hden : 0 < den) :
    (2 : ℚ) ^ ((num.log2 : Int) - den.log2 - 1) ≤ num / den ∧
      (num : ℚ) / den < 2 ^ ((num.log2 : Int) - den.log2 + 1) := by
  have h2 : (2 : ℚ) ≠ 0 := by norm_num
  have hd : (0 : ℚ) < den := by exact_mod_cast hden
  have hnlow : (2 : ℚ) ^ (num.log2 : Int) ≤ num := by
    exact_mod_cast Nat.log2_self_le (Nat.pos_iff_ne_zero.mp hnum)
  have hnhigh : (num : ℚ) < 2 ^ ((num.log2 : Int) + 1) := by exact_mod_cast Nat.lt_log2_self (n := num)
  have hdlow : (2 : ℚ) ^ (den.log2 : Int) ≤ den := by
    exact_mod_cast Nat.log2_self_le (Nat.pos_iff_ne_zero.mp hden)
  have hdhigh : (den : ℚ) < 2 ^ ((den.log2 : Int) + 1) := by exact_mod_cast Nat.lt_log2_self (n := den)
  constructor
  · rw [le_div_iff₀ hd]
    calc (2 : ℚ) ^ ((num.log2 : Int) - den.log2 - 1) * den
        ≤ 2 ^ ((num.log2 : Int) - den.log2 - 1) * 2 ^ ((den.log2 : Int) + 1) := by gcongr
      _ = 2 ^ (num.log2 : Int) := by rw [← zpow_add₀ h2]; congr 1; ring
      _ ≤ num := hnlow
  · rw [div_lt_iff₀ hd]
    calc (num : ℚ) < 2 ^ ((num.log2 : Int) + 1) := hnhigh
      _ = 2 ^ ((num.log2 : Int) - den.log2 + 1) * 2 ^ (den.log2 : Int) := by
        rw [← zpow_add₀ h2]; congr 1; ring
      _ ≤ 2 ^ ((num.log2 : Int) - den.log2 + 1) * den := by gcongr

theorem exponentOf_eq_log {num den : Nat} (hnum : 0 < num) (hden : 0 < den) :
    exponentOf num den = Int.log 2 ((num : ℚ) / den) := by
  obtain ⟨hlow, hhigh⟩ := quotient_bounds hnum hden
  have hd : (0 : ℚ) < den := by exact_mod_cast hden
  generalize hg : (num.log2 : Int) - den.log2 = guess at hlow hhigh
  have hunit : (0 : ℚ) < (ratio 1 guess).2 := by exact_mod_cast ratio_den_pos 1 guess
  have htest : den * (ratio 1 guess).1 ≤ num * (ratio 1 guess).2 ↔ (2 : ℚ) ^ guess ≤ num / den := by
    have hvalue := ratio_value 1 guess
    rw [Nat.cast_one, one_mul] at hvalue
    rw [← hvalue, div_le_div_iff₀ hunit hd, mul_comm den]
    exact_mod_cast Iff.rfl
  simp only [exponentOf, hg]
  split_ifs with h
  · exact (log_eq_of_bounds (htest.mp h) hhigh).symm
  · have hlt : (num : ℚ) / den < 2 ^ (guess - 1 + 1) := by
      rw [sub_add_cancel]
      exact not_le.mp (htest.not.mp h)
    exact (log_eq_of_bounds hlow hlt).symm

/-! ## Normal forms -/

/-- Whether `m · 2 ^ q` is how a format writes a number: as many bits as there are, unless the exponent is
already the least one. -/
def IsNormal (f : Format) (m : Nat) (q : Int) : Prop :=
  m < 2 ^ (f.fractionBits + 1) ∧ f.minExponent ≤ q ∧ (q = f.minExponent ∨ 2 ^ f.fractionBits ≤ m)

/-- The pattern of a normal form. -/
def pack (f : Format) (m : Nat) (q : Int) : Nat :=
  (q - f.minExponent).toNat * 2 ^ f.fractionBits + m

variable {f : Format}

theorem unpack_isNormal (f : Format) (pattern : Nat) : f.IsNormal (f.unpack pattern).1 (f.unpack pattern).2 := by
  have hfraction : pattern % 2 ^ f.fractionBits < 2 ^ f.fractionBits := Nat.mod_lt _ (by positivity)
  have hdouble : 2 ^ (f.fractionBits + 1) = 2 ^ f.fractionBits * 2 := pow_succ ..
  simp only [unpack, pow_eq, IsNormal]
  split_ifs with h
  · exact ⟨by omega, le_refl _, .inl rfl⟩
  · exact ⟨by simp only; omega, by simp, .inr (by simp)⟩

theorem pack_unpack (f : Format) (pattern : Nat) :
    f.pack (f.unpack pattern).1 (f.unpack pattern).2 = pattern := by
  have hsplit := Nat.div_add_mod pattern (2 ^ f.fractionBits)
  simp only [unpack, pow_eq, pack]
  split_ifs with h
  · rw [h] at hsplit
    simpa using hsplit
  · obtain ⟨e, he⟩ : ∃ e, pattern / 2 ^ f.fractionBits = e + 1 := ⟨_, (Nat.succ_pred h).symm⟩
    simp only [he] at hsplit ⊢
    simp only [add_tsub_cancel_right, add_sub_cancel_left, Int.toNat_natCast]
    linarith

theorem unpack_pack {m : Nat} {q : Int} (h : f.IsNormal m q) : f.unpack (f.pack m q) = (m, q) := by
  obtain ⟨hm, hq, hleast⟩ := h
  have hpow : 0 < 2 ^ f.fractionBits := by positivity
  have hdouble : 2 ^ (f.fractionBits + 1) = 2 ^ f.fractionBits * 2 := pow_succ ..
  obtain ⟨k, hk⟩ : ∃ k : Nat, q = f.minExponent + k := ⟨(q - f.minExponent).toNat, by omega⟩
  subst hk
  simp only [pack, add_sub_cancel_left, Int.toNat_natCast, unpack, pow_eq]
  by_cases hfull : 2 ^ f.fractionBits ≤ m
  · obtain ⟨r, rfl⟩ : ∃ r, m = 2 ^ f.fractionBits + r := ⟨m - 2 ^ f.fractionBits, by omega⟩
    have hr : r < 2 ^ f.fractionBits := by omega
    have hsum : k * 2 ^ f.fractionBits + (2 ^ f.fractionBits + r) = r + (k + 1) * 2 ^ f.fractionBits := by ring
    have hdiv : (r + (k + 1) * 2 ^ f.fractionBits) / 2 ^ f.fractionBits = k + 1 := by
      rw [Nat.add_mul_div_right _ _ hpow, Nat.div_eq_of_lt hr, Nat.zero_add]
    have hmod : (r + (k + 1) * 2 ^ f.fractionBits) % 2 ^ f.fractionBits = r := by
      rw [Nat.add_mul_mod_self_right, Nat.mod_eq_of_lt hr]
    rw [hsum, hdiv, hmod, if_neg (by omega)]
    simp
  · have hk : k = 0 := by
      obtain h | h := hleast
      · omega
      · exact absurd h hfull
    subst hk
    have hlt : m < 2 ^ f.fractionBits := by omega
    simp [Nat.div_eq_of_lt hlt, Nat.mod_eq_of_lt hlt]

/-! ## Rounding a number of the format -/

/-- The exponent that rounding chooses for a number in normal form is its own. -/
theorem exponent_of_isNormal {num den m : Nat} {q : Int} (hnum : 0 < num) (hden : 0 < den)
    (hvalue : (num : ℚ) / den = m * 2 ^ q) (h : f.IsNormal m q) :
    max (exponentOf num den - f.fractionBits) f.minExponent = q := by
  have h2 : (2 : ℚ) ≠ 0 := by norm_num
  obtain ⟨hm, hq, hleast⟩ := h
  have hlog : exponentOf num den < q + f.fractionBits + 1 := by
    rw [exponentOf_eq_log hnum hden, ← Int.lt_zpow_iff_log_lt (by decide) (by positivity), hvalue]
    calc (m : ℚ) * 2 ^ q < 2 ^ (f.fractionBits + 1) * 2 ^ q := by
          gcongr
          exact_mod_cast hm
      _ = ((2 : Nat) : ℚ) ^ (q + f.fractionBits + 1) := by
          rw [← zpow_natCast, ← zpow_add₀ h2]
          push_cast
          congr 1
          ring
  obtain rfl | hfull := hleast
  · omega
  · have hge : q + f.fractionBits ≤ exponentOf num den := by
      rw [exponentOf_eq_log hnum hden, ← Int.zpow_le_iff_le_log (by decide) (by positivity), hvalue]
      calc ((2 : Nat) : ℚ) ^ (q + f.fractionBits) = 2 ^ f.fractionBits * 2 ^ q := by
            rw [← zpow_natCast, ← zpow_add₀ h2]
            push_cast
            congr 1
            ring
        _ ≤ m * 2 ^ q := by
            gcongr
            exact_mod_cast hfull
    omega

theorem nearest_of_isNormal {num den m : Nat} {q : Int} (hnum : 0 < num) (hden : 0 < den)
    (hvalue : (num : ℚ) / den = m * 2 ^ q) (h : f.IsNormal m q) :
    f.nearest num den = min (f.pack m q) f.infinity := by
  have hd : (0 : ℚ) < den := by exact_mod_cast hden
  have hunit := ratio_den_pos 1 q
  have hunit' : (0 : ℚ) < (ratio 1 q).2 := by exact_mod_cast hunit
  have hscale : 0 < (ratio 1 q).1 := by simp [ratio]
  have hmul : num * (ratio 1 q).2 = m * (den * (ratio 1 q).1) := by
    have hone := ratio_value 1 q
    rw [Nat.cast_one, one_mul] at hone
    rw [← hone, mul_div, div_eq_div_iff hd.ne' hunit'.ne'] at hvalue
    have hvalue : (num * (ratio 1 q).2 : ℚ) = m * (den * (ratio 1 q).1) := by rw [hvalue]; ring
    exact_mod_cast hvalue
  simp only [nearest, exponent_of_isNormal hnum hden hvalue h, hmul]
  rw [if_neg (by omega), roundHalfEven_mul_right m (by positivity)]
  rfl

end Format

end SchemaWire.Number

namespace SchemaWire

open Number

/-! ## Signs and patterns -/

theorem Single.ext_of_parts {x : Single} : Single.ofParts x.isNegative x.magnitude = x := by
  obtain ⟨bits⟩ := x
  have hbits := bits.toNat_lt
  have hsum : bits.toNat % 0x8000_0000 + (if 0x8000_0000 ≤ bits.toNat then 0x8000_0000 else 0) = bits.toNat := by
    split_ifs <;> omega
  simp [Single.ofParts, Single.isNegative, Single.magnitude, hsum]

theorem Double.toNat_ofParts {negative : Bool} {pattern : Nat} (h : pattern < 0x8000_0000_0000_0000) :
    (Double.ofParts negative pattern).bits.toNat = pattern + if negative then 0x8000_0000_0000_0000 else 0 := by
  simp only [Double.ofParts, UInt64.toNat_ofNat']
  split_ifs <;> omega

theorem Double.magnitude_ofParts {negative : Bool} {pattern : Nat} (h : pattern < 0x8000_0000_0000_0000) :
    (Double.ofParts negative pattern).magnitude = pattern := by
  rw [Double.magnitude, toNat_ofParts h]
  split_ifs <;> omega

theorem Double.isNegative_ofParts {negative : Bool} {pattern : Nat} (h : pattern < 0x8000_0000_0000_0000) :
    (Double.ofParts negative pattern).isNegative = negative := by
  rw [Double.isNegative, toNat_ofParts h]
  cases negative <;> simp
  omega

theorem infinity_binary32 : binary32.infinity = 0x7F80_0000 := by decide

theorem infinity_binary64 : binary64.infinity = 0x7FF0_0000_0000_0000 := by decide

/-! ## From 32 bits to 64 and back -/

/-- A positive number of few enough bits fills the bits of the 64-bit format after a shift. -/
theorem exists_isNormal {m : Nat} {q : Int} (hm : 0 < m) (hlt : m < 2 ^ 53) (hq : -1022 ≤ q) :
    ∃ k : Nat, binary64.IsNormal (m * 2 ^ k) (q - k) := by
  have hlow : 2 ^ m.log2 ≤ m := Nat.log2_self_le hm.ne'
  have hhigh : m < 2 ^ (m.log2 + 1) := Nat.lt_log2_self
  have hlog : m.log2 < 53 := (Nat.log2_lt hm.ne').mpr hlt
  refine ⟨52 - m.log2, ?_, ?_, .inr ?_⟩
  · calc m * 2 ^ (52 - m.log2) < 2 ^ (m.log2 + 1) * 2 ^ (52 - m.log2) := by gcongr
      _ = 2 ^ 53 := by rw [← pow_add]; congr 1; omega
  · have h64 : binary64.minExponent = -1074 := by decide
    omega
  · calc 2 ^ 52 = 2 ^ m.log2 * 2 ^ (52 - m.log2) := by rw [← pow_add]; congr 1; omega
      _ ≤ m * 2 ^ (52 - m.log2) := by gcongr

/-- So does every positive number of the 32-bit format. -/
theorem exists_wider {m : Nat} {q : Int} (h : binary32.IsNormal m q) (hm : 0 < m) :
    ∃ k : Nat, binary64.IsNormal (m * 2 ^ k) (q - k) := by
  have h32 : binary32.minExponent = -149 := by decide
  have hlt : m < 2 ^ 24 := h.1
  exact exists_isNormal hm (by omega) (by have := h.2.1; omega)

theorem mul_two_pow_shift (m k : Nat) (q : Int) : (m : ℚ) * 2 ^ q = (m * 2 ^ k : Nat) * 2 ^ (q - k) := by
  rw [zpow_sub₀ (by norm_num), zpow_natCast]
  push_cast
  field_simp

/-- The pattern of one format that is nearest to the number of a pattern of another. -/
def Number.Format.convert (f g : Format) (pattern : Nat) : Nat :=
  g.nearest (ratio (f.unpack pattern).1 (f.unpack pattern).2).1 (ratio (f.unpack pattern).1 (f.unpack pattern).2).2

theorem convert_of_isNormal {f g : Format} {pattern m : Nat} {q : Int} (hpos : 0 < (f.unpack pattern).1)
    (hvalue : ((f.unpack pattern).1 : ℚ) * 2 ^ (f.unpack pattern).2 = m * 2 ^ q) (h : g.IsNormal m q) :
    f.convert g pattern = min (g.pack m q) g.infinity := by
  have hnum : 0 < (Format.ratio (f.unpack pattern).1 (f.unpack pattern).2).1 := by
    simp only [Format.ratio, pow_eq]
    positivity
  exact Format.nearest_of_isNormal hnum (Format.ratio_den_pos _ _) ((Format.ratio_value _ _).trans hvalue) h

theorem convert_zero {f g : Format} {pattern : Nat} (h : (f.unpack pattern).1 = 0) : f.convert g pattern = 0 := by
  simp [Format.convert, Format.ratio, Format.nearest, h]

/-- What is finite in the 32-bit format is so in the 64-bit format, with room to spare. -/
theorem pack_lt_infinity {m k : Nat} {q : Int} (hwide : binary64.IsNormal (m * 2 ^ k) (q - k))
    (h : binary32.pack m q < binary32.infinity) : binary64.pack (m * 2 ^ k) (q - k) < binary64.infinity := by
  have h32 : binary32.minExponent = -149 := by decide
  have h64 : binary64.minExponent = -1074 := by decide
  have hm : m * 2 ^ k < 2 ^ 53 := hwide.1
  have h23 : binary32.fractionBits = 23 := rfl
  have h52 : binary64.fractionBits = 52 := rfl
  rw [Format.pack, h32, h23, infinity_binary32] at h
  rw [Format.pack, h64, h52, infinity_binary64]
  have hexponent : (q - k - -1074).toNat ≤ 1179 := by omega
  calc (q - k - -1074).toNat * 2 ^ 52 + m * 2 ^ k < 1179 * 2 ^ 52 + 2 ^ 53 :=
        Nat.add_lt_add_of_le_of_lt (Nat.mul_le_mul_right _ hexponent) hm
    _ < 0x7FF0_0000_0000_0000 := by norm_num

theorem convert_convert {pattern : Nat} (hfinite : pattern < binary32.infinity) :
    binary32.convert binary64 pattern < binary64.infinity ∧
      binary64.convert binary32 (binary32.convert binary64 pattern) = pattern := by
  have hpack := binary32.pack_unpack pattern
  have hnormal := binary32.unpack_isNormal pattern
  generalize hunpack : binary32.unpack pattern = parts at hpack hnormal
  obtain ⟨m, q⟩ := parts
  simp only at hpack hnormal
  obtain hm | hm := Nat.eq_zero_or_pos m
  · have hzero : pattern = 0 := by
      obtain ⟨-, -, hq | hfull⟩ := hnormal
      · simpa [Format.pack, hm, hq] using hpack.symm
      · simp [hm] at hfull
    subst hzero
    have h64 : (binary64.unpack 0).1 = 0 := by decide
    rw [convert_zero (by rw [hunpack]; exact hm), convert_zero h64]
    decide
  · obtain ⟨k, hwide⟩ := exists_wider hnormal hm
    have hshift := mul_two_pow_shift m k q
    have hlarge : binary64.pack (m * 2 ^ k) (q - k) < binary64.infinity :=
      pack_lt_infinity hwide (by rw [hpack]; exact hfinite)
    have hconvert : binary32.convert binary64 pattern = binary64.pack (m * 2 ^ k) (q - k) := by
      rw [convert_of_isNormal (by rw [hunpack]; exact hm) (by rw [hunpack]; exact hshift) hwide]
      exact min_eq_left hlarge.le
    have hback := Format.unpack_pack hwide
    rw [hconvert]
    refine ⟨hlarge, ?_⟩
    rw [convert_of_isNormal (m := m) (q := q) (by rw [hback]; positivity) (by rw [hback]; exact hshift.symm) hnormal,
      hpack]
    exact min_eq_left hfinite.le

theorem toDouble_of_finite {x : Single} (h : x.magnitude < binary32.infinity) :
    x.toDouble = Double.ofParts x.isNegative (binary32.convert binary64 x.magnitude) := by
  have hnan : x.isNaN = false := by simpa [Single.isNaN] using h.le
  simp only [Single.toDouble, hnan, h, if_true]
  rfl

/-- A number of 32 bits survives a trip through 64 bits. Bits that are no number need not: they come back
quiet. -/
theorem toSingle_toDouble {x : Single} (h : x.isNaN = false) : x.toDouble.toSingle = x := by
  have hle : x.magnitude ≤ binary32.infinity := by simpa [Single.isNaN] using h
  obtain hfinite | hinfinite := Nat.lt_or_eq_of_le hle
  · obtain ⟨hwide, hback⟩ := convert_convert hfinite
    have hbound : binary32.convert binary64 x.magnitude < 0x8000_0000_0000_0000 := by
      rw [infinity_binary64] at hwide
      omega
    rw [toDouble_of_finite hfinite]
    simp only [Double.toSingle, Double.isNaN, Double.isFinite, Double.magnitude_ofParts hbound,
      Double.isNegative_ofParts hbound, hwide, decide_true, if_true]
    rw [if_neg (by simpa using hwide.le)]
    calc Single.ofParts x.isNegative (binary64.convert binary32 (binary32.convert binary64 x.magnitude))
        = Single.ofParts x.isNegative x.magnitude := by rw [hback]
      _ = x := Single.ext_of_parts
  · have hbound : binary64.infinity < 0x8000_0000_0000_0000 := by decide
    have hwide : x.toDouble = Double.ofParts x.isNegative binary64.infinity := by
      simp [Single.toDouble, h, hinfinite]
    rw [hwide]
    simp only [Double.toSingle, Double.isNaN, Double.isFinite, Double.magnitude_ofParts hbound,
      Double.isNegative_ofParts hbound, lt_irrefl, decide_false, Bool.false_eq_true, if_false]
    rw [← hinfinite, Single.ext_of_parts]

end SchemaWire
