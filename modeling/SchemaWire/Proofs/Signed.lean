import SchemaWire.Wire.Word

/-!
# Integers in words

Integers of the range of a width survive a trip through its octets, signed (`signed_ofInt`) and unsigned
(`ofBytes_ofInt`), and all octets come from such integers (`ofInt_signed`, `ofInt_ofBytes`). Each octet is a digit
of the integer, the lowest first (`isLittleEndian_ofInt`).
-/

namespace SchemaWire.Word

@[simp] theorem length_ofInt (width : Nat) (v : Int) : (ofInt width v).length = width := by
  simp [ofInt]

/-- Octets hold an integer modulo the first power that does not fit. -/
theorem ofBytes_ofInt_emod (width : Nat) (v : Int) :
    (ofBytes (ofInt width v) : Int) = v % (Nat.pow 256 width : Nat) := by
  have hpos : 0 < Nat.pow 256 width := Nat.pow_pos (by decide)
  have hlow := Int.emod_nonneg v (b := (Nat.pow 256 width : Nat)) (by omega)
  have hhigh := Int.emod_lt_of_pos v (b := (Nat.pow 256 width : Nat)) (by omega)
  rw [ofInt, ofBytes_toBytes (by omega)]
  omega

theorem signed_ofInt {width : Nat} {v : Int} (hlow : -(Nat.pow 256 width : Nat) ≤ 2 * v)
    (hhigh : 2 * v < (Nat.pow 256 width : Nat)) : signed (ofInt width v) = v := by
  rw [signed, length_ofInt, ofBytes_ofInt_emod, Int.emod_bmod]
  exact Int.bmod_eq_of_le_mul_two (by omega) (by omega)

theorem ofInt_of_emod_eq {bytes : Bytes} {v : Int}
    (h : v % (Nat.pow 256 bytes.length : Nat) = (ofBytes bytes : Int) % (Nat.pow 256 bytes.length : Nat)) :
    ofInt bytes.length v = bytes := by
  have hlt := ofBytes_lt bytes
  rw [ofInt, h, Int.emod_eq_of_lt (by omega) (by omega), Int.toNat_natCast, toBytes_ofBytes]

theorem ofInt_ofBytes (bytes : Bytes) : ofInt bytes.length (ofBytes bytes) = bytes :=
  ofInt_of_emod_eq rfl

theorem ofInt_signed (bytes : Bytes) : ofInt bytes.length (signed bytes) = bytes :=
  ofInt_of_emod_eq (Int.bmod_emod ..)

theorem signed_bounds (bytes : Bytes) :
    -(Nat.pow 256 bytes.length : Nat) ≤ 2 * signed bytes ∧ 2 * signed bytes < (Nat.pow 256 bytes.length : Nat) := by
  have hpos : 0 < Nat.pow 256 bytes.length := Nat.pow_pos (by decide)
  have hlow := Int.le_bmod (x := (ofBytes bytes : Int)) hpos
  have hhigh := Int.bmod_lt (x := (ofBytes bytes : Int)) hpos
  simp only [signed]
  omega

/-! ## Digits -/

/-- Whether octets are those of an integer, the lowest first: each is a digit to the base 256. Negative integers are
those of division towards negative infinity. -/
def IsLittleEndian (octets : Bytes) (n : Int) : Prop :=
  ∀ i (h : i < octets.length), (octets[i].toNat : Int) = n / (Nat.pow 256 i : Nat) % 256

theorem isLittleEndian_toBytes (width n : Nat) : IsLittleEndian (toBytes width n) n := by
  induction width generalizing n with
  | zero =>
    intro i h
    cases h
  | succ width ih =>
    intro i h
    cases i with
    | zero =>
      have hone : Nat.pow 256 0 = 1 := rfl
      simp only [toBytes, List.getElem_cons_zero, UInt8.toNat_ofNat', hone]
      omega
    | succ i =>
      have hrest := ih (n / 256) i (Nat.lt_of_succ_lt_succ h)
      have hpow : Nat.pow 256 (i + 1) = 256 * Nat.pow 256 i := Nat.mul_comm _ _
      simp only [toBytes, List.getElem_cons_succ]
      rw [hrest, hpow, ← Int.natCast_ediv, ← Int.natCast_ediv, Nat.div_div_eq_div_mul]

/-- The digits below a power are those of the remainder. -/
theorem ediv_emod_of_emod_pow (n : Int) {i width : Nat} (h : i < width) :
    n % (Nat.pow 256 width : Nat) / (Nat.pow 256 i : Nat) % 256 = n / (Nat.pow 256 i : Nat) % 256 := by
  obtain ⟨k, rfl⟩ := Nat.exists_eq_add_of_lt h
  have hpow : Nat.pow 256 (i + k + 1) = Nat.pow 256 i * (256 * Nat.pow 256 k) := by
    show 256 ^ (i + k) * 256 = 256 ^ i * (256 * 256 ^ k)
    rw [Nat.pow_add, Nat.mul_assoc, Nat.mul_comm 256]
  have hpos : ((Nat.pow 256 i : Nat) : Int) ≠ 0 := by
    have := Nat.pow_pos (n := i) (show 0 < 256 by decide)
    exact Int.natCast_ne_zero.mpr (Nat.ne_of_gt this)
  have hsplit := Int.emod_add_mul_ediv n (Nat.pow 256 (i + k + 1) : Nat)
  generalize n % (Nat.pow 256 (i + k + 1) : Nat) = low at hsplit ⊢
  rw [← hsplit, hpow]
  simp only [Int.natCast_mul, Int.mul_assoc]
  rw [Int.add_mul_ediv_left _ _ hpos]
  exact (Int.add_mul_emod_self_left ..).symm

theorem isLittleEndian_ofInt (width : Nat) (n : Int) : IsLittleEndian (ofInt width n) n := by
  intro i h
  have hpos : 0 < Nat.pow 256 width := Nat.pow_pos (by decide)
  have hlow := Int.emod_nonneg n (b := (Nat.pow 256 width : Nat)) (by omega)
  have hdigit := isLittleEndian_toBytes width (n % (Nat.pow 256 width : Nat)).toNat i h
  rw [Int.toNat_of_nonneg hlow, ediv_emod_of_emod_pow n (by simpa using h)] at hdigit
  exact hdigit

/-- The digits and their number determine octets. -/
theorem IsLittleEndian.unique {octets others : Bytes} {n : Int} (h : IsLittleEndian octets n)
    (h' : IsLittleEndian others n) (hlength : octets.length = others.length) : octets = others := by
  apply List.ext_getElem hlength
  intro i hi hi'
  have hdigit : (octets[i].toNat : Int) = others[i].toNat := (h i hi).trans (h' i hi').symm
  exact UInt8.toNat_inj.mp (Int.ofNat_inj.mp hdigit)

theorem ofInt_natCast (width n : Nat) : ofInt width n = toBytes width n := by
  refine (isLittleEndian_ofInt width n).unique (isLittleEndian_toBytes width n) ?_
  rw [length_ofInt, length_toBytes]

theorem eq_toBytes_of_isLittleEndian {octets : Bytes} {n : Nat} (h : IsLittleEndian octets n) :
    octets = toBytes octets.length n :=
  h.unique (isLittleEndian_toBytes _ n) (length_toBytes _ n).symm

theorem eq_ofInt_of_isLittleEndian {octets : Bytes} {n : Int} (h : IsLittleEndian octets n) :
    octets = ofInt octets.length n :=
  h.unique (isLittleEndian_ofInt _ n) (length_ofInt _ n).symm

end SchemaWire.Word
