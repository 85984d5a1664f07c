import SchemaWire.Proofs.Conformance
import SchemaWire.Proofs.Numerals

/-!
# Numbers of 64 bits as text

A decimal text has the bits of the integer that it denotes, where this is a number of 64 bits (`bits_of_isDecimal`).
Only a zero with a minus is refused as an unsigned number although it is one. After `0x`, pairs of hexadecimal digits
have the bits that they write, and the text that bits are read as has these bits again (`bits_of_hexadecimal`).
-/

namespace SchemaWire

/-! ## Decimal texts -/

/-- Whether a text is a decimal numeral: one or more digits behind a sign or none. With it come whether the sign is a
minus, and the integer that is denoted. -/
inductive IsDecimal : List Char → Bool → Int → Prop
  | bare {digits : List Char} {m : Nat} (hne : digits ≠ []) (h : Text.Writes 10 digits m) : IsDecimal digits false m
  | plus {digits : List Char} {m : Nat} (hne : digits ≠ []) (h : Text.Writes 10 digits m) :
    IsDecimal ('+' :: digits) false m
  | minus {digits : List Char} {m : Nat} (hne : digits ≠ []) (h : Text.Writes 10 digits m) :
    IsDecimal ('-' :: digits) true (-m)

theorem Text.Writes.isDigit {digits : List Char} {m : Nat} (h : Writes 10 digits m) {c : Char} (hc : c ∈ digits) :
    c.isDigit = true :=
  isDigit_iff.mpr ((writes_iff.mp h).1 c hc)

namespace LongInput

open Text

variable {cs : List Char} {text : String} {negative : Bool} {m : Nat} {n : Int}

theorem decimal?_of_isDecimal (h : IsDecimal cs negative n) : decimal? cs = some (negative, n.natAbs) := by
  cases h with
  | @bare _ m hne h =>
    have hread := decimal?_eq_some_iff.mpr ⟨hne, h⟩
    unfold decimal?
    split
    · exact absurd (h.isDigit List.mem_cons_self) (by decide)
    · exact absurd (h.isDigit List.mem_cons_self) (by decide)
    · rw [hread]
      rfl
  | @plus digits m hne h =>
    rw [decimal?, decimal?_eq_some_iff.mpr ⟨hne, h⟩]
    rfl
  | @minus digits m hne h =>
    rw [decimal?, decimal?_eq_some_iff.mpr ⟨hne, h⟩, Int.natAbs_neg]
    rfl

theorem isDecimal_of_decimal? (h : decimal? cs = some (negative, m)) : ∃ n, IsDecimal cs negative n := by
  unfold decimal? at h
  split at h
  · next digits =>
    obtain ⟨k, hk, heq⟩ := Option.map_eq_some_iff.mp h
    obtain ⟨hne, hwrites⟩ := decimal?_eq_some_iff.mp hk
    cases heq
    exact ⟨_, .minus hne hwrites⟩
  · next digits =>
    obtain ⟨k, hk, heq⟩ := Option.map_eq_some_iff.mp h
    obtain ⟨hne, hwrites⟩ := decimal?_eq_some_iff.mp hk
    cases heq
    exact ⟨_, .plus hne hwrites⟩
  · obtain ⟨k, hk, heq⟩ := Option.map_eq_some_iff.mp h
    obtain ⟨hne, hwrites⟩ := decimal?_eq_some_iff.mp hk
    cases heq
    exact ⟨_, .bare hne hwrites⟩

/-- The letter of `0x` is no digit, and no sign comes before its zero. -/
theorem not_prefix_of_isDecimal (h : IsDecimal cs negative n) : ¬['0', 'x'] <+: cs := by
  rintro ⟨rest, rfl⟩
  cases h with
  | bare _ h => exact absurd (h.isDigit (c := 'x') (by simp)) (by decide)

/-- The sign is that of the integer, but for zero. -/
theorem sign_of_isDecimal (h : IsDecimal cs negative n) : if negative then n ≤ 0 else 0 ≤ n := by
  cases h with
  | bare => exact Int.natCast_nonneg _
  | plus => exact Int.natCast_nonneg _
  | minus => simp

theorem ofInt_natCast (m : Nat) : UInt64.ofInt m = UInt64.ofNat m := by
  apply UInt64.toNat_inj.mp
  rw [UInt64.ofInt, UInt64.toNat_ofNat', UInt64.toNat_ofNat']
  omega

theorem ofInt_neg (h : m ≤ 0x8000_0000_0000_0000) : UInt64.ofInt (-m) = UInt64.ofNat (UInt64.size - m) := by
  have hsize : UInt64.size = 2 ^ 64 := rfl
  apply UInt64.toNat_inj.mp
  rw [UInt64.ofInt, UInt64.toNat_ofNat', UInt64.toNat_ofNat']
  omega

theorem toUInt64_eq_ofInt (v : Int64) : v.toUInt64 = UInt64.ofInt v.toInt := by
  have hnat : v.toUInt64.toNat = v.toBitVec.toNat := (Int64.toNat_toBitVec v).symm
  have hint : v.toInt = (v.toBitVec.toNat : Int).bmod (2 ^ 64) := BitVec.toInt_eq_toNat_bmod v.toBitVec
  have hmod := Int.bmod_emod (x := (v.toBitVec.toNat : Int)) (m := 2 ^ 64)
  have hlt : v.toBitVec.toNat < 2 ^ 64 := v.toBitVec.isLt
  apply UInt64.toNat_inj.mp
  rw [UInt64.ofInt, UInt64.toNat_ofNat', hnat, hint]
  omega

/-- Without a minus, the integer must fit 64 bits. -/
theorem textBits_of_unsigned (h : IsDecimal text.toList false n) (maybeNegative : Bool) :
    textBits text maybeNegative =
      if n < 0x1_0000_0000_0000_0000 then .ok (UInt64.ofInt n) else .error (.invalidLong text) := by
  have hsize : UInt64.size = 0x1_0000_0000_0000_0000 := rfl
  obtain ⟨m, rfl⟩ := Int.eq_ofNat_of_zero_le (sign_of_isDecimal h)
  unfold textBits
  split
  · next heq => exact absurd ⟨_, heq.symm⟩ (not_prefix_of_isDecimal h)
  · rw [decimal?_of_isDecimal h, Int.natAbs_natCast, ofInt_natCast]
    by_cases hlt : m < UInt64.size
    · simp only [if_pos hlt]
      rw [if_pos (by omega)]
    · simp only [if_neg hlt]
      rw [if_neg (by omega)]

/-- With a minus, the integer must be in the signed range, and it must be welcome. -/
theorem textBits_of_negative (h : IsDecimal text.toList true n) (maybeNegative : Bool) :
    textBits text maybeNegative =
      if n < -0x8000_0000_0000_0000 then .error (.invalidLong text)
      else if maybeNegative then .ok (UInt64.ofInt n) else .error (.outOfRange .ulong n) := by
  obtain ⟨m, rfl⟩ := Int.exists_eq_neg_ofNat (sign_of_isDecimal h)
  unfold textBits
  split
  · next heq => exact absurd ⟨_, heq.symm⟩ (not_prefix_of_isDecimal h)
  · rw [decimal?_of_isDecimal h, Int.natAbs_neg, Int.natAbs_natCast]
    by_cases hlt : 0x8000_0000_0000_0000 < m
    · simp only [if_pos hlt]
      rw [if_pos (by omega)]
    · have hlow : ¬-(m : Int) < -0x8000_0000_0000_0000 := by omega
      simp only [if_neg hlt, if_neg hlow, ofInt_neg (Nat.not_lt.mp hlt)]

theorem textBits_of_not_isDecimal (hnone : ∀ negative n, ¬IsDecimal text.toList negative n)
    (hplain : ¬['0', 'x'] <+: text.toList) (maybeNegative : Bool) :
    textBits text maybeNegative = .error (.invalidLong text) := by
  unfold textBits
  split
  · next heq => exact absurd ⟨_, heq.symm⟩ hplain
  · cases hread : decimal? text.toList with
    | none => rfl
    | some found =>
      obtain ⟨n, hn⟩ := isDecimal_of_decimal? hread
      exact absurd hn (hnone _ n)

theorem signedBits_of_isDecimal (h : IsDecimal text.toList negative n) :
    (LongInput.text text).signedBits =
      if -0x8000_0000_0000_0000 ≤ n ∧ n < 0x1_0000_0000_0000_0000 then .ok (UInt64.ofInt n)
      else .error (.invalidLong text) := by
  cases negative with
  | false =>
    have hsign : 0 ≤ n := sign_of_isDecimal h
    rw [signedBits, textBits_of_unsigned h]
    by_cases hhigh : n < 0x1_0000_0000_0000_0000
    · rw [if_pos hhigh, if_pos (by omega)]
    · rw [if_neg hhigh, if_neg (by omega)]
  | true =>
    have hsign : n ≤ 0 := sign_of_isDecimal h
    rw [signedBits, textBits_of_negative h]
    by_cases hlow : n < -0x8000_0000_0000_0000
    · rw [if_pos hlow, if_neg (by omega)]
    · rw [if_neg hlow, if_pos rfl, if_pos (by omega)]

/-- A minus is accepted before nothing, not even before zero. -/
theorem unsignedBits_of_isDecimal (h : IsDecimal text.toList negative n) :
    (LongInput.text text).unsignedBits =
      if 0 ≤ n ∧ n < 0x1_0000_0000_0000_0000 ∧ ¬(n = 0 ∧ negative = true) then .ok (UInt64.ofInt n)
      else if -0x8000_0000_0000_0000 ≤ n ∧ n ≤ 0 then .error (.outOfRange .ulong n)
      else .error (.invalidLong text) := by
  cases negative with
  | false =>
    have hsign : 0 ≤ n := sign_of_isDecimal h
    rw [unsignedBits, textBits_of_unsigned h]
    by_cases hhigh : n < 0x1_0000_0000_0000_0000
    · rw [if_pos hhigh, if_pos ⟨hsign, hhigh, fun h => Bool.false_ne_true h.2⟩]
    · rw [if_neg hhigh, if_neg (by omega), if_neg (by omega)]
  | true =>
    have hsign : n ≤ 0 := sign_of_isDecimal h
    rw [unsignedBits, textBits_of_negative h]
    have hrefused : ¬(0 ≤ n ∧ n < 0x1_0000_0000_0000_0000 ∧ ¬(n = 0 ∧ true = true)) :=
      fun h => h.2.2 ⟨Int.le_antisymm hsign h.1, rfl⟩
    rw [if_neg hrefused]
    by_cases hlow : n < -0x8000_0000_0000_0000
    · rw [if_pos hlow, if_neg (by omega)]
    · rw [if_neg hlow, if_neg Bool.false_ne_true, if_pos (by omega)]

/-- A signed integer of 64 bits has the bits of its decimal texts. -/
theorem bits_eq_of_toInt_eq {v : Int64} (h : IsDecimal text.toList negative n) (hv : v.toInt = n) :
    (LongInput.text text).signedBits = (LongInput.int v).signedBits ∧
      (¬(n = 0 ∧ negative = true) → (LongInput.text text).unsignedBits = (LongInput.int v).unsignedBits) := by
  subst hv
  have hlow := v.le_toInt
  have hhigh := v.toInt_lt
  refine ⟨?_, fun hzero => ?_⟩
  · rw [signedBits_of_isDecimal h, if_pos (by omega), signedBits, toUInt64_eq_ofInt]
  · rw [unsignedBits_of_isDecimal h, unsignedBits, toUInt64_eq_ofInt]
    by_cases hneg : v.toInt < 0
    · rw [if_neg (by omega), if_pos (by omega), if_pos hneg]
    · rw [if_pos ⟨by omega, by omega, hzero⟩, if_neg hneg]

/-- An unsigned integer of 64 bits has the bits of its decimal texts. -/
theorem bits_eq_of_toNat_eq {v : UInt64} (h : IsDecimal text.toList negative n) (hv : v.toNat = n) :
    (LongInput.text text).signedBits = (LongInput.uint v).signedBits ∧
      (¬(n = 0 ∧ negative = true) → (LongInput.text text).unsignedBits = (LongInput.uint v).unsignedBits) := by
  subst hv
  have hlt := v.toNat_lt
  refine ⟨?_, fun hzero => ?_⟩
  · rw [signedBits_of_isDecimal h, if_pos (by omega), signedBits, ofInt_natCast, UInt64.ofNat_toNat]
  · rw [unsignedBits_of_isDecimal h, if_pos ⟨by omega, by omega, hzero⟩, unsignedBits, ofInt_natCast,
      UInt64.ofNat_toNat]

/-- A decimal text has the bits of the integer that it denotes, as the integer itself has where there is one of 64 bits.
Beyond the range it is no number, and below zero no unsigned one; zero with a minus is taken as if it were below. A text
that is no numeral and does not begin with `0x` is never a number. -/
theorem bits_of_isDecimal (text : String) :
    (∀ negative n, IsDecimal text.toList negative n →
      (LongInput.text text).signedBits =
        (if -0x8000_0000_0000_0000 ≤ n ∧ n < 0x1_0000_0000_0000_0000 then .ok (UInt64.ofInt n)
        else .error (.invalidLong text)) ∧
      (LongInput.text text).unsignedBits =
        (if 0 ≤ n ∧ n < 0x1_0000_0000_0000_0000 ∧ ¬(n = 0 ∧ negative = true) then .ok (UInt64.ofInt n)
        else if -0x8000_0000_0000_0000 ≤ n ∧ n ≤ 0 then .error (.outOfRange .ulong n)
        else .error (.invalidLong text)) ∧
      (∀ v : Int64, v.toInt = n → (LongInput.text text).signedBits = (LongInput.int v).signedBits ∧
        (¬(n = 0 ∧ negative = true) → (LongInput.text text).unsignedBits = (LongInput.int v).unsignedBits)) ∧
      (∀ v : UInt64, v.toNat = n → (LongInput.text text).signedBits = (LongInput.uint v).signedBits ∧
        (¬(n = 0 ∧ negative = true) → (LongInput.text text).unsignedBits = (LongInput.uint v).unsignedBits))) ∧
    ((∀ negative n, ¬IsDecimal text.toList negative n) → ¬['0', 'x'] <+: text.toList →
      (LongInput.text text).signedBits = .error (.invalidLong text) ∧
      (LongInput.text text).unsignedBits = .error (.invalidLong text)) := by
  constructor
  · intro negative n h
    exact ⟨signedBits_of_isDecimal h, unsignedBits_of_isDecimal h, fun _ => bits_eq_of_toInt_eq h,
      fun _ => bits_eq_of_toNat_eq h⟩
  · intro hnone hplain
    exact ⟨textBits_of_not_isDecimal hnone hplain true, textBits_of_not_isDecimal hnone hplain false⟩

/-- Zero with a minus denotes zero. It has the bits of zero as a signed number and is none without a sign. A sign alone
denotes nothing. -/
theorem bits_of_isDecimal_minusZero :
    (IsDecimal "-0".toList true 0 ∧ (LongInput.text "-0").signedBits = .ok 0 ∧
      (LongInput.text "-0").unsignedBits = .error (.outOfRange .ulong 0)) ∧
    (∀ negative n, ¬IsDecimal "+".toList negative n) ∧ ¬['0', 'x'] <+: "+".toList ∧
      (LongInput.text "+").unsignedBits = .error (.invalidLong "+") := by
  have hdigit : Writes 10 ['0'] 0 := writes_toDigits (by decide) (by decide) 0
  have hzero : IsDecimal "-0".toList true 0 := .minus (List.cons_ne_nil _ _) hdigit
  have hsign : ∀ negative n, ¬IsDecimal "+".toList negative n := by
    intro negative n h
    cases decimal?_of_isDecimal h
  have hplain : ¬['0', 'x'] <+: "+".toList := by decide
  obtain ⟨hsigned, hunsigned, _⟩ := (bits_of_isDecimal "-0").1 true 0 hzero
  exact ⟨⟨hzero, hsigned, hunsigned⟩, hsign, hplain, ((bits_of_isDecimal "+").2 hsign hplain).2⟩

/-! ## Hexadecimal texts -/

variable {digits : List Char} {octets : Bytes}

theorem textBits_hexadecimal (digits : List Char) (maybeNegative : Bool) :
    textBits ("0x" ++ String.ofList digits) maybeNegative = hexBits ("0x" ++ String.ofList digits) digits := by
  have htext : ("0x" ++ String.ofList digits).toList = '0' :: 'x' :: digits := by simp
  simp only [textBits, htext]

/-- Up to sixteen digits write a number of 64 bits. -/
theorem hexBits_eq_ok (h : Writes 16 digits m) (heven : digits.length % 2 = 0) (hlength : digits.length ≤ 16) :
    ∃ bits : UInt64, bits.toNat = m ∧ hexBits text digits = .ok bits := by
  obtain ⟨bytes, hbytes⟩ := Hex.exists_decode?_eq_some (writes_iff.mp h).1 heven
  obtain ⟨hcount, hwrites⟩ := Hex.writes_of_decode? hbytes
  have hlt := Word.ofBytes_lt bytes.reverse
  have hwide : Nat.pow 256 bytes.reverse.length ≤ Nat.pow 256 8 :=
    Nat.pow_le_pow_right (by decide) (by rw [List.length_reverse]; omega)
  have hsize : Nat.pow 256 8 = 2 ^ 64 := rfl
  refine ⟨UInt64.ofNat (Word.ofBytes bytes.reverse), ?_, ?_⟩
  · rw [UInt64.toNat_ofNat_of_lt' (by rw [UInt64.size]; omega), h.unique hwrites]
  · simp only [hexBits, hbytes]
    rw [if_neg (by omega)]

theorem hexBits_eq_invalidLong (h : Writes 16 digits m) (heven : digits.length % 2 = 0)
    (hlength : 16 < digits.length) : hexBits text digits = .error (.invalidLong text) := by
  obtain ⟨bytes, hbytes⟩ := Hex.exists_decode?_eq_some (writes_iff.mp h).1 heven
  obtain ⟨hcount, _⟩ := Hex.writes_of_decode? hbytes
  simp only [hexBits, hbytes]
  rw [if_pos (by omega)]

theorem hexBits_eq_invalidHex (h : ∀ m, Writes 16 digits m → digits.length % 2 ≠ 0) :
    hexBits text digits = .error (.invalidHex text) := by
  unfold hexBits
  split
  · rfl
  · next bytes hbytes =>
    obtain ⟨hcount, hwrites⟩ := Hex.writes_of_decode? hbytes
    exact absurd (by omega) (h _ hwrites)

theorem bits_of_longText (h : octets.length = 8) :
    ∃ bits : UInt64, Word.IsLittleEndian octets bits.toNat ∧ (LongInput.text (longText octets)).signedBits = .ok bits ∧
      (LongInput.text (longText octets)).unsignedBits = .ok bits := by
  have hholds := Word.isLittleEndian_toBytes 8 (UInt64.ofNat (Word.ofBytes octets)).toNat
  rw [toBytes_ofNat_ofBytes h] at hholds
  exact ⟨_, hholds, textBits_longText h true, textBits_longText h false⟩

/-- What is read from eight octets is written as they are, as a signed number or not. -/
theorem exists_encode_of_long {place next : Reader} (h : place.long = .ok (text, next)) :
    ∃ octets, octets.length = 8 ∧ place.Passes octets next ∧ text = longText octets ∧
      (Entry.long (.text text)).encode = .ok octets ∧ (Entry.ulong (.text text)).encode = .ok octets := by
  obtain ⟨octets, hlength, hpass, rfl⟩ := (Reader.map_raw_eq_ok_iff longText).mp h
  obtain ⟨bits, hholds, hsigned, hunsigned⟩ := bits_of_longText hlength
  have hback : Word.toBytes 8 bits.toNat = octets := by
    rw [← hlength]
    exact (Word.eq_toBytes_of_isLittleEndian hholds).symm
  refine ⟨octets, hlength, hpass, rfl, ?_, ?_⟩
  · rw [Entry.encode, hsigned, Except.map, hback]
  · rw [Entry.encode, hunsigned, Except.map, hback]

/-- Eight octets are read as `0x` and sixteen digits, which have the bits that the octets hold, signed or not, so what
is read is written as it was. After `0x` any text has the same bits signed or not: those that an even number of up to
sixteen digits writes. More digits are no number, and an odd number of them or anything else is no numeral. -/
theorem bits_of_hexadecimal :
    (∀ octets : Bytes, octets.length = 8 → IsLongText (longText octets) ∧ ∃ bits : UInt64,
      Word.IsLittleEndian octets bits.toNat ∧ (LongInput.text (longText octets)).signedBits = .ok bits ∧
      (LongInput.text (longText octets)).unsignedBits = .ok bits) ∧
    (∀ place text next, Reader.long place = .ok (text, next) → ∃ octets, octets.length = 8 ∧
      place.Passes octets next ∧ text = longText octets ∧ (Entry.long (.text text)).encode = .ok octets ∧
      (Entry.ulong (.text text)).encode = .ok octets) ∧
    ∀ digits : List Char, let text := "0x" ++ String.ofList digits
      (LongInput.text text).signedBits = (LongInput.text text).unsignedBits ∧
      (∀ n, Writes 16 digits n → digits.length % 2 = 0 →
        (digits.length ≤ 16 → ∃ bits : UInt64, bits.toNat = n ∧ (LongInput.text text).signedBits = .ok bits) ∧
        (16 < digits.length → (LongInput.text text).signedBits = .error (.invalidLong text))) ∧
      ((∀ n, Writes 16 digits n → digits.length % 2 ≠ 0) →
        (LongInput.text text).signedBits = .error (.invalidHex text)) := by
  refine ⟨fun octets h => ⟨isLongText_longText h, bits_of_longText h⟩, fun _ _ _ => exists_encode_of_long, ?_⟩
  intro digits text
  simp only [signedBits, unsignedBits, text, textBits_hexadecimal, true_and]
  refine ⟨fun n h heven => ⟨?_, ?_⟩, ?_⟩
  · exact hexBits_eq_ok h heven
  · exact hexBits_eq_invalidLong h heven
  · exact hexBits_eq_invalidHex

/-- Eight octets there and back, digits of both cases, too many zeros, and what is no digit. -/
theorem bits_of_hexadecimal_mixedCase :
    (longText [0x85, 0xFF, 0, 0, 0, 0, 0, 0x10] = "0x100000000000ff85" ∧
      ∃ bits : UInt64, Word.IsLittleEndian [0x85, 0xFF, 0, 0, 0, 0, 0, 0x10] bits.toNat ∧
        (LongInput.text "0x100000000000ff85").signedBits = .ok bits) ∧
    (∃ octets, (Entry.ulong (.text "0x100000000000ff85")).encode = .ok octets) ∧
    (Writes 16 ['f', 'F'] 255 ∧ ∃ bits : UInt64, bits.toNat = 255 ∧ (LongInput.text "0xfF").signedBits = .ok bits) ∧
    (Writes 16 (List.replicate 18 '0') 0 ∧
      (LongInput.text "0x000000000000000000").unsignedBits = .error (.invalidLong "0x000000000000000000")) ∧
    (LongInput.text "0xé").unsignedBits = .error (.invalidHex "0xé") := by
  obtain ⟨hoctets, hread, hdigits⟩ := bits_of_hexadecimal
  have htext : longText [0x85, 0xFF, 0, 0, 0, 0, 0, 0x10] = "0x100000000000ff85" := by decide
  have hlong : (Reader.ofBytes [0x85, 0xFF, 0, 0, 0, 0, 0, 0x10]).long = .ok ("0x100000000000ff85", ⟨8, []⟩) := by
    decide
  have hmixed : Writes 16 ['f', 'F'] 255 :=
    (Writes.digit (c := 'f') (d := 15) .nil rfl (by decide)).digit (c := 'F') (d := 15) rfl (by decide)
  have hzeros : Writes 16 (List.replicate 18 '0') 0 := by
    refine writes_iff.mpr ⟨fun c hc => ⟨0, by decide, ?_⟩, by decide⟩
    rw [List.eq_of_mem_replicate hc]
    rfl
  have hletter : ∀ n, Writes 16 ['é'] n → ['é'].length % 2 ≠ 0 := fun _ _ => by decide
  have hboth := (hdigits (List.replicate 18 '0')).1
  have hodd := (hdigits ['é']).1
  obtain ⟨_, bits, hholds, hsigned, _⟩ := hoctets [0x85, 0xFF, 0, 0, 0, 0, 0, 0x10] rfl
  obtain ⟨octets, _, _, _, _, hulong⟩ := hread _ _ _ hlong
  refine ⟨⟨htext, bits, hholds, htext ▸ hsigned⟩, ⟨octets, hulong⟩, ⟨hmixed, ?_⟩, ⟨hzeros, ?_⟩, ?_⟩
  · exact ((hdigits ['f', 'F']).2.1 255 hmixed rfl).1 (by decide)
  · exact hboth.symm.trans (((hdigits (List.replicate 18 '0')).2.1 0 hzeros rfl).2 (by decide))
  · exact hodd.symm.trans ((hdigits ['é']).2.2 hletter)

end LongInput

end SchemaWire
