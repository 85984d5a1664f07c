import Mathlib.Tactic.SplitIfs
import SchemaWire.Proofs.Outcome
import SchemaWire.Text.Utf8

/-!
# UTF-8 undoes itself

`decode` reads exactly what `encode` writes: every text is read back from its octets (`decode_encode`), and
octets that are read are the octets of what was read (`encode_of_decode`), so no text has a second form.
-/

namespace SchemaWire.Utf8

/-! ## Characters as numbers -/

/-- The number of a character is below the surrogates, or above them and at most U+10FFFF. -/
theorem toNat_valid (c : Char) : c.toNat < 0xD800 ∨ (0xDFFF < c.toNat ∧ c.toNat < 0x110000) :=
  c.valid

theorem toNat_ofNat {n : Nat} (h : n < 0xD800 ∨ (0xDFFF < n ∧ n < 0x110000)) : (Char.ofNat n).toNat = n := by
  have hvalid : n.isValidChar := h
  rw [Char.ofNat, dif_pos hvalid]
  rfl

theorem toNat_octet {n : Nat} (h : n < 256) : (UInt8.ofNat n).toNat = n := by
  simp only [UInt8.toNat_ofNat']
  omega

theorem not_lt_of_toNat {a : UInt8} (h : 0x80 ≤ a.toNat) : ¬a < 0x80 := by
  rw [UInt8.lt_iff_toNat_lt]
  exact Nat.not_lt.mpr h

theorem isTail_iff {b : UInt8} : isTail b = true ↔ 0x80 ≤ b.toNat ∧ b.toNat ≤ 0xBF := by
  simp [isTail, UInt8.le_iff_toNat_le]

/-! ## What the first octet announces -/

theorem lead?_of_two {a : UInt8} (h : 0xC2 ≤ a.toNat ∧ a.toNat ≤ 0xDF) : lead? a = some (2, 0x80, 0xBF) := by
  simp only [lead?, UInt8.le_iff_toNat_le, UInt8.reduceToNat]
  rw [if_pos h]

/-- The first octet of three leaves the second its whole range, except where that would write a
character of two octets or a surrogate. -/
theorem lead?_of_three {a : UInt8} (h : 0xE0 ≤ a.toNat ∧ a.toNat ≤ 0xEF) :
    lead? a = some (3, if a.toNat = 0xE0 then 0xA0 else 0x80, if a.toNat = 0xED then 0x9F else 0xBF) := by
  simp only [lead?, UInt8.le_iff_toNat_le, ← UInt8.toNat_inj, UInt8.reduceToNat]
  split_ifs <;> first | rfl | omega

/-- The first octet of four leaves the second its whole range, except where that would write a
character of three octets or go beyond U+10FFFF. -/
theorem lead?_of_four {a : UInt8} (h : 0xF0 ≤ a.toNat ∧ a.toNat ≤ 0xF4) :
    lead? a = some (4, if a.toNat = 0xF0 then 0x90 else 0x80, if a.toNat = 0xF4 then 0x8F else 0xBF) := by
  simp only [lead?, UInt8.le_iff_toNat_le, ← UInt8.toNat_inj, UInt8.reduceToNat]
  split_ifs <;> first | rfl | omega

/-! ## One character at a time -/

theorem decodeFrom_one {a : UInt8} (ha : a.toNat < 0x80) (index : Nat) (rest : Bytes) :
    decodeFrom index (a :: rest) = (decodeFrom (index + 1) rest).map (Char.ofNat a.toNat :: ·) := by
  have hlt : a < 0x80 := UInt8.lt_iff_toNat_lt.mpr ha
  simp [decodeFrom, hlt, assemble]

theorem decodeFrom_two {a b : UInt8} (ha : 0xC2 ≤ a.toNat ∧ a.toNat ≤ 0xDF) (hb : isTail b = true) (index : Nat)
    (rest : Bytes) :
    decodeFrom index (a :: b :: rest) =
      (decodeFrom (index + 2) rest).map (Char.ofNat (a.toNat % 32 * 64 + b.toNat % 64) :: ·) := by
  have hhigh := not_lt_of_toNat (a := a) (by omega)
  have hin : ¬ (b < 0x80 ∨ 0xBF < b) := by
    have := isTail_iff.mp hb
    simp [UInt8.lt_iff_toNat_lt]
    omega
  simp only [decodeFrom, hhigh, if_false, lead?_of_two ha, hin]
  simp [assemble, tailBits]

theorem decodeFrom_three {a b c : UInt8} (ha : 0xE0 ≤ a.toNat ∧ a.toNat ≤ 0xEF)
    (hb : (if a.toNat = 0xE0 then 0xA0 else 0x80) ≤ b.toNat ∧ b.toNat ≤ if a.toNat = 0xED then 0x9F else 0xBF)
    (hc : isTail c = true) (index : Nat) (rest : Bytes) :
    decodeFrom index (a :: b :: c :: rest) =
      (decodeFrom (index + 3) rest).map
        (Char.ofNat ((a.toNat % 16 * 64 + b.toNat % 64) * 64 + c.toNat % 64) :: ·) := by
  have hhigh := not_lt_of_toNat (a := a) (by omega)
  have hin : ¬ (b < (if a.toNat = 0xE0 then 0xA0 else 0x80) ∨ (if a.toNat = 0xED then 0x9F else 0xBF) < b) := by
    simp only [UInt8.lt_iff_toNat_lt, not_or, Nat.not_lt]
    split_ifs at hb ⊢ <;> simpa using hb
  simp only [decodeFrom, hhigh, if_false, lead?_of_three ha, hin]
  simp [assemble, tailBits, hc]

theorem decodeFrom_four {a b c d : UInt8} (ha : 0xF0 ≤ a.toNat ∧ a.toNat ≤ 0xF4)
    (hb : (if a.toNat = 0xF0 then 0x90 else 0x80) ≤ b.toNat ∧ b.toNat ≤ if a.toNat = 0xF4 then 0x8F else 0xBF)
    (hc : isTail c = true) (hd : isTail d = true) (index : Nat) (rest : Bytes) :
    decodeFrom index (a :: b :: c :: d :: rest) =
      (decodeFrom (index + 4) rest).map
        (Char.ofNat (((a.toNat % 8 * 64 + b.toNat % 64) * 64 + c.toNat % 64) * 64 + d.toNat % 64) :: ·) := by
  have hhigh := not_lt_of_toNat (a := a) (by omega)
  have hin : ¬ (b < (if a.toNat = 0xF0 then 0x90 else 0x80) ∨ (if a.toNat = 0xF4 then 0x8F else 0xBF) < b) := by
    simp only [UInt8.lt_iff_toNat_lt, not_or, Nat.not_lt]
    split_ifs at hb ⊢ <;> simpa using hb
  simp only [decodeFrom, hhigh, if_false, lead?_of_four ha, hin]
  simp [assemble, tailBits, hc, hd]

/-! ## Reading what was written -/

theorem isTail_ofNat (n : Nat) : isTail (UInt8.ofNat (n % 0x40 + 0x80)) = true := by
  rw [isTail_iff, toNat_octet (by omega)]
  omega

theorem decodeFrom_encodeChar (index : Nat) (c : Char) (rest : Bytes) :
    decodeFrom index (String.utf8EncodeChar c ++ rest) = (decodeFrom (index + c.utf8Size) rest).map (c :: ·) := by
  have hvalid := toNat_valid c
  have hback : ∀ {n}, n = c.toNat → Char.ofNat n = c := fun h => h ▸ Char.ofNat_toNat c
  simp only [String.utf8EncodeChar, show c.val.toNat = c.toNat from rfl]
  split_ifs with h1 h2 h3
  · have hsize : c.utf8Size = 1 := Char.utf8Size_eq_one_iff.mpr h1
    have ha := toNat_octet (n := c.toNat) (by omega)
    rw [List.singleton_append, decodeFrom_one (by omega), hsize, hback ha]
  · have hsize : c.utf8Size = 2 := Char.utf8Size_eq_two_iff.mpr ⟨Nat.lt_of_not_le h1, h2⟩
    have ha := toNat_octet (n := c.toNat / 64 % 0x20 + 0xC0) (by omega)
    have hb := toNat_octet (n := c.toNat % 0x40 + 0x80) (by omega)
    simp only [List.cons_append, List.nil_append]
    rw [decodeFrom_two (by omega) (isTail_ofNat _), hsize, hback (by omega)]
  · have hsize : c.utf8Size = 3 := Char.utf8Size_eq_three_iff.mpr ⟨Nat.lt_of_not_le h2, h3⟩
    have ha := toNat_octet (n := c.toNat / 4096 % 0x10 + 0xE0) (by omega)
    have hb := toNat_octet (n := c.toNat / 64 % 0x40 + 0x80) (by omega)
    have hc := toNat_octet (n := c.toNat % 0x40 + 0x80) (by omega)
    simp only [List.cons_append, List.nil_append]
    rw [decodeFrom_three (by omega) (by rw [ha, hb]; split_ifs <;> omega) (isTail_ofNat _), hsize, hback (by omega)]
  · have hsize : c.utf8Size = 4 := Char.utf8Size_eq_four_iff.mpr (Nat.lt_of_not_le h3)
    have ha := toNat_octet (n := c.toNat / 262144 % 0x08 + 0xF0) (by omega)
    have hb := toNat_octet (n := c.toNat / 4096 % 0x40 + 0x80) (by omega)
    have hc := toNat_octet (n := c.toNat / 64 % 0x40 + 0x80) (by omega)
    have hd := toNat_octet (n := c.toNat % 0x40 + 0x80) (by omega)
    simp only [List.cons_append, List.nil_append]
    rw [decodeFrom_four (by omega) (by rw [ha, hb]; split_ifs <;> omega) (isTail_ofNat _) (isTail_ofNat _), hsize,
      hback (by omega)]

theorem decodeFrom_encode (index : Nat) (cs : List Char) : decodeFrom index (encode cs) = .ok cs := by
  induction cs generalizing index with
  | nil => simp [encode, decodeFrom]
  | cons c cs ih =>
    have hcons : encode (c :: cs) = String.utf8EncodeChar c ++ encode cs := rfl
    rw [hcons, decodeFrom_encodeChar, ih]
    rfl

theorem decode_encode (cs : List Char) : decode (encode cs) = .ok cs :=
  decodeFrom_encode 0 cs

theorem toString?_ofString (s : String) : toString? (ofString s) = .ok s := by
  simp [toString?, ofString, decode_encode, Except.map]

/-! ## Writing what was read -/

theorem encodeChar_one {n : Nat} (h : n < 0x80) : String.utf8EncodeChar (Char.ofNat n) = [UInt8.ofNat n] := by
  have hn : (Char.ofNat n).val.toNat = n := toNat_ofNat (by omega)
  simp only [String.utf8EncodeChar, hn]
  rw [if_pos (by omega)]

theorem encodeChar_two {n : Nat} (h : 0x80 ≤ n ∧ n < 0x800) :
    String.utf8EncodeChar (Char.ofNat n) = [UInt8.ofNat (n / 64 + 0xC0), UInt8.ofNat (n % 64 + 0x80)] := by
  have hn : (Char.ofNat n).val.toNat = n := toNat_ofNat (by omega)
  have hlead : n / 64 % 0x20 = n / 64 := by omega
  simp only [String.utf8EncodeChar, hn, hlead]
  rw [if_neg (by omega), if_pos (by omega)]

theorem encodeChar_three {n : Nat} (h : 0x800 ≤ n ∧ n < 0x10000) (hvalid : n < 0xD800 ∨ 0xDFFF < n) :
    String.utf8EncodeChar (Char.ofNat n) =
      [UInt8.ofNat (n / 4096 + 0xE0), UInt8.ofNat (n / 64 % 64 + 0x80), UInt8.ofNat (n % 64 + 0x80)] := by
  have hn : (Char.ofNat n).val.toNat = n := toNat_ofNat (by omega)
  have hlead : n / 4096 % 0x10 = n / 4096 := by omega
  simp only [String.utf8EncodeChar, hn, hlead]
  rw [if_neg (by omega), if_neg (by omega), if_pos (by omega)]

theorem encodeChar_four {n : Nat} (h : 0x10000 ≤ n ∧ n < 0x110000) :
    String.utf8EncodeChar (Char.ofNat n) =
      [UInt8.ofNat (n / 262144 + 0xF0), UInt8.ofNat (n / 4096 % 64 + 0x80), UInt8.ofNat (n / 64 % 64 + 0x80),
        UInt8.ofNat (n % 64 + 0x80)] := by
  have hn : (Char.ofNat n).val.toNat = n := toNat_ofNat (by omega)
  have hlead : n / 262144 % 0x08 = n / 262144 := by omega
  simp only [String.utf8EncodeChar, hn, hlead]
  rw [if_neg (by omega), if_neg (by omega), if_neg (by omega)]

theorem ofNat_eq {n : Nat} {b : UInt8} (h : n = b.toNat) : UInt8.ofNat n = b := by
  simp [h]

theorem lead?_eq_some {a : UInt8} {width : Nat} {low high : UInt8} (h : lead? a = some (width, low, high)) :
    (width = 2 ∧ 0xC2 ≤ a.toNat ∧ a.toNat ≤ 0xDF ∧ low = 0x80 ∧ high = 0xBF) ∨
    (width = 3 ∧ 0xE0 ≤ a.toNat ∧ a.toNat ≤ 0xEF ∧ (a.toNat = 0xE0 → low = 0xA0) ∧ (a.toNat = 0xED → high = 0x9F) ∧
      0x80 ≤ low.toNat ∧ high.toNat ≤ 0xBF) ∨
    (width = 4 ∧ 0xF0 ≤ a.toNat ∧ a.toNat ≤ 0xF4 ∧ (a.toNat = 0xF0 → low = 0x90) ∧ (a.toNat = 0xF4 → high = 0x8F) ∧
      0x80 ≤ low.toNat ∧ high.toNat ≤ 0xBF) := by
  simp only [lead?, UInt8.le_iff_toNat_le, ← UInt8.toNat_inj, UInt8.reduceToNat] at h ⊢
  split_ifs at h <;> cases h <;> simp <;> omega

/-- A character is the octets that it was read from, and what follows is by induction. -/
theorem encode_cons_of_map {x : Except Fault (List Char)} {c : Char} (octets : Bytes) {rest : Bytes}
    {cs : List Char} (h : x.map (c :: ·) = .ok cs) (hc : String.utf8EncodeChar c = octets)
    (ih : ∀ {cs}, x = .ok cs → encode cs = rest) : encode cs = octets ++ rest := by
  obtain ⟨more, hmore, rfl⟩ := Except.map_eq_ok_iff.mp h
  have hcons : encode (c :: more) = String.utf8EncodeChar c ++ encode more := rfl
  rw [hcons, hc, ih hmore]

theorem encodeChar_assemble_two {a b : UInt8} (ha : 0xC2 ≤ a.toNat ∧ a.toNat ≤ 0xDF)
    (hb : 0x80 ≤ b.toNat ∧ b.toNat ≤ 0xBF) : String.utf8EncodeChar (assemble [a.toNat % 32, tailBits b]) = [a, b] := by
  have hn : assemble [a.toNat % 32, tailBits b] = Char.ofNat (a.toNat % 32 * 64 + b.toNat % 64) := by
    simp [assemble, tailBits]
  rw [hn, encodeChar_two (by omega)]
  simp only [List.cons.injEq, and_true]
  exact ⟨ofNat_eq (by omega), ofNat_eq (by omega)⟩

theorem encodeChar_assemble_three {a b c : UInt8} (ha : 0xE0 ≤ a.toNat ∧ a.toNat ≤ 0xEF)
    (hb : 0x80 ≤ b.toNat ∧ b.toNat ≤ 0xBF) (hlow : a.toNat = 0xE0 → 0xA0 ≤ b.toNat)
    (hhigh : a.toNat = 0xED → b.toNat ≤ 0x9F) (hc : isTail c = true) :
    String.utf8EncodeChar (assemble [a.toNat % 16, tailBits b, tailBits c]) = [a, b, c] := by
  have hn : assemble [a.toNat % 16, tailBits b, tailBits c] =
      Char.ofNat ((a.toNat % 16 * 64 + b.toNat % 64) * 64 + c.toNat % 64) := by
    simp [assemble, tailBits]
  have hc := isTail_iff.mp hc
  rw [hn, encodeChar_three (by omega) (by omega)]
  simp only [List.cons.injEq, and_true]
  exact ⟨ofNat_eq (by omega), ofNat_eq (by omega), ofNat_eq (by omega)⟩

theorem encodeChar_assemble_four {a b c d : UInt8} (ha : 0xF0 ≤ a.toNat ∧ a.toNat ≤ 0xF4)
    (hb : 0x80 ≤ b.toNat ∧ b.toNat ≤ 0xBF) (hlow : a.toNat = 0xF0 → 0x90 ≤ b.toNat)
    (hhigh : a.toNat = 0xF4 → b.toNat ≤ 0x8F) (hc : isTail c = true) (hd : isTail d = true) :
    String.utf8EncodeChar (assemble [a.toNat % 8, tailBits b, tailBits c, tailBits d]) = [a, b, c, d] := by
  have hn : assemble [a.toNat % 8, tailBits b, tailBits c, tailBits d] =
      Char.ofNat (((a.toNat % 8 * 64 + b.toNat % 64) * 64 + c.toNat % 64) * 64 + d.toNat % 64) := by
    simp [assemble, tailBits]
  have hc := isTail_iff.mp hc
  have hd := isTail_iff.mp hd
  rw [hn, encodeChar_four (by omega)]
  simp only [List.cons.injEq, and_true]
  exact ⟨ofNat_eq (by omega), ofNat_eq (by omega), ofNat_eq (by omega), ofNat_eq (by omega)⟩

theorem encode_of_decodeFrom {index : Nat} {bytes : Bytes} {cs : List Char}
    (h : decodeFrom index bytes = .ok cs) : encode cs = bytes := by
  fun_induction decodeFrom index bytes generalizing cs with
  | case1 => cases h; rfl
  | case2 index a rest hlow ih =>
    have ha : a.toNat < 0x80 := UInt8.lt_iff_toNat_lt.mp hlow
    refine encode_cons_of_map [a] h ?_ ih
    simp [assemble, encodeChar_one ha]
  | case6 index a _ low high b rest hin hlead ih =>
    simp only [UInt8.lt_iff_toNat_lt, not_or, Nat.not_lt] at hin
    obtain ⟨-, h1, h2, rfl, rfl⟩ | ⟨h0, -⟩ | ⟨h0, -⟩ := lead?_eq_some hlead
    · exact encode_cons_of_map [a, b] h (encodeChar_assemble_two ⟨h1, h2⟩ hin) ih
    · simp at h0
    · simp at h0
  | case9 index a _ low high b hin c rest hc hlead _ ih =>
    simp only [UInt8.lt_iff_toNat_lt, not_or, Nat.not_lt] at hin
    obtain ⟨h0, -⟩ | ⟨-, h1, h2, hlow, hhigh, hl, hh⟩ | ⟨h0, -⟩ := lead?_eq_some hlead
    · simp at h0
    · refine encode_cons_of_map [a, b, c] h ?_ ih
      refine encodeChar_assemble_three ⟨h1, h2⟩ (by omega) (fun e => ?_) (fun e => ?_) (by simpa using hc)
      · simpa [hlow e] using hin.1
      · simpa [hhigh e] using hin.2
    · simp at h0
  | case12 index a _ width low high hlead b hin h2' c hc h3' d rest hd ih =>
    simp only [UInt8.lt_iff_toNat_lt, not_or, Nat.not_lt] at hin
    obtain ⟨h0, -⟩ | ⟨h0, -⟩ | ⟨-, h1, h2, hlow, hhigh, hl, hh⟩ := lead?_eq_some hlead
    · exact absurd h0 h2'
    · exact absurd h0 h3'
    · refine encode_cons_of_map [a, b, c, d] h ?_ ih
      refine encodeChar_assemble_four ⟨h1, h2⟩ (by omega) (fun e => ?_) (fun e => ?_) (by simpa using hc)
        (by simpa using hd)
      · simpa [hlow e] using hin.1
      · simpa [hhigh e] using hin.2
  -- The other cases are those in which the octets are refused.
  | _ => cases h

theorem encode_of_decode {bytes : Bytes} {cs : List Char} (h : decode bytes = .ok cs) : encode cs = bytes :=
  encode_of_decodeFrom h

theorem ofString_of_toString? {bytes : Bytes} {s : String} (h : toString? bytes = .ok s) : ofString s = bytes := by
  obtain ⟨cs, hcs, rfl⟩ := Except.map_eq_ok_iff.mp h
  simp [ofString, encode_of_decode hcs]

end SchemaWire.Utf8
