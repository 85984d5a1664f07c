import Mathlib.Data.List.Induction
import SchemaWire.Text.Hex
import SchemaWire.Wire.Word

/-!
# What numerals write

`Writes` is the grammar of numerals: digits write a number, and with one digit more they write `base` times this number
and the digit. A decimal numeral is read as what it writes (`decimal?_eq_some_iff`). Pairs of hexadecimal digits are
read as octets, which hold the number that the digits write, the highest octet first (`writes_of_decode?`).
-/

namespace SchemaWire

namespace Text

/-- The numbers that digits to a base write, the highest digit first. No digits write zero. -/
inductive Writes (base : Nat) : List Char → Nat → Prop
  | nil : Writes base [] 0
  | digit {cs : List Char} {n : Nat} {c : Char} {d : Nat} (h : Writes base cs n) (hc : digitValue? c = some d)
    (hd : d < base) : Writes base (cs ++ [c]) (n * base + d)

variable {base n m : Nat} {cs : List Char} {c : Char}

theorem numeral_append_singleton (base : Nat) (cs : List Char) (c : Char) :
    numeral base (cs ++ [c]) = numeral base cs * base + (digitValue? c).getD 0 := by
  simp [numeral, List.foldl_append]

/-- Digits write a number exactly if each of them is one to the base. By induction from the last digit, as numerals
are built. -/
theorem writes_iff : Writes base cs n ↔ (∀ c ∈ cs, ∃ d < base, digitValue? c = some d) ∧ n = numeral base cs := by
  constructor
  · intro h
    induction h with
    | nil => exact ⟨by simp, rfl⟩
    | @digit cs n c d _ hc hd ih =>
      obtain ⟨hdigits, rfl⟩ := ih
      refine ⟨?_, by rw [numeral_append_singleton, hc, Option.getD_some]⟩
      rw [List.forall_mem_append, List.forall_mem_singleton]
      exact ⟨hdigits, d, hd, hc⟩
  · rintro ⟨hdigits, rfl⟩
    induction cs using List.reverseRecOn with
    | nil => exact .nil
    | append_singleton cs c ih =>
      rw [List.forall_mem_append, List.forall_mem_singleton] at hdigits
      obtain ⟨hdigits, d, hd, hc⟩ := hdigits
      rw [numeral_append_singleton, hc, Option.getD_some]
      exact .digit (ih hdigits) hc hd

theorem Writes.unique (h : Writes base cs n) (h' : Writes base cs m) : n = m :=
  (writes_iff.mp h).2.trans (writes_iff.mp h').2.symm

/-- The digits of a number write it. -/
theorem writes_toDigits (hbase : 1 < base) (hdigits : base ≤ 16) (n : Nat) : Writes base (Nat.toDigits base n) n := by
  induction n using Nat.strongRecOn with
  | _ n ih =>
    by_cases hlt : n < base
    · have hdigit := Writes.digit .nil (digitValue?_digitChar (by omega)) hlt
      rw [Nat.zero_mul, Nat.zero_add] at hdigit
      rwa [Nat.toDigits_of_lt_base hlt]
    · have hmod : n % base < base := Nat.mod_lt n (by omega)
      have hfront := ih (n / base) (Nat.div_lt_self (by omega) hbase)
      have hall := Writes.digit hfront (digitValue?_digitChar (by omega)) hmod
      rw [Nat.div_add_mod'] at hall
      rwa [Nat.toDigits_of_base_le hbase (by omega)]

/-! ## Letters of either case -/

theorem digitValue?_toLower (c : Char) : digitValue? c.toLower = digitValue? c := by
  have hletters : ∀ k : Fin 26, digitValue? (Char.ofNat (65 + k)).toLower = digitValue? (Char.ofNat (65 + k)) := by
    decide
  by_cases hcapital : 65 ≤ c.toNat ∧ c.toNat ≤ 90
  · have hletter := hletters ⟨c.toNat - 65, by omega⟩
    rwa [Nat.add_sub_cancel' hcapital.1, Char.ofNat_toNat] at hletter
  · have hsame : c.toLower = c := dif_neg hcapital
    rw [hsame]

theorem numeral_map_toLower (base : Nat) (cs : List Char) : numeral base (cs.map Char.toLower) = numeral base cs := by
  simp only [numeral, List.foldl_map, digitValue?_toLower]

theorem writes_map_toLower : Writes base (cs.map Char.toLower) n ↔ Writes base cs n := by
  rw [writes_iff, writes_iff, numeral_map_toLower]
  simp only [List.forall_mem_map, digitValue?_toLower]

/-! ## Decimal digits -/

theorem isDigit_iff : c.isDigit = true ↔ ∃ d < 10, digitValue? c = some d := by
  rw [isDigit_iff_range]
  constructor
  · intro hrange
    have hhigh : c.toNat ≤ 57 := hrange.2
    have hzero : '0'.toNat = 48 := rfl
    exact ⟨c.toNat - '0'.toNat, by omega, if_pos hrange⟩
  · rintro ⟨d, hd, hvalue⟩
    unfold digitValue? at hvalue
    split at hvalue
    · next hrange => exact hrange
    · -- Letters stand for ten and more.
      split at hvalue
      · cases hvalue
        omega
      · split at hvalue
        · cases hvalue
          omega
        · cases hvalue

theorem decimal?_eq_some_iff : decimal? cs = some n ↔ cs ≠ [] ∧ Writes 10 cs n := by
  have hdigits : cs.all Char.isDigit = true ↔ ∀ c ∈ cs, ∃ d < 10, digitValue? c = some d := by
    simp only [List.all_eq_true, isDigit_iff]
  have hempty : (!cs.isEmpty) = true ↔ cs ≠ [] := by
    cases cs <;> simp
  unfold decimal?
  rw [writes_iff, ← hdigits]
  split
  · next h =>
    rw [Bool.and_eq_true, hempty] at h
    rw [Option.some.injEq, and_iff_right h.1, and_iff_right h.2]
    exact eq_comm
  · next h =>
    rw [Bool.and_eq_true, hempty] at h
    exact iff_of_false nofun fun h' => h ⟨h'.1, h'.2.1⟩

end Text

/-! ## Pairs of hexadecimal digits -/

/-- Octets hold what is built up of them from the last one. -/
theorem Word.ofBytes_reverse (bytes : Bytes) :
    Word.ofBytes bytes.reverse = bytes.foldl (fun n b => n * 256 + b.toNat) 0 := by
  induction bytes using List.reverseRecOn with
  | nil => rfl
  | append_singleton bytes b ih =>
    rw [List.reverse_append, List.reverse_singleton, List.singleton_append, Word.ofBytes, ih, List.foldl_append]
    simp only [List.foldl_cons, List.foldl_nil]
    omega

namespace Hex

variable {digits : List Char} {bytes : Bytes}

theorem digitValue?_lt {c : Char} {d : Nat} (h : Text.digitValue? c = some d) : d < 16 := by
  unfold Text.digitValue? at h
  split at h
  · next hrange =>
    have hhigh : c.toNat ≤ 57 := hrange.2
    have hzero : '0'.toNat = 48 := rfl
    cases h
    omega
  · split at h
    · next hrange =>
      have hhigh : c.toNat ≤ 102 := hrange.2
      have hletter : 'a'.toNat = 97 := rfl
      cases h
      omega
    · split at h
      · next hrange =>
        have hhigh : c.toNat ≤ 70 := hrange.2
        have hletter : 'A'.toNat = 65 := rfl
        cases h
        omega
      · cases h

theorem decode?_cons_eq_some_iff {a b : Char} :
    decode? (a :: b :: digits) = some bytes ↔ ∃ high low rest, Text.digitValue? a = some high ∧
      Text.digitValue? b = some low ∧ decode? digits = some rest ∧ bytes = UInt8.ofNat (high * 16 + low) :: rest := by
  simp only [decode?, Option.bind_eq_bind, Option.bind_eq_some_iff, Option.pure_def, Option.some.injEq]
  constructor
  · rintro ⟨high, ha, low, hb, rest, hrest, rfl⟩
    exact ⟨high, low, rest, ha, hb, hrest, rfl⟩
  · rintro ⟨high, low, rest, ha, hb, hrest, rfl⟩
    exact ⟨high, ha, low, hb, rest, hrest, rfl⟩

theorem decode?_map_toLower (digits : List Char) : decode? (digits.map Char.toLower) = decode? digits := by
  fun_induction decode? digits with
  | case1 => rfl
  | case2 => rfl
  | case3 a b digits ih => simp only [List.map_cons, decode?, Text.digitValue?_toLower, ih]

/-- Two digits go with each octet, and both build up the same number. -/
theorem foldl_of_decode? (h : decode? digits = some bytes) :
    (∀ c ∈ digits, ∃ d < 16, Text.digitValue? c = some d) ∧ digits.length = 2 * bytes.length ∧
      ∀ start, digits.foldl (fun n c => n * 16 + (Text.digitValue? c).getD 0) start =
        bytes.foldl (fun n b => n * 256 + b.toNat) start := by
  fun_induction decode? digits generalizing bytes with
  | case1 =>
    cases h
    exact ⟨by simp, rfl, fun _ => rfl⟩
  | case2 => cases h
  | case3 a b digits ih =>
    obtain ⟨high, low, rest, ha, hb, hrest, rfl⟩ := decode?_cons_eq_some_iff.mp h
    have hhigh := digitValue?_lt ha
    have hlow := digitValue?_lt hb
    obtain ⟨hdigits, hlength, hfold⟩ := ih hrest
    refine ⟨?_, by simp only [List.length_cons]; omega, fun start => ?_⟩
    · rw [List.forall_mem_cons, List.forall_mem_cons]
      exact ⟨⟨high, hhigh, ha⟩, ⟨low, hlow, hb⟩, hdigits⟩
    · have hoctet : (UInt8.ofNat (high * 16 + low)).toNat = high * 16 + low := by
        rw [UInt8.toNat_ofNat']
        omega
      have hstep : (start * 16 + high) * 16 + low = start * 256 + (high * 16 + low) := by omega
      simp only [List.foldl_cons, ha, hb, Option.getD_some, hoctet, hstep]
      exact hfold _

/-- The octets that digits are read as hold the number that the digits write. -/
theorem writes_of_decode? (h : decode? digits = some bytes) :
    digits.length = 2 * bytes.length ∧ Text.Writes 16 digits (Word.ofBytes bytes.reverse) := by
  obtain ⟨hdigits, hlength, hfold⟩ := foldl_of_decode? h
  refine ⟨hlength, Text.writes_iff.mpr ⟨hdigits, ?_⟩⟩
  rw [Word.ofBytes_reverse]
  exact (hfold 0).symm

/-- Digits are read as octets if they come in pairs. -/
theorem exists_decode?_eq_some (hdigits : ∀ c ∈ digits, ∃ d < 16, Text.digitValue? c = some d)
    (hlength : digits.length % 2 = 0) : ∃ bytes, decode? digits = some bytes := by
  fun_induction decode? digits with
  | case1 => exact ⟨[], rfl⟩
  | case2 c => simp at hlength
  | case3 a b digits ih =>
    rw [List.forall_mem_cons, List.forall_mem_cons] at hdigits
    obtain ⟨⟨high, _, ha⟩, ⟨low, _, hb⟩, hrest⟩ := hdigits
    obtain ⟨rest, hdecode⟩ := ih hrest (by simp only [List.length_cons] at hlength; omega)
    exact ⟨_, decode?_cons_eq_some_iff.mpr ⟨high, low, rest, ha, hb, hdecode, rfl⟩⟩

end Hex

end SchemaWire
