/-!
# Numerals

Digits of bases up to sixteen, in either case, and the numbers that they write.
-/

namespace SchemaWire.Text

/-- The value of a hexadecimal digit, and so of a decimal one. -/
def digitValue? (c : Char) : Option Nat :=
  if '0' ≤ c ∧ c ≤ '9' then some (c.toNat - '0'.toNat)
  else if 'a' ≤ c ∧ c ≤ 'f' then some (c.toNat - 'a'.toNat + 10)
  else if 'A' ≤ c ∧ c ≤ 'F' then some (c.toNat - 'A'.toNat + 10)
  else none

/-- Whether `c` is a hexadecimal digit. -/
def isHexDigit (c : Char) : Bool :=
  (digitValue? c).isSome

/-- The number that digits write in a base. -/
def numeral (base : Nat) (digits : List Char) : Nat :=
  digits.foldl (fun n c => n * base + (digitValue? c).getD 0) 0

/-- The number that one or more decimal digits write. -/
def decimal? (digits : List Char) : Option Nat :=
  if !digits.isEmpty && digits.all Char.isDigit then some (numeral 10 digits) else none

/-- The number that one or more hexadecimal digits write. -/
def hexadecimal? (digits : List Char) : Option Nat :=
  if !digits.isEmpty && digits.all isHexDigit then some (numeral 16 digits) else none

theorem isDigit_iff_range {c : Char} : c.isDigit = true ↔ '0' ≤ c ∧ c ≤ '9' := by
  rw [Char.isDigit, Bool.and_eq_true, decide_eq_true_iff, decide_eq_true_iff]
  exact Iff.rfl

theorem digitValue?_digitChar {n : Nat} (h : n < 16) : digitValue? (Nat.digitChar n) = some n := by
  have : ∀ n : Fin 16, digitValue? (Nat.digitChar n) = some n.val := by decide
  exact this ⟨n, h⟩

theorem isHexDigit_digitChar {n : Nat} (h : n < 16) : isHexDigit (Nat.digitChar n) = true := by
  rw [isHexDigit, digitValue?_digitChar h]
  rfl

theorem isHexDigit_of_mem_toDigits {c : Char} {n : Nat} (h : c ∈ Nat.toDigits 16 n) : isHexDigit c = true := by
  induction n using Nat.strongRecOn with
  | _ n ih =>
    by_cases hlt : n < 16
    · rw [Nat.toDigits_of_lt_base hlt, List.mem_singleton] at h
      rw [h, isHexDigit_digitChar hlt]
    · rw [Nat.toDigits_of_base_le (by decide) (by omega), List.mem_append, List.mem_singleton] at h
      rcases h with h | rfl
      · exact ih (n / 16) (by omega) h
      · exact isHexDigit_digitChar (Nat.mod_lt n (by decide))

theorem numeral_toDigits (n : Nat) : numeral 16 (Nat.toDigits 16 n) = n := by
  induction n using Nat.strongRecOn with
  | _ n ih =>
    by_cases hlt : n < 16
    · simp [Nat.toDigits_of_lt_base hlt, numeral, digitValue?_digitChar hlt]
    · have hfront := ih (n / 16) (by omega)
      have hlast := digitValue?_digitChar (Nat.mod_lt n (by decide : 16 > 0))
      rw [numeral] at hfront
      rw [Nat.toDigits_of_base_le (by decide) (by omega), numeral, List.foldl_append, hfront]
      simp only [List.foldl_cons, List.foldl_nil, hlast, Option.getD_some]
      omega

/-- The digits of a number write it. -/
theorem hexadecimal?_toDigits (n : Nat) : hexadecimal? (Nat.toDigits 16 n) = some n := by
  have hdigits : (Nat.toDigits 16 n).all isHexDigit = true :=
    List.all_eq_true.mpr fun _ => isHexDigit_of_mem_toDigits
  simp [hexadecimal?, Nat.toDigits_ne_nil, hdigits, numeral_toDigits]

end SchemaWire.Text
