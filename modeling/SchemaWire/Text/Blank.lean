/-!
# Blank characters

The Unicode property `White_Space`, and the ways of taking blanks off a text. The class is larger than
the ASCII one of `Char.isWhitespace`: every character of that class is blank (`isBlank_of_isWhitespace`).
-/

namespace SchemaWire.Text

/-- Whether `c` has the Unicode property `White_Space`. -/
def isBlank (c : Char) : Bool :=
  let n := c.toNat
  (0x9 ≤ n && n ≤ 0xD) || n == 0x20 || n == 0x85 || n == 0xA0 || n == 0x1680 ||
    (0x2000 ≤ n && n ≤ 0x200A) || n == 0x2028 || n == 0x2029 || n == 0x202F || n == 0x205F || n == 0x3000

theorem isBlank_of_isWhitespace (c : Char) (h : c.isWhitespace = true) : isBlank c = true := by
  simp only [Char.isWhitespace, Bool.or_eq_true, decide_eq_true_eq] at h
  rcases h with ((rfl | rfl) | rfl) | rfl <;> decide

theorem isBlank_eq_false_iff {c : Char} :
    isBlank c = false ↔
      ¬(0x9 ≤ c.toNat ∧ c.toNat ≤ 0xD) ∧ c.toNat ≠ 0x20 ∧ c.toNat ≠ 0x85 ∧ c.toNat ≠ 0xA0 ∧ c.toNat ≠ 0x1680 ∧
        ¬(0x2000 ≤ c.toNat ∧ c.toNat ≤ 0x200A) ∧ c.toNat ≠ 0x2028 ∧ c.toNat ≠ 0x2029 ∧ c.toNat ≠ 0x202F ∧
        c.toNat ≠ 0x205F ∧ c.toNat ≠ 0x3000 := by
  rw [← Bool.not_eq_true]
  simp [isBlank, not_or, and_assoc]

/-- The text without its leading blanks. -/
def trimStart (cs : List Char) : List Char :=
  cs.dropWhile isBlank

/-- The text without its leading and trailing blanks. -/
def trim (cs : List Char) : List Char :=
  (trimStart (trimStart cs).reverse).reverse

/-- The rest of `cs` when it begins with `c`, and `cs` itself otherwise. -/
def dropOne (c : Char) : List Char → List Char
  | [] => []
  | d :: cs => if d = c then cs else d :: cs

end SchemaWire.Text
