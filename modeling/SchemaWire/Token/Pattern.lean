import SchemaWire.Text.Blank

/-!
# Patterns of tokens

Two patterns are given by classes of characters: that of what separates tokens, and that of identifiers. What a class
contains is written out here as the patterns have it, apart from the functions elsewhere that tell about single
characters; the lemmas at the end say which characters these are.
-/

namespace SchemaWire

/-- A class of characters: those in one of the ranges, and the blanks if they are counted in. A negated class has all
other characters. -/
structure CharClass where
  ranges : List (Char × Char)
  blanks : Bool := false
  negated : Bool := false

namespace CharClass

/-- Whether the class has the character. -/
def contains (k : CharClass) (c : Char) : Bool :=
  (k.ranges.any (fun (first, last) => decide (first ≤ c ∧ c ≤ last)) || k.blanks && Text.isBlank c) != k.negated

/-- `[ \t\n\r\x0B\x0C…]`: the characters that separate tokens. -/
def separators : CharClass where
  ranges :=
    [(' ', ' '), ('\t', '\t'), ('\n', '\n'), ('\r', '\r'), ('\x0b', '\x0b'), ('\x0c', '\x0c'), ('\u00a0', '\u00a0'),
      ('\u1680', '\u1680'), ('\u180e', '\u180e'), ('\u2000', '\u200a'), ('\u2028', '\u2028'), ('\u2029', '\u2029'),
      ('\u202f', '\u202f'), ('\u205f', '\u205f'), ('\u3000', '\u3000'), ('\ufeff', '\ufeff')]

/-- `[$_A-Za-z\\]` -/
def nameStart : CharClass where
  ranges := [('$', '$'), ('_', '_'), ('A', 'Z'), ('a', 'z'), ('\\', '\\')]

/-- `[$_A-Za-z0-9\\]` -/
def namePart : CharClass where
  ranges := [('$', '$'), ('_', '_'), ('A', 'Z'), ('a', 'z'), ('0', '9'), ('\\', '\\')]

/-- `[^\x00-\x7F\s…]`: neither ASCII, nor blank, nor one of two others that separate tokens. -/
def beyondAscii : CharClass where
  ranges := [('\x00', '\x7f'), ('\u180e', '\u180e'), ('\ufeff', '\ufeff')]
  blanks := true
  negated := true

end CharClass

/-- The pattern of a text that begins with a character of one of some classes, and goes on with any number of characters
of others. -/
structure WordPattern where
  first : List CharClass
  more : List CharClass

namespace WordPattern

/-- Whether a match may begin with the character. -/
def begins (p : WordPattern) (c : Char) : Bool :=
  p.first.any (·.contains c)

/-- Whether a match may go on with the character. -/
def continues (p : WordPattern) (c : Char) : Bool :=
  p.more.any (·.contains c)

/-- The pattern of identifiers. -/
def identifier : WordPattern where
  first := [.nameStart, .beyondAscii]
  more := [.namePart, .beyondAscii]

end WordPattern

/-! ## What the classes have -/

theorem Char.within_iff {first last c : Char} :
    first ≤ c ∧ c ≤ last ↔ first.toNat ≤ c.toNat ∧ c.toNat ≤ last.toNat := Iff.rfl

namespace CharClass

variable {c : Char}

theorem contains_separators_iff :
    separators.contains c = true ↔
      0x9 ≤ c.toNat ∧ c.toNat ≤ 0xD ∨ c.toNat = 0x20 ∨ c.toNat = 0xA0 ∨ c.toNat = 0x1680 ∨ c.toNat = 0x180E ∨
        0x2000 ≤ c.toNat ∧ c.toNat ≤ 0x200A ∨ c.toNat = 0x2028 ∨ c.toNat = 0x2029 ∨ c.toNat = 0x202F ∨
        c.toNat = 0x205F ∨ c.toNat = 0x3000 ∨ c.toNat = 0xFEFF := by
  simp [contains, separators, Char.within_iff]
  omega

theorem contains_nameStart_iff :
    nameStart.contains c = true ↔
      c.toNat = 0x24 ∨ c.toNat = 0x5F ∨ 0x41 ≤ c.toNat ∧ c.toNat ≤ 0x5A ∨ 0x61 ≤ c.toNat ∧ c.toNat ≤ 0x7A ∨
        c.toNat = 0x5C := by
  simp [contains, nameStart, Char.within_iff]
  omega

theorem contains_namePart_iff :
    namePart.contains c = true ↔ nameStart.contains c = true ∨ 0x30 ≤ c.toNat ∧ c.toNat ≤ 0x39 := by
  rw [contains_nameStart_iff]
  simp [contains, namePart, Char.within_iff]
  omega

theorem contains_beyondAscii_iff :
    beyondAscii.contains c = true ↔
      0x7F < c.toNat ∧ Text.isBlank c = false ∧ c.toNat ≠ 0x180E ∧ c.toNat ≠ 0xFEFF := by
  cases hblank : Text.isBlank c <;> simp [contains, beyondAscii, Char.within_iff, hblank, ← Nat.ne_iff_lt_or_gt]

end CharClass

end SchemaWire
