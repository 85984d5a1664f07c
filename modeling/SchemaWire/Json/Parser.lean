import SchemaWire.Json
import SchemaWire.Text.Numeral

/-!
# Reading JSON

`Json.parse?` accepts exactly one JSON value with blanks around it, whose arrays and objects nest at most
`levels` deep. A field given twice keeps its first place and takes its last value. A number with a point
or an exponent is computed from its leading digits that fit 64 bits and one multiplication or division by
a power of ten, so it may miss the nearest double by a last bit.
-/

namespace SchemaWire.Json.Parser

/-- What is left of a text after something was read from it. -/
abbrev Rest (cs : List Char) := { rest : List Char // rest.length < cs.length }

/-- Reads something from the head of a text. -/
abbrev Reader (α : Type) := (cs : List Char) → Option (α × Rest cs)

/-- Whether `c` is blank between JSON tokens. -/
def isBlank (c : Char) : Bool :=
  c == ' ' || c == '\n' || c == '\t' || c == '\r'

/-- The text without its leading blanks. -/
def skipBlanks (cs : List Char) : List Char :=
  cs.dropWhile isBlank

theorem length_skipBlanks_le (cs : List Char) : (skipBlanks cs).length ≤ cs.length :=
  (List.dropWhile_sublist _).length_le

/-- The number of four hexadecimal digits. -/
def hex4? (a b c d : Char) : Option Nat := do
  let a ← Text.digitValue? a
  let b ← Text.digitValue? b
  let c ← Text.digitValue? c
  let d ← Text.digitValue? d
  some (((a * 16 + b) * 16 + c) * 16 + d)

/-- The character that a letter after a backslash stands for. -/
def escaped? : Char → Option Char
  | '"' => some '"'
  | '\\' => some '\\'
  | '/' => some '/'
  | 'b' => some '\x08'
  | 'f' => some '\x0c'
  | 'n' => some '\n'
  | 'r' => some '\r'
  | 't' => some '\t'
  | _ => none

/-- The contents of a string up to its closing quote, and the text after that. A code unit that is the
first half of a character has to be followed by the second half, and neither stands alone. -/
def stringBody? : List Char → Option (List Char × List Char)
  | [] => none
  | '"' :: cs => some ([], cs)
  | '\\' :: 'u' :: a :: b :: c :: d :: cs =>
    match hex4? a b c d with
    | none => none
    | some unit =>
      if 0xDC00 ≤ unit ∧ unit ≤ 0xDFFF then none
      else if 0xD800 ≤ unit ∧ unit ≤ 0xDBFF then
        match cs with
        | '\\' :: 'u' :: e :: f :: g :: h :: cs =>
          match hex4? e f g h with
          | none => none
          | some low =>
            if 0xDC00 ≤ low ∧ low ≤ 0xDFFF then
              (stringBody? cs).map fun (text, rest) =>
                (Char.ofNat (0x10000 + (unit - 0xD800) * 0x400 + (low - 0xDC00)) :: text, rest)
            else none
        | _ => none
      else (stringBody? cs).map fun (text, rest) => (Char.ofNat unit :: text, rest)
  | '\\' :: e :: cs =>
    match escaped? e with
    | none => none
    | some c => (stringBody? cs).map fun (text, rest) => (c :: text, rest)
  | c :: cs =>
    if c.toNat < 0x20 ∨ c = '\\' then none
    else (stringBody? cs).map fun (text, rest) => (c :: text, rest)

theorem length_lt_of_stringBody? {cs text rest : List Char} (h : stringBody? cs = some (text, rest)) :
    rest.length < cs.length := by
  fun_induction stringBody? cs generalizing text <;>
    simp_all only [Option.map_eq_some_iff, Prod.exists, Prod.mk.injEq, Option.some.injEq, reduceCtorEq,
      List.length_cons] <;>
    grind

/-- Reads a string from its opening quote on. -/
def string? : Reader String
  | '"' :: cs =>
    match h : stringBody? cs with
    | some (text, rest) =>
      some (String.ofList text, ⟨rest, Nat.lt_succ_of_lt (length_lt_of_stringBody? h)⟩)
    | none => none
  | _ => none

/-- Adds digits to a number as long as it stays below `2 ^ 64`. The second part are the digits left out. -/
def absorb (n : Nat) : List Char → Nat × List Char
  | [] => (n, [])
  | c :: cs =>
    let m := n * 10 + (c.toNat - '0'.toNat)
    if m < UInt64.size then absorb m cs else (n, c :: cs)

/-- The pattern of `10 ^ n`. -/
def powerOfTen (n : Nat) : Nat :=
  SchemaWire.Number.binary64.nearest (Nat.pow 10 n) 1

/-- The pattern `f` divided by `10 ^ n`, in steps of at most `308` digits. -/
def divideByPower (f n : Nat) : Nat :=
  if f = 0 then 0
  else if n ≤ 308 then SchemaWire.Number.binary64.div f (powerOfTen n)
  else divideByPower (SchemaWire.Number.binary64.div f (powerOfTen 308)) (n - 308)
termination_by n

/-- The number `significand · 10 ^ exponent`, or `none` if it is too large. -/
def scaled? (negative : Bool) (significand : Nat) (exponent : Int) : Option Double :=
  let f := SchemaWire.Number.binary64.nearest significand 1
  if exponent < 0 then some (.ofParts negative (divideByPower f exponent.natAbs))
  else if f = 0 then some (.ofParts negative 0)
  else if 308 < exponent then none
  else
    let product := SchemaWire.Number.binary64.mul f (powerOfTen exponent.toNat)
    if product = SchemaWire.Number.binary64.infinity then none else some (.ofParts negative product)

/-- The number that digits denote. -/
def numeral (digits : List Char) : Nat :=
  digits.foldl (fun n c => n * 10 + (c.toNat - '0'.toNat)) 0

/-- An integer literal by its sign and digits. The zero with a sign, and what 64 bits cannot hold, are
numbers of the other kind. -/
def integer? (negative : Bool) (digits : List Char) : Option Json.Number :=
  let n := numeral digits
  if negative then
    if 0 < n ∧ n ≤ 0x8000_0000_0000_0000 then some (.int (-(n : Int)))
    else if n < UInt64.size then some (.float (.ofRatio true n 1))
    else
      let (significand, dropped) := absorb 0 digits
      (scaled? true significand dropped.length).map .float
  else if n < UInt64.size then some (.int n)
  else
    let (significand, dropped) := absorb 0 digits
    (scaled? false significand dropped.length).map .float

/-- A literal with a fraction or an exponent. The exponent is given as its sign and digits. -/
def fraction? (negative : Bool) (digits fraction : List Char) (exponent : Option (Bool × List Char)) :
    Option Json.Number :=
  let (whole, dropped) := absorb 0 digits
  let (significand, left) := absorb whole fraction
  let shift : Int := (dropped.length : Int) - (fraction.length - left.length : Nat)
  match exponent with
  | none => (scaled? negative significand shift).map .float
  | some (down, power) =>
    let n := numeral power
    if 0x8000_0000 ≤ n then
      if significand ≠ 0 ∧ !down then none else some (.float (.ofParts negative 0))
    else
      let total := if down then max (shift - n) (-0x8000_0000) else min (shift + n) 0x7FFF_FFFF
      (scaled? negative significand total).map .float

/-- The exponent that a text may begin with, and the text after it. `none` if it is broken off. -/
def exponent? : List Char → Option (Option (Bool × List Char) × List Char)
  | [] => some (none, [])
  | c :: cs =>
    if c = 'e' ∨ c = 'E' then
      let (down, cs) :=
        match cs with
        | '+' :: cs => (false, cs)
        | '-' :: cs => (true, cs)
        | cs => (false, cs)
      let power := cs.takeWhile Char.isDigit
      if power.isEmpty then none else some (some (down, power), cs.dropWhile Char.isDigit)
    else some (none, c :: cs)

/-- The fraction digits that a text may begin with, after a point, and the text after them. `none` if no
digit follows the point. -/
def fractionDigits? : List Char → Option (List Char × List Char)
  | '.' :: cs =>
    let digits := cs.takeWhile Char.isDigit
    if digits.isEmpty then none else some (digits, cs.dropWhile Char.isDigit)
  | cs => some ([], cs)

/-- The number of a literal by its parts. -/
def literalNumber? (negative : Bool) (digits fraction : List Char) :
    Option (Bool × List Char) → Option Json.Number
  | none => if fraction.isEmpty then integer? negative digits else fraction? negative digits fraction none
  | some exponent => fraction? negative digits fraction (some exponent)

/-- Reads a number without its sign. -/
def unsigned? (negative : Bool) (cs : List Char) : Option (Json.Number × List Char) :=
  let digits := cs.takeWhile Char.isDigit
  if digits.isEmpty || (digits.head? == some '0' && 1 < digits.length) then none
  else
    (fractionDigits? (cs.dropWhile Char.isDigit)).bind fun (fraction, rest) =>
      (exponent? rest).bind fun (exponent, rest) =>
        (literalNumber? negative digits fraction exponent).map fun value => (value, rest)

theorem length_dropWhile_le (p : Char → Bool) (cs : List Char) : (cs.dropWhile p).length ≤ cs.length :=
  (List.dropWhile_sublist _).length_le

theorem length_le_of_exponent? {cs : List Char} {e : Option (Bool × List Char)} {rest : List Char}
    (h : exponent? cs = some (e, rest)) : rest.length ≤ cs.length := by
  have := length_dropWhile_le Char.isDigit
  unfold exponent? at h
  grind

theorem length_le_of_fractionDigits? {cs fraction rest : List Char}
    (h : fractionDigits? cs = some (fraction, rest)) : rest.length ≤ cs.length := by
  have := length_dropWhile_le Char.isDigit
  unfold fractionDigits? at h
  grind

theorem length_lt_of_unsigned? {negative : Bool} {cs : List Char} {value : Json.Number} {rest : List Char}
    (h : unsigned? negative cs = some (value, rest)) : rest.length < cs.length := by
  have hsplit := congrArg List.length (List.takeWhile_append_dropWhile (p := Char.isDigit) (l := cs))
  rw [List.length_append] at hsplit
  simp only [unsigned?] at h
  split at h
  · simp at h
  · rename_i hne
    have hpos : 0 < (cs.takeWhile Char.isDigit).length := by
      rw [List.length_pos_iff]
      intro e
      simp [e] at hne
    simp only [Option.bind_eq_some_iff, Option.map_eq_some_iff, Prod.exists, Prod.mk.injEq] at h
    obtain ⟨fraction, rest₁, hf, exponent, rest₂, he, v, -, -, rfl⟩ := h
    have := length_le_of_fractionDigits? hf
    have := length_le_of_exponent? he
    omega

/-- Reads a number. -/
def number? : Reader Json.Number
  | '-' :: cs =>
    match h : unsigned? true cs with
    | some (value, rest) => some (value, ⟨rest, Nat.lt_succ_of_lt (length_lt_of_unsigned? h)⟩)
    | none => none
  | cs =>
    match h : unsigned? false cs with
    | some (value, rest) => some (value, ⟨rest, length_lt_of_unsigned? h⟩)
    | none => none

/-- Reads items up to the closing bracket, each of them by `item?`. -/
def items? (item? : Reader Json) (cs : List Char) : Option (List Json × Rest cs) := do
  let (value, rest) ← item? cs
  have hle := length_skipBlanks_le rest.1
  match h : skipBlanks rest.1 with
  | ']' :: after =>
    have : (skipBlanks rest.1).length = after.length + 1 := by simp [h]
    some ([value], ⟨after, by have := rest.2; omega⟩)
  | ',' :: next =>
    have : (skipBlanks rest.1).length = next.length + 1 := by simp [h]
    have hlt : (skipBlanks next).length < cs.length := by
      have := length_skipBlanks_le next
      have := rest.2
      omega
    let (values, after) ← items? item? (skipBlanks next)
    some (value :: values, ⟨after.1, by have := after.2; omega⟩)
  | _ => none
termination_by cs.length

/-- Reads fields up to the closing brace, the value of each by `item?`. -/
def fields? (item? : Reader Json) (cs : List Char) : Option (List (String × Json) × Rest cs) := do
  let (name, rest) ← string? cs
  have hname := length_skipBlanks_le rest.1
  match h : skipBlanks rest.1 with
  | ':' :: colon =>
    have : (skipBlanks rest.1).length = colon.length + 1 := by simp [h]
    have := length_skipBlanks_le colon
    let (value, rest') ← item? (skipBlanks colon)
    have hvalue := length_skipBlanks_le rest'.1
    match h' : skipBlanks rest'.1 with
    | '\x7d' :: after =>
      have : (skipBlanks rest'.1).length = after.length + 1 := by simp [h']
      some ([(name, value)], ⟨after, by have := rest.2; have := rest'.2; omega⟩)
    | ',' :: next =>
      have : (skipBlanks rest'.1).length = next.length + 1 := by simp [h']
      have hlt : (skipBlanks next).length < cs.length := by
        have := length_skipBlanks_le next
        have := rest.2
        have := rest'.2
        omega
      let (fields, after) ← fields? item? (skipBlanks next)
      some ((name, value) :: fields, ⟨after.1, by have := after.2; omega⟩)
    | _ => none
  | _ => none
termination_by cs.length

/-- Reads a literal word. -/
def literal? (word : List Char) (value : Json) (cs : List Char) : Option (Json × Rest cs) :=
  if h : 0 < word.length ∧ word.isPrefixOf cs then
    some (value, ⟨cs.drop word.length, by
      have := (List.isPrefixOf_iff_prefix.mp h.2).length_le
      simp only [List.length_drop]
      omega⟩)
  else none

/-- Reads a value that is no array and no object. -/
def scalar? : Reader Json
  | [] => none
  | c :: cs =>
    if c = 'n' then literal? "null".toList .null (c :: cs)
    else if c = 't' then literal? "true".toList (.bool true) (c :: cs)
    else if c = 'f' then literal? "false".toList (.bool false) (c :: cs)
    else if c = '"' then (string? (c :: cs)).map fun (text, rest) => (.string text, rest)
    else (number? (c :: cs)).map fun (value, rest) => (.number value, rest)

/-- Reads an array or an object whose items are read by `item?`, or a scalar. -/
def nested? (item? : Reader Json) : Reader Json
  | [] => none
  | c :: cs =>
    have hle := length_skipBlanks_le cs
    if c = '[' then
      match h : skipBlanks cs with
      | ']' :: after =>
        have : (skipBlanks cs).length = after.length + 1 := by simp [h]
        some (.array [], ⟨after, by simp only [List.length_cons]; omega⟩)
      | _ =>
        (items? item? (skipBlanks cs)).map fun (items, rest) =>
          (.array items, ⟨rest.1, by have := rest.2; simp only [List.length_cons]; omega⟩)
    else if c = '\x7b' then
      match h : skipBlanks cs with
      | '\x7d' :: after =>
        have : (skipBlanks cs).length = after.length + 1 := by simp [h]
        some (.object [], ⟨after, by simp only [List.length_cons]; omega⟩)
      | _ =>
        (fields? item? (skipBlanks cs)).map fun (fields, rest) =>
          (.object (Fields.ofList fields), ⟨rest.1, by have := rest.2; simp only [List.length_cons]; omega⟩)
    else scalar? (c :: cs)

/-- Reads a value whose arrays and objects nest at most `levels` deep. -/
def value? : (levels : Nat) → Reader Json
  | 0 => scalar?
  | levels + 1 => nested? (value? levels)

end Parser

/-- How deep the arrays and objects of a JSON text may nest. -/
def nestingLimit : Nat := 127

/-- The value of a JSON text. -/
def parse? (source : List Char) (levels : Nat) : Option Json := do
  let (value, rest) ← Parser.value? levels (Parser.skipBlanks source)
  if (Parser.skipBlanks rest.1).isEmpty then some value else none

end SchemaWire.Json
