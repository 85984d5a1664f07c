/-!
# UTF-8

Texts are lists of characters, and byte strings lists of octets. `encode` writes the one to four octets
of each character in turn. `decode` reads them back and accepts well-formed sequences only: no overlong
form, no surrogate, nothing above U+10FFFF. A byte string that is not UTF-8 is refused with the place
where its longest well-formed beginning ends.
-/

namespace SchemaWire

/-- A byte string. -/
abbrev Bytes := List UInt8

namespace Utf8

/-- Why a byte string is not UTF-8. `index` is the length of its longest well-formed beginning. -/
inductive Fault
  /-- The `length` octets at `index` begin no character, and no shorter piece of them rules that out. -/
  | invalid (length index : Nat)
  /-- The octets from `index` on begin a character that the end of the input cuts off. -/
  | incomplete (index : Nat)
  deriving DecidableEq, Repr

/-- The wording of a fault. -/
def Fault.message : Fault → String
  | .invalid length index => s!"invalid utf-8 sequence of {length} bytes from index {index}"
  | .incomplete index => s!"incomplete utf-8 byte sequence from index {index}"

/-- The number of octets of a text. -/
def size : List Char → Nat
  | [] => 0
  | c :: cs => c.utf8Size + size cs

/-- The octets of a text. -/
def encode (cs : List Char) : Bytes :=
  cs.flatMap String.utf8EncodeChar

/-- What the first octet of a character of several octets says: their number, and the least and the
greatest octet that may come second. -/
def lead? (a : UInt8) : Option (Nat × UInt8 × UInt8) :=
  if 0xC2 ≤ a ∧ a ≤ 0xDF then some (2, 0x80, 0xBF)
  else if a = 0xE0 then some (3, 0xA0, 0xBF)
  else if a = 0xED then some (3, 0x80, 0x9F)
  else if 0xE1 ≤ a ∧ a ≤ 0xEF then some (3, 0x80, 0xBF)
  else if a = 0xF0 then some (4, 0x90, 0xBF)
  else if 0xF1 ≤ a ∧ a ≤ 0xF3 then some (4, 0x80, 0xBF)
  else if a = 0xF4 then some (4, 0x80, 0x8F)
  else none

/-- Whether `b` continues a character. -/
def isTail (b : UInt8) : Bool :=
  0x80 ≤ b && b ≤ 0xBF

/-- The character whose octets carry the payload bits `a`, `b`, `c` and `d`, six bits each after `a`. -/
def assemble (payload : List Nat) : Char :=
  Char.ofNat (payload.foldl (fun n p => n * 64 + p) 0)

/-- The six payload bits of an octet that continues a character. -/
def tailBits (b : UInt8) : Nat :=
  b.toNat % 64

/-- The characters of the octets that follow the first `index` octets of the input. -/
def decodeFrom (index : Nat) : Bytes → Except Fault (List Char)
  | [] => .ok []
  | a :: as =>
    if a < 0x80 then
      (decodeFrom (index + 1) as).map (assemble [a.toNat] :: ·)
    else
      match lead? a with
      | none => .error (.invalid 1 index)
      | some (width, low, high) =>
        match as with
        | [] => .error (.incomplete index)
        | b :: bs =>
          if b < low ∨ high < b then .error (.invalid 1 index)
          else if width = 2 then
            (decodeFrom (index + 2) bs).map (assemble [a.toNat % 32, tailBits b] :: ·)
          else
            match bs with
            | [] => .error (.incomplete index)
            | c :: cs =>
              if !isTail c then .error (.invalid 2 index)
              else if width = 3 then
                (decodeFrom (index + 3) cs).map (assemble [a.toNat % 16, tailBits b, tailBits c] :: ·)
              else
                match cs with
                | [] => .error (.incomplete index)
                | d :: ds =>
                  if !isTail d then .error (.invalid 3 index)
                  else (decodeFrom (index + 4) ds).map
                    (assemble [a.toNat % 8, tailBits b, tailBits c, tailBits d] :: ·)

/-- The characters that a byte string encodes. -/
def decode (bytes : Bytes) : Except Fault (List Char) :=
  decodeFrom 0 bytes

/-- The octets of a string. -/
def ofString (s : String) : Bytes :=
  encode s.toList

/-- The string that a byte string encodes. -/
def toString? (bytes : Bytes) : Except Fault String :=
  (decode bytes).map String.ofList

@[simp] theorem size_nil : size [] = 0 := rfl

@[simp] theorem size_cons (c : Char) (cs : List Char) : size (c :: cs) = c.utf8Size + size cs := rfl

@[simp] theorem size_append (as bs : List Char) : size (as ++ bs) = size as + size bs := by
  induction as with
  | nil => simp
  | cons c cs ih => simp [ih, Nat.add_assoc]

@[simp] theorem encode_append (as bs : List Char) : encode (as ++ bs) = encode as ++ encode bs := by
  simp [encode]

theorem length_encode (cs : List Char) : (encode cs).length = size cs := by
  induction cs with
  | nil => rfl
  | cons c cs ih => simp_all [encode, size]

end Utf8

end SchemaWire
