import SchemaWire.Wire.Reader

/-!
# Cursors

A `Cursor` is a buffer with an offset into it, which reads move. A read of more than one part moves it part by
part, and puts it back where a later part fails.
-/

namespace SchemaWire

/-- A buffer, and the number of its octets that were passed. -/
structure Cursor where
  buffer : Bytes
  offset : Nat
  deriving DecidableEq, Repr

namespace Cursor

/-- A read. What it moved before it failed stays moved. -/
abbrev Read (α : Type) := ExceptT WireError (StateM Cursor) α

/-- A cursor at the beginning of a buffer. -/
def ofBytes (buffer : Bytes) : Cursor := ⟨buffer, 0⟩

/-- The number of octets behind the cursor. -/
def remaining (c : Cursor) : Nat :=
  c.buffer.length - c.offset

/-- Whether nothing is behind the cursor. -/
def isEmpty (c : Cursor) : Bool :=
  c.remaining == 0

/-- The error of asking for more octets than there are. The offset that it names has 64 bits. -/
def underrun (c : Cursor) (requested : Nat) : WireError :=
  .underrun requested c.buffer.length (min (c.offset + requested) (UInt64.size - 1))

/-! ## Moving -/

/-- Puts the cursor at an offset. -/
def moveTo (offset : Nat) : Read Unit :=
  modify fun c => { c with offset }

/-- Passes octets. -/
def advance (n : Nat) : Read Unit :=
  modify fun c => { c with offset := c.offset + n }

/-! ## Reads -/

/-- The next `n` octets, without passing them. -/
def slice (n : Nat) : Read Bytes := do
  let c ← get
  -- an end that does not fit 64 bits lies behind every buffer
  if c.offset + n ≤ c.buffer.length then
    return (c.buffer.drop c.offset).take n
  else
    throw (c.underrun n)

/-- The next `n` octets. -/
def raw (n : Nat) : Read Bytes := do
  let octets ← slice n
  advance n
  return octets

/-- The next number of `width` octets. -/
def word (width : Nat) : Read Nat :=
  return Word.ofBytes (← raw width)

/-- The next number of `width` octets, which may be negative. -/
def signed (width : Nat) : Read Int :=
  return Word.signed (← raw width)

/-- The next number in the 32-bit floating-point format. -/
def float : Read Single :=
  return ⟨UInt32.ofNat (← word 4)⟩

/-- The next number in the 64-bit floating-point format. -/
def double : Read Double :=
  return ⟨UInt64.ofNat (← word 8)⟩

/-- The next truth value. -/
def bool : Read Bool := do
  let octet := (← slice 1).headD 0
  if octet = 0 then
    advance 1
    return false
  else if octet = 1 then
    advance 1
    return true
  else
    throw (.invalidBool octet)

/-- The text of the next number of 64 bits. -/
def long : Read String :=
  return longText (← raw 8)

/-- The next payload, whose padding is passed over unseen. -/
def bytes : Read Bytes := do
  let start := (← get).offset
  let length ← word 4
  let total := length + padding length
  let c ← get
  if UInt64.size ≤ total then
    moveTo start
    throw ((← get).underrun length)
  else if c.remaining < total then
    moveTo start
    throw (c.underrun total)
  else
    advance total
    return (c.buffer.drop c.offset).take length

/-- The text of the next payload. -/
def string : Read String := do
  let start := (← get).offset
  let payload ← bytes
  match Utf8.toString? payload with
  | .ok text => return text
  | .error fault =>
    moveTo start
    throw (.invalidUtf8 fault)

/-- The next number of 32 bits, without passing it. -/
def peek : Read UInt32 :=
  return UInt32.ofNat (Word.ofBytes (← slice 4))

end Cursor

end SchemaWire
