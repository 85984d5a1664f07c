import SchemaWire.Wire.Entry

/-!
# Reading

A `Reader` is a place in a buffer. Every read gives a value and the place after it, or an error and no
place: one that fails moves nothing.
-/

namespace SchemaWire

/-- A place in a buffer: the number of octets before it, and the octets after it. -/
structure Reader where
  offset : Nat
  rest : Bytes
  deriving DecidableEq, Repr

namespace Reader

/-- The beginning of a buffer. -/
def ofBytes (bytes : Bytes) : Reader := ⟨0, bytes⟩

/-- The number of octets of the buffer. -/
def total (r : Reader) : Nat :=
  r.offset + r.rest.length

/-- The error of asking for more octets than there are. The offset that it names has 64 bits. -/
def underrun (r : Reader) (requested : Nat) : WireError :=
  .underrun requested r.total (min (r.offset + requested) (UInt64.size - 1))

/-- The next `n` octets. -/
def raw (n : Nat) (r : Reader) : Except WireError (Bytes × Reader) :=
  if n ≤ r.rest.length then .ok (r.rest.take n, ⟨r.offset + n, r.rest.drop n⟩) else .error (r.underrun n)

/-- The next number of `width` octets. -/
def word (width : Nat) (r : Reader) : Except WireError (Nat × Reader) :=
  (r.raw width).map fun (octets, r) => (Word.ofBytes octets, r)

/-- The next number of `width` octets, which may be negative. -/
def signed (width : Nat) (r : Reader) : Except WireError (Int × Reader) :=
  (r.raw width).map fun (octets, r) => (Word.signed octets, r)

/-- The next number of 32 bits. -/
def uint (r : Reader) : Except WireError (UInt32 × Reader) :=
  (r.word 4).map fun (n, r) => (UInt32.ofNat n, r)

/-- The next number in the 32-bit floating-point format. -/
def float (r : Reader) : Except WireError (Single × Reader) :=
  (r.word 4).map fun (n, r) => (⟨UInt32.ofNat n⟩, r)

/-- The next number in the 64-bit floating-point format. -/
def double (r : Reader) : Except WireError (Double × Reader) :=
  (r.word 8).map fun (n, r) => (⟨UInt64.ofNat n⟩, r)

/-- The next truth value. -/
def bool (r : Reader) : Except WireError (Bool × Reader) :=
  match r.rest with
  | [] => .error (r.underrun 1)
  | b :: rest =>
    if b = 0 then .ok (false, ⟨r.offset + 1, rest⟩)
    else if b = 1 then .ok (true, ⟨r.offset + 1, rest⟩)
    else .error (.invalidBool b)

/-- The text of the next number of 64 bits. -/
def long (r : Reader) : Except WireError (String × Reader) :=
  (r.raw 8).map fun (octets, r) => (longText octets, r)

/-- The next payload, whose padding is passed over unseen. -/
def bytes (r : Reader) : Except WireError (Bytes × Reader) := do
  let (length, r) ← r.word 4
  let (octets, r) ← r.raw (length + padding length)
  return (octets.take length, r)

/-- The text of the next payload. -/
def string (r : Reader) : Except WireError (String × Reader) := do
  let (payload, r) ← r.bytes
  match Utf8.toString? payload with
  | .ok text => return (text, r)
  | .error fault => throw (.invalidUtf8 fault)

/-- The next number of 32 bits, without passing it. -/
def peek (r : Reader) : Except WireError UInt32 :=
  r.uint.map Prod.fst

end Reader

end SchemaWire
