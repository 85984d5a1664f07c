import SchemaWire.Proofs.Reading

/-!
# Segments

A segment is what one read takes off the wire, with the padding as it was found. `Segment.Fits` says which
segments a primitive layout admits. Reading a primitive value is taking a segment that fits
(`run_decodePrimitive_eq_ok_iff`), so the segments are the terminal symbols of the wire format.
-/

namespace SchemaWire

/-- What one read takes off the wire. -/
inductive Segment
  /-- The octets of a number. -/
  | number (type : Primitive) (octets : Bytes)
  | bool (value : Bool)
  | bytes (payload padding : Bytes)
  /-- A text, with its exact length in characters if one is declared. -/
  | string (declared : Option UInt32) (text : String) (padding : Bytes)
  /-- Octets without length and padding. -/
  | raw (octets : Bytes)
  deriving DecidableEq, Repr

/-- The number of octets of a number. -/
def Primitive.width? : Primitive → Option Nat
  | .int => some 4
  | .uint => some 4
  | .short => some 2
  | .ushort => some 2
  | .float => some 4
  | .double => some 8
  | .long => some 8
  | .ulong => some 8
  | .bool => none
  | .string => none
  | .bytes => none

/-- The number in the 32-bit format that four octets hold. -/
def Single.ofOctets (octets : Bytes) : Single :=
  ⟨UInt32.ofNat (Word.ofBytes octets)⟩

/-- The number in the 64-bit format that eight octets hold. -/
def Double.ofOctets (octets : Bytes) : Double :=
  ⟨UInt64.ofNat (Word.ofBytes octets)⟩

/-- The value of the octets of a number. -/
def Primitive.numberValue : Primitive → Bytes → Value
  | .int, octets => .int (Int64.ofInt (Word.signed octets))
  | .uint, octets => .int (Int64.ofNat (Word.ofBytes octets))
  | .short, octets => .int (Int64.ofInt (Word.signed octets))
  | .ushort, octets => .int (Int64.ofNat (Word.ofBytes octets))
  | .float, octets => .float (Single.ofOctets octets).toDouble
  | .double, octets => .float (Double.ofOctets octets)
  | .long, octets => .string (longText octets)
  | .ulong, octets => .string (longText octets)
  | .bool, _ => .null
  | .string, _ => .null
  | .bytes, _ => .null

/-- A payload after its length, with padding behind it. -/
def framed (payload padding : Bytes) : Bytes :=
  Word.toBytes 4 payload.length ++ payload ++ padding

/-- Whether the length of a payload fits its prefix, and the padding the length. -/
def IsFrame (payload padding : Bytes) : Prop :=
  payload.length < UInt32.size ∧ padding.length = SchemaWire.padding payload.length

namespace Segment

/-- The octets of a segment. -/
def octets : Segment → Bytes
  | .number _ octets => octets
  | .bool b => [if b then 1 else 0]
  | .bytes payload padding => framed payload padding
  | .string _ text padding => framed (Utf8.ofString text) padding
  | .raw octets => octets

/-- What is read from a segment. -/
def value : Segment → Value
  | .number type octets => type.numberValue octets
  | .bool b => .bool b
  | .bytes payload _ => .bytes payload
  | .string _ text _ => .string text
  | .raw octets => .bytes octets

/-- The segment with zeros for padding. -/
def cleared : Segment → Segment
  | .bytes payload padding => .bytes payload (List.replicate padding.length 0)
  | .string declared text padding => .string declared text (List.replicate padding.length 0)
  | other => other

/-- Whether the padding is zeros already. -/
def IsClear : Segment → Prop
  | .bytes _ padding => ∀ b ∈ padding, b = 0
  | .string _ _ padding => ∀ b ∈ padding, b = 0
  | _ => True

/-- Whether the bits are those of a floating-point format and no number in it. -/
def isNaN : Segment → Bool
  | .number .float octets => (Single.ofOctets octets).isNaN
  | .number .double octets => (Double.ofOctets octets).isNaN
  | _ => false

/-- Whether a text has its declared length. -/
def HasDeclaredLength : Segment → Prop
  | .string (some size) text _ => text.length = size.toNat
  | _ => True

/-- The segments of a primitive layout. A text of exact length may have any length on the wire. -/
inductive Fits : Shape → Segment → Prop
  | number {type : Primitive} {octets : Bytes} (h : type.width? = some octets.length) :
    Fits (.primitive type) (.number type octets)
  | bool {b : Bool} : Fits (.primitive .bool) (.bool b)
  | bytes {payload padding : Bytes} (h : IsFrame payload padding) : Fits (.primitive .bytes) (.bytes payload padding)
  | string {text : String} {padding : Bytes} (h : IsFrame (Utf8.ofString text) padding) :
    Fits (.primitive .string) (.string none text padding)
  | sized {type : Primitive} {size : UInt32} {text : String} {padding : Bytes} (htype : type ≠ .bytes)
    (h : IsFrame (Utf8.ofString text) padding) : Fits (.strict type size) (.string (some size) text padding)
  | raw {size : UInt32} {octets : Bytes} (h : octets.length = size.toNat) : Fits (.strict .bytes size) (.raw octets)

end Segment

/-! ## Reading segments -/

namespace Reader

variable {place next : Reader}

theorem bytes_eq_ok_iff_framed {payload : Bytes} :
    place.bytes = .ok (payload, next) ↔
      ∃ padding, IsFrame payload padding ∧ place.Passes (framed payload padding) next := by
  rw [bytes_eq_ok_iff]
  simp only [IsFrame, framed, and_assoc]

end Reader

namespace Registry

open Decoder

variable {place next : Reader} {v : Value}

/-- What is read off a fixed number of octets and then wrapped up as a value. -/
theorem run_read_raw_eq_ok_iff {α : Type} {f : Reader → Except WireError (α × Reader)} {width : Nat}
    {read : Bytes → α} (g : α → Value)
    (hf : ∀ place, f place = (place.raw width).map fun (octets, next) => (read octets, next)) :
    (do return g (← Decoder.read f) : Decoder Value).run place = .ok (v, next) ↔
      ∃ octets, octets.length = width ∧ place.Passes octets next ∧ v = g (read octets) := by
  rw [run_read_map_eq_ok_iff, hf]
  simp only [Reader.map_raw_eq_ok_iff]
  constructor
  · rintro ⟨x, ⟨octets, hlen, hpass, rfl⟩, rfl⟩
    exact ⟨octets, hlen, hpass, rfl⟩
  · rintro ⟨octets, hlen, hpass, rfl⟩
    exact ⟨read octets, ⟨octets, hlen, hpass, rfl⟩, rfl⟩

theorem run_decodePrimitive_number {type : Primitive} {width : Nat} (h : type.width? = some width) :
    (decodePrimitive type).run place = .ok (v, next) ↔
      ∃ octets, octets.length = width ∧ place.Passes octets next ∧ v = type.numberValue octets := by
  cases type <;> cases h
  case int => exact run_read_raw_eq_ok_iff _ fun _ => rfl
  case uint => exact run_read_raw_eq_ok_iff _ fun _ => rfl
  case short => exact run_read_raw_eq_ok_iff _ fun _ => rfl
  case ushort => exact run_read_raw_eq_ok_iff _ fun _ => rfl
  case long => exact run_read_raw_eq_ok_iff _ fun _ => rfl
  case ulong => exact run_read_raw_eq_ok_iff _ fun _ => rfl
  case float => exact run_read_raw_eq_ok_iff _ fun _ => Except.map_map
  case double => exact run_read_raw_eq_ok_iff _ fun _ => Except.map_map

theorem run_decodePrimitive_eq_ok_iff {type : Primitive} :
    (decodePrimitive type).run place = .ok (v, next) ↔
      ∃ s : Segment, s.Fits (.primitive type) ∧ place.Passes s.octets next ∧ v = s.value := by
  cases hwidth : type.width? with
  | some width =>
    rw [run_decodePrimitive_number hwidth]
    constructor
    · rintro ⟨octets, rfl, hpass, rfl⟩
      exact ⟨.number type octets, .number hwidth, hpass, rfl⟩
    · rintro ⟨s, hfits, hpass, rfl⟩
      cases hfits with
      | @number type octets h =>
        rw [hwidth, Option.some.injEq] at h
        exact ⟨octets, h.symm, hpass, rfl⟩
      | bool => cases hwidth
      | bytes => cases hwidth
      | string => cases hwidth
  | none =>
    cases type with
    | bool =>
      simp only [decodePrimitive, run_read_map_eq_ok_iff, Reader.bool_eq_ok_iff]
      constructor
      · rintro ⟨b, hpass, rfl⟩
        exact ⟨.bool b, .bool, hpass, rfl⟩
      · rintro ⟨_, ⟨⟩, hpass, rfl⟩
        · contradiction
        · exact ⟨_, hpass, rfl⟩
    | string =>
      simp only [decodePrimitive, run_read_map_eq_ok_iff, Reader.string_eq_ok_iff, Reader.bytes_eq_ok_iff_framed]
      constructor
      · rintro ⟨text, ⟨padding, hframe, hpass⟩, rfl⟩
        exact ⟨.string none text padding, .string hframe, hpass, rfl⟩
      · rintro ⟨_, ⟨⟩, hpass, rfl⟩
        · contradiction
        · exact ⟨_, ⟨_, ‹_›, hpass⟩, rfl⟩
    | bytes =>
      simp only [decodePrimitive, run_read_map_eq_ok_iff, Reader.bytes_eq_ok_iff_framed]
      constructor
      · rintro ⟨payload, ⟨padding, hframe, hpass⟩, rfl⟩
        exact ⟨.bytes payload padding, .bytes hframe, hpass, rfl⟩
      · rintro ⟨_, ⟨⟩, hpass, rfl⟩
        · contradiction
        · exact ⟨_, ⟨_, ‹_›, hpass⟩, rfl⟩
    | _ => cases hwidth

/-- A text of exact length is read at whatever length it has; octets are read at the declared one. -/
theorem run_decodeShape_strict_eq_ok_iff {r : Registry} {nested : Decoder Value} {param : String}
    {type : Primitive} {size : UInt32} :
    (r.decodeShape nested param (.strict type size)).run place = .ok (v, next) ↔
      ∃ s : Segment, s.Fits (.strict type size) ∧ place.Passes s.octets next ∧ v = s.value := by
  by_cases htype : type = .bytes
  · subst htype
    simp only [decodeShape, run_read_map_eq_ok_iff, Reader.raw_eq_ok_iff]
    constructor
    · rintro ⟨octets, ⟨hlen, hpass⟩, rfl⟩
      exact ⟨.raw octets, .raw hlen, hpass, rfl⟩
    · rintro ⟨_, ⟨⟩, hpass, rfl⟩
      · contradiction
      · exact ⟨_, ⟨‹_›, hpass⟩, rfl⟩
  · have hread : r.decodeShape nested param (.strict type size) =
        (do return .string (← Decoder.read Reader.string)) := by
      cases type <;> first | rfl | contradiction
    rw [hread]
    simp only [run_read_map_eq_ok_iff, Reader.string_eq_ok_iff, Reader.bytes_eq_ok_iff_framed]
    constructor
    · rintro ⟨text, ⟨padding, hframe, hpass⟩, rfl⟩
      exact ⟨.string (some size) text padding, .sized htype hframe, hpass, rfl⟩
    · rintro ⟨_, ⟨⟩, hpass, rfl⟩
      · exact ⟨_, ⟨_, ‹_›, hpass⟩, rfl⟩
      · contradiction

end Registry

end SchemaWire
