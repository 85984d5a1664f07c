import SchemaWire.Proofs.Integral
import SchemaWire.Proofs.LongText
import SchemaWire.Proofs.Rewriting
import SchemaWire.Proofs.Stream

/-!
# Spellings of one scalar

Octets and integers may be given in several spellings. Which one is given makes no difference to what is encoded, for
any param, at any depth (`encode_eq_of_respells`). Each spelling is taken on a path of its own, and all paths lead to
the same octets or the same integer (`octets_of_spells`, `integer_of_spells`, `bits_of_spells`). Only the name by which
an object tells its container must be text.
-/

namespace SchemaWire

/-! ## Spellings -/

namespace Value

/-- The spellings of an octet in an array. -/
inductive SpellsOctet : UInt8 → Value → Prop
  | int {octet : UInt8} {n : Int64} (h : n.toInt = octet.toNat) : SpellsOctet octet (.int n)
  | uint {octet : UInt8} {n : UInt64} (h : n.toNat = octet.toNat) : SpellsOctet octet (.uint n)

/-- The spellings of octets: as they are, one by one, as pairs of hexadecimal digits of either case, and as the text
of which they are the UTF-8 form. -/
inductive SpellsOctets : Bytes → Value → Prop
  | bytes {octets : Bytes} : SpellsOctets octets (.bytes octets)
  | array {octets : Bytes} {items : List Value} (h : List.Forall₂ SpellsOctet octets items) :
    SpellsOctets octets (.array items)
  | hexadecimal {octets : Bytes} {digits : List Char} (h : digits.map Char.toLower = Hex.encode octets) :
    SpellsOctets octets (.string ("0x" ++ String.ofList digits))
  | text {text : String} (h : ¬['0', 'x'] <+: text.toList) : SpellsOctets (Utf8.ofString text) (.string text)

/-- The spellings of an integer: signed, unsigned, and, if it is small, as a floating-point number. -/
inductive SpellsInteger : Int → Value → Prop
  | int {n : Int64} : SpellsInteger n.toInt (.int n)
  | uint {n : UInt64} : SpellsInteger n.toNat (.uint n)
  | float {n : Int} {x : Double} (h : x.IsInteger n) (hsmall : n.natAbs < 2 ^ 53) : SpellsInteger n (.float x)

/-- The spellings of an integer of 64 bits: those of an integer, its decimal text, and the digits of its bits. -/
inductive SpellsLong : Int → Value → Prop
  | integer {n : Int} {v : Value} (h : v.SpellsInteger n) : SpellsLong n v
  | decimal {n : Int} : SpellsLong n (.string (toString n))
  | hexadecimal {n : Int} {digits : List Char} (h : digits.map Char.toLower = hexDigits 16 (n % 2 ^ 64).toNat) :
    SpellsLong n (.string ("0x" ++ String.ofList digits))

end Value

/-- Whether two values are spellings of the same scalar of a type. What is neither octets nor an integer has only one
spelling. -/
def Primitive.SpellsSame : Primitive → Value → Value → Prop
  | .bytes, v, w => ∃ octets, v.SpellsOctets octets ∧ w.SpellsOctets octets
  | .int, v, w => ∃ n, v.SpellsInteger n ∧ w.SpellsInteger n
  | .uint, v, w => ∃ n, v.SpellsInteger n ∧ w.SpellsInteger n
  | .short, v, w => ∃ n, v.SpellsInteger n ∧ w.SpellsInteger n
  | .ushort, v, w => ∃ n, v.SpellsInteger n ∧ w.SpellsInteger n
  | .long, v, w => ∃ n, (-2 ^ 63 ≤ n ∧ n < 2 ^ 64) ∧ v.SpellsLong n ∧ w.SpellsLong n
  | .ulong, v, w => ∃ n, (0 ≤ n ∧ n < 2 ^ 64) ∧ v.SpellsLong n ∧ w.SpellsLong n
  | _, v, w => v = w

/-- Another spelling of one scalar in a value of a layout, at any depth. If several params of a container have the key
under which it stands, it is one for each of them. -/
inductive Value.Respells (r : Registry) : Shape → Value → Value → Prop
  | scalar {type : Primitive} {v w : Value} (h : type.SpellsSame v w) : Respells r (.primitive type) v w
  | sized {size : UInt32} {v w : Value} (h : Primitive.bytes.SpellsSame v w) : Respells r (.strict .bytes size) v w
  | item {item : VectorItem} {before after : List Value} {v w : Value} (h : Respells r item.shape v w) :
    Respells r (.vector item) (.array (before ++ v :: after)) (.array (before ++ w :: after))
  | field {reference : String} {before after : Fields Value} {key : String} {v w : Value} (hname : key ≠ "_name")
    (hnull : v.isNull = w.isNull)
    (h : ∀ c, r.containerOf? (.object (before ++ (key, v) :: after)) = some c → ∀ p ∈ c.params, p.name = key →
      ∀ shape, p.shape? = some shape → Respells r shape v w) :
    Respells r (.reference reference) (.object (before ++ (key, v) :: after)) (.object (before ++ (key, w) :: after))

/-! ## What the spellings are taken for -/

namespace Value

variable {v w : Value} {octets : Bytes} {n : Int}

theorem octet?_of_spells {octet : UInt8} (h : v.SpellsOctet octet) : v.octet? = some octet := by
  have hlt := octet.toNat_lt
  cases h with
  | int h =>
    rw [octet?, signed?, Option.bind_some, h, if_pos (by omega), Int.toNat_natCast, UInt8.ofNat_toNat]
  | @uint m h =>
    have hint : (Int64.ofNat m.toNat).toInt = octet.toNat := by
      rw [Int64.toInt_ofNat_of_lt (by omega), h]
    rw [octet?, signed?, if_pos (by omega), Option.bind_some, hint, if_pos (by omega), Int.toNat_natCast,
      UInt8.ofNat_toNat]

theorem mapM_octet?_of_spells {items : List Value} (h : List.Forall₂ SpellsOctet octets items) :
    items.mapM octet? = some octets := by
  induction h with
  | nil => rfl
  | cons hfirst _ ih => rw [List.mapM_cons, octet?_of_spells hfirst, ih]; rfl

theorem octets_of_spells (h : v.SpellsOctets octets) (param : String) : v.octets param = .ok octets := by
  cases h with
  | bytes => rfl
  | array h => simp only [Value.octets, mapM_octet?_of_spells h]
  | @hexadecimal _ digits h =>
    have htext : ("0x" ++ String.ofList digits).toList = '0' :: 'x' :: digits := by simp
    have hdecode : Hex.decode? digits = some octets := by
      rw [← Hex.decode?_map_toLower, h, Hex.decode?_encode]
    simp only [Value.octets, htext, hdecode]
  | @text text h =>
    simp only [Value.octets]
    split
    · next digits heq => exact absurd ⟨digits, heq.symm⟩ h
    · rfl

/-- An unsigned integer beyond the signed range has only one spelling, and is refused. -/
theorem integer_of_spells (h : v.SpellsInteger n) (param : String) (type : Primitive) :
    v.integer param type = if n < 2 ^ 63 then .ok n else .error (.wire (.outOfRange type n)) := by
  cases h with
  | @int m => rw [integer, if_pos m.toInt_lt]
  | @uint m =>
    rw [integer]
    by_cases hlt : m.toNat < 0x8000_0000_0000_0000
    · rw [if_pos hlt, if_pos (by omega)]
    · rw [if_neg hlt, if_neg (by omega)]
  | float h hsmall =>
    rw [integer, Double.toInt?_eq_some_iff.mpr ⟨h, hsmall⟩, if_pos (by omega)]

/-- The decimal text of an integer has a sign only below zero. -/
theorem isDecimal_toString (n : Int) :
    ∃ negative, IsDecimal (toString n).toList negative n ∧ ¬(n = 0 ∧ negative = true) := by
  have hdigits (m : Nat) : Text.Writes 10 (Nat.toDigits 10 m) m := Text.writes_toDigits (by decide) (by decide) m
  cases n with
  | ofNat m =>
    refine ⟨false, ?_, nofun⟩
    have htext : (toString (Int.ofNat m)).toList = Nat.toDigits 10 m := by
      simp [toString, Int.repr, Nat.repr_eq_ofList_toDigits]
    rw [htext]
    exact .bare Nat.toDigits_ne_nil (hdigits m)
  | negSucc m =>
    refine ⟨true, ?_, nofun⟩
    have htext : (toString (Int.negSucc m)).toList = '-' :: Nat.toDigits 10 (m + 1) := by
      simp [toString, Int.repr, Nat.repr_eq_ofList_toDigits]
    rw [htext]
    exact .minus Nat.toDigits_ne_nil (hdigits (m + 1))

theorem writes_hexDigits (count n : Nat) : Text.Writes 16 (hexDigits count n) (n % 16 ^ count) := by
  induction count generalizing n with
  | zero => rw [pow_zero, Nat.mod_one]; exact .nil
  | succ count ih =>
    have hlast : Text.digitValue? (Nat.digitChar (n % 16)) = some (n % 16) := Text.digitValue?_digitChar (by omega)
    have hall := (ih (n / 16)).digit hlast (by omega)
    have hsplit : n / 16 % 16 ^ count * 16 + n % 16 = n % 16 ^ (count + 1) := by
      rw [Nat.pow_succ', Nat.mod_mul]
      omega
    rwa [hsplit] at hall

theorem length_hexDigits (count n : Nat) : (hexDigits count n).length = count := by
  induction count generalizing n with
  | zero => rfl
  | succ count ih => rw [hexDigits, List.length_append, ih, List.length_singleton]

/-- All spellings of an integer of 64 bits have its bits. -/
theorem bits_of_spells (h : v.SpellsLong n) (hlow : -2 ^ 63 ≤ n) (hhigh : n < 2 ^ 64) (param : String) :
    ∃ input, v.longInput param = .ok input ∧ input.signedBits = .ok (UInt64.ofInt n) ∧
      (0 ≤ n → input.unsignedBits = .ok (UInt64.ofInt n)) := by
  cases h with
  | integer h =>
    cases h with
    | @int m =>
      refine ⟨.int m, rfl, ?_, fun hn => ?_⟩
      · rw [LongInput.signedBits, LongInput.toUInt64_eq_ofInt]
      · rw [LongInput.unsignedBits, if_neg (by omega), LongInput.toUInt64_eq_ofInt]
    | @uint m =>
      have hbits : UInt64.ofInt m.toNat = m := by rw [LongInput.ofInt_natCast, UInt64.ofNat_toNat]
      exact ⟨.uint m, rfl, by rw [hbits]; rfl, fun _ => by rw [hbits]; rfl⟩
    | float h hsmall =>
      have hint : (Int64.ofInt n).toInt = n := Int64.toInt_ofInt_of_le (by omega) (by omega)
      refine ⟨.int (Int64.ofInt n), ?_, ?_, fun hn => ?_⟩
      · rw [longInput, integer_of_spells (.float h hsmall), if_pos (by omega)]
        rfl
      · rw [LongInput.signedBits, LongInput.toUInt64_eq_ofInt, hint]
      · rw [LongInput.unsignedBits, if_neg (by omega), LongInput.toUInt64_eq_ofInt, hint]
  | decimal =>
    obtain ⟨negative, hdecimal, hzero⟩ := isDecimal_toString n
    refine ⟨.text (toString n), rfl, ?_, fun hn => ?_⟩
    · rw [LongInput.signedBits_of_isDecimal hdecimal, if_pos (by omega)]
    · rw [LongInput.unsignedBits_of_isDecimal hdecimal, if_pos ⟨hn, by omega, hzero⟩]
  | @hexadecimal digits h =>
    have hwrites : Text.Writes 16 digits (n % 2 ^ 64).toNat := by
      rw [← Text.writes_map_toLower, h]
      have hall := writes_hexDigits 16 (n % 2 ^ 64).toNat
      rwa [Nat.mod_eq_of_lt (by omega)] at hall
    have hcount : digits.length = 16 := by
      rw [← List.length_map (f := Char.toLower), h, length_hexDigits]
    obtain ⟨bits, hbits, hread⟩ : ∃ bits : UInt64, bits.toNat = (n % 2 ^ 64).toNat ∧
        LongInput.hexBits ("0x" ++ String.ofList digits) digits = .ok bits :=
      LongInput.hexBits_eq_ok hwrites (by omega) (by omega)
    have hsame : bits = UInt64.ofInt n := by
      rw [← UInt64.toNat_inj, hbits, UInt64.ofInt, UInt64.toNat_ofNat']
      omega
    subst hsame
    exact ⟨_, rfl, by rw [LongInput.signedBits, LongInput.textBits_hexadecimal, hread],
      fun _ => by rw [LongInput.unsignedBits, LongInput.textBits_hexadecimal, hread]⟩

end Value

namespace Registry

variable {r : Registry} {v w : Value} {shape : Shape} {before after : Fields Value} {key : String}

/-- A type makes the same of all spellings, be it octets or an error. -/
theorem encoded_of_spellsSame {type : Primitive} (h : type.SpellsSame v w) (param : String) :
    (do (← v.entry param type).encoded) = (do (← w.entry param type).encoded) := by
  cases type with
  | int | uint | short | ushort =>
    obtain ⟨n, hv, hw⟩ := h
    simp only [Value.entry, Value.integer_of_spells hv, Value.integer_of_spells hw]
  | long =>
    obtain ⟨n, ⟨hlow, hhigh⟩, hv, hw⟩ := h
    obtain ⟨first, hfirst, hbits, _⟩ := Value.bits_of_spells hv hlow hhigh param
    obtain ⟨second, hsecond, hbits', _⟩ := Value.bits_of_spells hw hlow hhigh param
    rw [Value.entry, Value.entry, hfirst, hsecond]
    show Entry.encoded (.long first) = Entry.encoded (.long second)
    rw [Entry.encoded, Entry.encoded, Entry.encode, Entry.encode, hbits, hbits']
  | ulong =>
    obtain ⟨n, ⟨hlow, hhigh⟩, hv, hw⟩ := h
    obtain ⟨first, hfirst, _, hbits⟩ := Value.bits_of_spells hv (by omega) hhigh param
    obtain ⟨second, hsecond, _, hbits'⟩ := Value.bits_of_spells hw (by omega) hhigh param
    rw [Value.entry, Value.entry, hfirst, hsecond]
    show Entry.encoded (.ulong first) = Entry.encoded (.ulong second)
    rw [Entry.encoded, Entry.encoded, Entry.encode, Entry.encode, hbits hlow, hbits' hlow]
  | bytes =>
    obtain ⟨octets, hv, hw⟩ := h
    simp only [Value.entry, Value.octets_of_spells hv, Value.octets_of_spells hw]
  | float | double | bool | string =>
    cases h
    rfl

theorem sameParams_replaced {c : Container} (hnull : v.isNull = w.isNull)
    (h : ∀ p ∈ c.params, p.name = key → ∀ shape, p.shape? = some shape → ∀ levels containerName param,
      encodeShape (r.nestedEncoder levels) containerName param (some v) shape =
        encodeShape (r.nestedEncoder levels) containerName param (some w) shape) :
    r.SameParams c (.object (before ++ (key, v) :: after)) (.object (before ++ (key, w) :: after)) := by
  intro p hp levels
  by_cases hkey : p.name = key
  · subst hkey
    -- another entry of the same key may hide this one
    rcases Value.get?_middle before after p.name with ⟨u, hu⟩ | hthis
    · exact encodeParam_of_get? ((hu v).trans (hu w).symm)
    · exact encodeParam_of_shape (hthis v) (hthis w) hnull fun shape hshape => h p hp rfl shape hshape levels c.name _
  · exact encodeParam_of_get? ((Value.get?_of_ne hkey).trans (Value.get?_of_ne hkey).symm)

/-- By induction on where the scalar stands. -/
theorem encodeShape_of_respells (h : v.Respells r shape w) (levels : Nat) (containerName param : String) :
    encodeShape (r.nestedEncoder levels) containerName param (some v) shape =
      encodeShape (r.nestedEncoder levels) containerName param (some w) shape := by
  induction h generalizing levels containerName param with
  | scalar h => exact encoded_of_spellsSame h param
  | sized h =>
    obtain ⟨octets, hv, hw⟩ := h
    simp only [encodeShape, Value.strictEntry, Value.octets_of_spells hv, Value.octets_of_spells hw]
  | item _ ih =>
    exact encodeItems_congr containerName (forall₂_replaced (fun u =>
      encodeShape (r.nestedEncoder levels) containerName param (some u) _) (ih levels containerName param) _ _)
  | field hname hnull _ ih =>
    -- both objects name the same container, since the key in question is not the one for names
    refine nestedEncoder_eq (named_object_eq (Value.name?_of_get? ?_)) (fun c hc => ?_) levels param
    · exact (Value.get?_of_ne hname.symm).trans (Value.get?_of_ne hname.symm).symm
    · exact sameParams_replaced hnull fun p hp hkey shape hshape => ih c hc p hp hkey shape hshape

/-- Another spelling of a scalar makes no difference to what a value is encoded as, or to the error if it is not: as
what it names itself, and as the container of any given name, even under the key for names. -/
theorem encode_eq_of_respells :
    (∀ reference v w, v.Respells r (.reference reference) w → r.encode v = r.encode w) ∧
    ∀ name before after key v w, v.isNull = w.isNull →
      (∀ c, r.container? name = some c → ∀ p ∈ c.params, p.name = key → ∀ shape, p.shape? = some shape →
        v.Respells r shape w) →
      r.encodeNamed name (.object (before ++ (key, v) :: after)) =
        r.encodeNamed name (.object (before ++ (key, w) :: after)) := by
  constructor
  · intro reference v w h
    exact encodeShape_of_respells h (r.config.maxDepth + 1) "" "root"
  · intro name before after key v w hnull h
    rw [encodeNamed, encodeNamed]
    cases hc : r.container? name with
    | none => rfl
    | some c =>
      refine (sameParams_replaced hnull fun p hp hkey shape hshape => ?_).encodeContainer_eq _
      exact encodeShape_of_respells (h c hc p hp hkey shape hshape)

/-- Where no other param of a container has its name, only the layout of this one matters. -/
theorem respells_of_distinct {c : Container} {p : Param} (hdistinct : (c.params.map Param.name).Nodup)
    (hp : p ∈ c.params) (hshape : p.shape? = some shape) (h : v.Respells r shape w) :
    ∀ q ∈ c.params, q.name = p.name → ∀ other, q.shape? = some other → v.Respells r other w := by
  intro q hq hname other hother
  obtain rfl : q = p := List.inj_on_of_nodup_map hdistinct hq hp hname
  obtain rfl : other = shape := Option.some.inj (hother.symm.trans hshape)
  exact h

/-- A container of two octets, of any number of pieces of octets, of a number of 64 bits, and of another one, which may
be absent. -/
def parcel : Container :=
  ⟨1, "parcel", "Parcel", [],
    [.ofShape "hash" (.strict .bytes 2), .ofShape "parts" (.vector (.primitive .bytes)),
      .ofShape "weight" (.primitive .long), (Param.ofShape "inner" (.reference "Parcel")).setOptional true], []⟩

/-- The registry of parcels. -/
def parcels : Registry := .ofNodup [parcel] ⟨true, 1⟩ (by decide) (by decide)

/-- A parcel with nothing in it. -/
def parcelWith (parts : List Value) (weight : Value) : Value :=
  .object ([("_name", .string "parcel"), ("hash", .bytes [1, 2])] ++ ("parts", .array parts) :: [("weight", weight)])

/-- A parcel in another one. -/
def wrapped (inner : Value) : Value :=
  .object ([("_name", .string "parcel"), ("hash", .string "ab"), ("parts", .array []), ("weight", .int 1)] ++
    ("inner", inner) :: [])

/-- The second of two pieces inside is given by its digits, or one by one. A weight is given as text, or as a
floating-point number. -/
theorem encode_eq_of_respells_parcel :
    parcels.encode (wrapped (parcelWith [.string "é", .string "0xFe01"] (.int 2))) =
      parcels.encode (wrapped (parcelWith [.string "é", .array [.int 254, .uint 1]] (.int 2))) ∧
    parcels.encodeNamed "parcel" (parcelWith [] (.string "-3")) =
      parcels.encodeNamed "parcel" (parcelWith [] (.float (.ofInt (-3)))) ∧
    parcels.encodeNamed "parcel" (parcelWith [] (.string "-3")) =
      .ok [1, 0, 0, 0, 1, 2, 0, 0, 0, 0, 0xFD, 0xFF, 0xFF, 0xFF, 0xFF, 0xFF, 0xFF, 0xFF, 0] := by
  have hdistinct : (parcel.params.map Param.name).Nodup := by decide
  have hpiece : Primitive.bytes.SpellsSame (.string "0xFe01") (.array [.int 254, .uint 1]) :=
    ⟨[254, 1], @Value.SpellsOctets.hexadecimal _ ['F', 'e', '0', '1'] rfl,
      .array (.cons (.int rfl) (.cons (.uint rfl) .nil))⟩
  have hinner : (parcelWith [.string "é", .string "0xFe01"] (.int 2)).Respells parcels (.reference "Parcel")
      (parcelWith [.string "é", .array [.int 254, .uint 1]] (.int 2)) := by
    refine .field (by decide) rfl fun c hc => ?_
    cases hc
    exact respells_of_distinct (p := .ofShape "parts" (.vector (.primitive .bytes))) hdistinct (by simp [parcel]) rfl
      (@Value.Respells.item _ (.primitive .bytes) [.string "é"] [] _ _ (.scalar hpiece))
  have hwrapped : (wrapped (parcelWith [.string "é", .string "0xFe01"] (.int 2))).Respells parcels (.reference "Parcel")
      (wrapped (parcelWith [.string "é", .array [.int 254, .uint 1]] (.int 2))) := by
    refine .field (by decide) rfl fun c hc => ?_
    cases hc
    exact respells_of_distinct (p := (Param.ofShape "inner" (.reference "Parcel")).setOptional true) hdistinct
      (by simp [parcel]) rfl hinner
  have hweight : Primitive.long.SpellsSame (.string "-3") (.float (.ofInt (-3))) :=
    ⟨-3, by decide, .decimal, .integer (.float (Double.isInteger_ofInt (by decide)) (by decide))⟩
  refine ⟨encode_eq_of_respells.1 _ _ _ hwrapped, ?_, rfl⟩
  refine encode_eq_of_respells.2 "parcel" [("_name", .string "parcel"), ("hash", .bytes [1, 2]), ("parts", .array [])]
    [] "weight" (.string "-3") (.float (.ofInt (-3))) rfl fun c hc => ?_
  cases hc
  exact respells_of_distinct (p := .ofShape "weight" (.primitive .long)) hdistinct (by simp [parcel]) rfl
    (.scalar hweight)

/-- A container of octets under the key for names. -/
def stamp : Container := ⟨1, "stamp", "Stamp", [], [.ofShape "_name" (.primitive .bytes)], []⟩

/-- A container of octets and of a text under one key. -/
def pair : Container :=
  ⟨2, "pair", "Pair", [], [.ofShape "x" (.primitive .bytes), .ofShape "x" (.primitive .string)], []⟩

/-- The registry of stamps and pairs. -/
def stamps : Registry := .ofNodup [stamp, pair] ⟨true, 1⟩ (by decide) (by decide)

/-- Octets are no name of a container, and no text, where the same key is asked for one. -/
theorem encode_of_octets_for_text :
    Primitive.bytes.SpellsSame (.string "stamp") (.bytes (Utf8.ofString "stamp")) ∧
    stamps.encode (.object [("_name", .string "stamp")]) = .ok [1, 0, 0, 0, 5, 0, 0, 0, 115, 116, 97, 109, 112, 0] ∧
    stamps.encode (.object [("_name", .bytes (Utf8.ofString "stamp"))]) =
      .error (.missingProperty "value of \"root\"" "_name") ∧
    Primitive.bytes.SpellsSame (.string "é") (.bytes (Utf8.ofString "é")) ∧
    stamps.encode (.object [("_name", .string "pair"), ("x", .string "é")]) =
      .ok [2, 0, 0, 0, 2, 0, 0, 0, 195, 169, 0, 0, 2, 0, 0, 0, 195, 169, 0, 0] ∧
    stamps.encode (.object [("_name", .string "pair"), ("x", .bytes (Utf8.ofString "é"))]) =
      .error (.typeMismatch "x" .string .bytes) := by
  refine ⟨⟨_, .text (by decide), .bytes⟩, rfl, rfl, ⟨_, .text (by decide), .bytes⟩, rfl, rfl⟩

end Registry

end SchemaWire
