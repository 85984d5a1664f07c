import SchemaWire.Proofs.Congruence
import SchemaWire.Proofs.Tags

/-!
# Decoded values kept as JSON

What is decoded, written as JSON and read back is encoded as it would have been at once (`encode_reloaded`), as long as
all its floating-point numbers are finite. The value itself may be another one, since octets come back as arrays of
numbers. These stand for octets too where octets are meant, and no other value that is decoded changes.
-/

namespace SchemaWire

namespace Value

/-- What is read back from the JSON form of a value. -/
def reloaded (v : Value) : Value :=
  ofJson v.toJson

/-- Whether all floating-point numbers in a value are finite. -/
def IsFinite (v : Value) : Prop :=
  ∀ x, (float x).Within v → x.isFinite = true

variable {v : Value} {items : List Value} {fields : Fields Value} {param : String}

theorem IsFinite.of_mem_items (h : (array items).IsFinite) (hv : v ∈ items) : v.IsFinite :=
  fun x hx => h x (.item hv hx)

theorem IsFinite.of_get? {w : Value} {key : String} (h : v.IsFinite) (hw : v.get? key = some w) : w.IsFinite := by
  cases v with
  | object fields =>
    have hlookup : fields.lookup key = some w := hw
    obtain ⟨before, after, rfl, _⟩ := List.lookup_eq_some_iff.mp hlookup
    intro x hx
    exact h x (.field (List.mem_append_right before List.mem_cons_self) hx)
  | _ => cases hw

/-! ## Values that are read back -/

@[simp] theorem reloaded_int (n : Int64) : (int n).reloaded = .int n := by
  have hlow : -0x8000_0000_0000_0000 ≤ n.toInt := n.le_toInt
  have hhigh : n.toInt < 0x8000_0000_0000_0000 := n.toInt_lt
  rw [reloaded, toJson, ofJson, ofNumber, if_pos ⟨hlow, hhigh⟩, Int64.ofInt_toInt]

theorem reloaded_float {x : Double} (h : x.isFinite = true) : (float x).reloaded = .float x := by
  rw [reloaded, toJson, Json.ofDouble, if_pos h]
  rfl

theorem itemsToJson_eq (items : List Value) : itemsToJson items = items.map toJson := by
  induction items with
  | nil => rfl
  | cons item rest ih => rw [itemsToJson, ih, List.map_cons]

theorem itemsOfJson_eq (items : List Json) : itemsOfJson items = items.map ofJson := by
  induction items with
  | nil => rfl
  | cons item rest ih => rw [itemsOfJson, ih, List.map_cons]

theorem fieldsToJson_eq (fields : Fields Value) :
    fieldsToJson fields = fields.map fun field => (field.1, field.2.toJson) := by
  induction fields with
  | nil => rfl
  | cons field rest ih => rw [fieldsToJson, ih, List.map_cons]

theorem fieldsOfJson_eq (fields : Fields Json) :
    fieldsOfJson fields = fields.map fun field => (field.1, ofJson field.2) := by
  induction fields with
  | nil => rfl
  | cons field rest ih => rw [fieldsOfJson, ih, List.map_cons]

@[simp] theorem reloaded_array (items : List Value) : (array items).reloaded = .array (items.map reloaded) := by
  rw [reloaded, toJson, ofJson, itemsToJson_eq, itemsOfJson_eq, List.map_map]
  rfl

@[simp] theorem reloaded_object (fields : Fields Value) :
    (object fields).reloaded = .object (fields.map fun field => (field.1, field.2.reloaded)) := by
  rw [reloaded, toJson, ofJson, fieldsToJson_eq, fieldsOfJson_eq, List.map_map]
  rfl

/-- Octets come back as an array of the numbers that they are. -/
theorem reloaded_bytes (octets : Bytes) :
    (bytes octets).reloaded = .array (octets.map fun b => .int (Int64.ofNat b.toNat)) := by
  rw [reloaded, toJson, ofJson, itemsOfJson_eq, List.map_map]
  refine congrArg array (List.map_congr_left fun b _ => ?_)
  have hlt : b.toNat < 256 := b.toNat_lt
  rw [Function.comp_apply, Json.ofNat, ofJson, ofNumber, if_pos (by omega), Int64.ofInt_eq_ofNat]

/-! ## What is seen of a value -/

theorem get?_reloaded (fields : Fields Value) (key : String) :
    (object fields).reloaded.get? key = ((object fields).get? key).map reloaded := by
  rw [reloaded_object]
  simp only [get?, Fields.get?]
  induction fields with
  | nil => rfl
  | cons field rest ih =>
    rw [List.map_cons, List.lookup_cons, List.lookup_cons, ih]
    cases key == field.1 <;> rfl

theorem ownName?_reloaded {name : String} (h : (object fields).ownName? = some name) :
    (object fields).reloaded.ownName? = some name := by
  obtain ⟨w, hw, htext⟩ := Option.bind_eq_some_iff.mp h
  have hback := get?_reloaded fields "_name"
  rw [hw] at hback
  rw [reloaded_object] at hback ⊢
  cases w with
  | string text => exact Option.bind_eq_some_iff.mpr ⟨_, hback, htext⟩
  | _ => cases htext

theorem isNull_ofNumber (n : Json.Number) : (ofNumber n).isNull = false := by
  unfold ofNumber
  split
  · split_ifs <;> rfl
  · rfl

theorem isNull_reloaded (h : v.IsFinite) : v.reloaded.isNull = v.isNull := by
  cases v with
  | int n => rw [reloaded_int]
  | uint n =>
    rw [reloaded, toJson, ofJson, isNull_ofNumber]
    rfl
  | float x => rw [reloaded_float (h x .self)]
  | bytes octets => rw [reloaded_bytes]; rfl
  | array items => rw [reloaded_array]; rfl
  | object fields => rw [reloaded_object]; rfl
  | _ => rfl

theorem present?_reloaded (h : (object fields).IsFinite) (key : String) :
    (object fields).reloaded.present? key = ((object fields).present? key).map reloaded := by
  rw [present?, present?, get?_reloaded]
  cases hw : (object fields).get? key with
  | none => rfl
  | some w =>
    have hnull : w.reloaded.isNull = w.isNull := isNull_reloaded (h.of_get? hw)
    simp only [Option.map_some, Option.filter_some, hnull]
    split <;> rfl

theorem octet?_int (b : UInt8) : (int (Int64.ofNat b.toNat)).octet? = some b := by
  have hlt : b.toNat < 256 := b.toNat_lt
  have hint : (Int64.ofNat b.toNat).toInt = b.toNat := by
    rw [← Int64.ofInt_eq_ofNat, Int64.toInt_ofInt_of_le (by omega) (by omega)]
  rw [octet?, signed?, Option.bind_some, hint, if_pos (by omega), Int.toNat_natCast, UInt8.ofNat_toNat]

/-- Where octets are meant, numbers stand for them. -/
theorem octets_reloaded (given : Bytes) : (bytes given).reloaded.octets param = (bytes given).octets param := by
  have hitems : (given.map fun b => int (Int64.ofNat b.toNat)).mapM octet? = some given := by
    rw [Json.mapM_map_eq_some fun b _ => octet?_int b, List.map_id']
  simp only [reloaded_bytes, octets, hitems]

end Value

section Segments

variable {s : Segment} {type : Primitive} {size : UInt32} {param : String}

/-- What is read from a segment does not change, unless it is octets. -/
theorem Segment.reloaded_value (h : s.value.IsFinite) :
    s.value.reloaded = s.value ∨ ∃ octets, s.value = .bytes octets := by
  cases s with
  | number type octets =>
    left
    cases type with
    | float => exact Value.reloaded_float (h _ .self)
    | double => exact Value.reloaded_float (h _ .self)
    | int => exact Value.reloaded_int _
    | uint => exact Value.reloaded_int _
    | short => exact Value.reloaded_int _
    | ushort => exact Value.reloaded_int _
    | _ => rfl
  | bool b => exact .inl rfl
  | bytes payload padding => exact .inr ⟨payload, rfl⟩
  | string declared text padding => exact .inl rfl
  | raw octets => exact .inr ⟨octets, rfl⟩

theorem entry_reloaded (h : s.Fits (.primitive type)) (hfinite : s.value.IsFinite) :
    s.value.reloaded.entry param type = s.value.entry param type := by
  rcases s.reloaded_value hfinite with hsame | ⟨octets, hvalue⟩
  · rw [hsame]
  · cases h with
    | @number type _ hwidth => cases type <;> cases hvalue
    | bool => cases hvalue
    | bytes => simp only [Value.entry, Segment.value, Value.octets_reloaded]
    | string => cases hvalue

theorem strictEntry_reloaded (h : s.Fits (.strict type size)) (hfinite : s.value.IsFinite) :
    s.value.reloaded.strictEntry param type size = s.value.strictEntry param type size := by
  rcases s.reloaded_value hfinite with hsame | ⟨octets, hvalue⟩
  · rw [hsame]
  · cases h with
    | sized => cases hvalue
    | raw => simp only [Value.strictEntry, Segment.value, Value.octets_reloaded]

end Segments

/-! ## What is written for a message -/

/-- Whether an encoder of nested values writes those of the messages in question alike after they were stored. -/
def NestedEncoder.Reloads (nested : NestedEncoder) (messages : Message → Prop) : Prop :=
  ∀ m, messages m → m.value.IsFinite → ∀ param, nested param m.value.reloaded = nested param m.value

namespace Registry

variable {r : Registry} {messages : Message → Prop} {nested : NestedEncoder} {containerName param : String}
  {shape : Shape} {m : Message}

/-- By induction on the message. A vector is written item by item, each as a value of its layout. -/
theorem encodeShape_reloaded (hnested : nested.Reloads messages) (h : m.Fits r messages shape)
    (hfinite : m.value.IsFinite) :
    encodeShape nested containerName param (some m.value.reloaded) shape =
      encodeShape nested containerName param (some m.value) shape := by
  induction h with
  | @segment shape s h =>
    cases shape with
    | primitive type => simp only [encodeShape, Message.value_segment, entry_reloaded h hfinite]
    | strict type size => simp only [encodeShape, Message.value_segment, strictEntry_reloaded h hfinite]
    | vector item => cases h
    | reference target => cases h
  | @sequence item items _ _ ih =>
    rw [Message.value_sequence] at hfinite ⊢
    rw [Value.reloaded_array, List.map_map]
    refine encodeItems_congr containerName ?_
    rw [List.forall₂_map_left_iff, List.forall₂_map_right_iff, List.forall₂_same]
    intro m hm
    exact ih m hm (hfinite.of_mem_items (List.mem_map_of_mem hm))
  | record _ hm => exact hnested _ hm hfinite param

theorem encodeParam_reloaded {fields : Fields Value} {slot : Slot} (hnested : nested.Reloads messages)
    (hslot : slot.Fits r messages) (hfinite : (Value.object fields).IsFinite)
    (hfield : (Value.object fields).present? slot.param.name = slot.value?) :
    encodeParam nested containerName (Value.object fields).reloaded slot.param =
      encodeParam nested containerName (.object fields) slot.param := by
  have hback := Value.present?_reloaded hfinite slot.param.name
  rw [hfield] at hback
  simp only [Value.present?] at hfield hback
  simp only [encodeParam, hfield, hback]
  cases slot with
  | absent p => rfl
  | present p m =>
    obtain ⟨shape, hshape, hm⟩ := hslot
    have hvalue : m.value.IsFinite := hfinite.of_get? (Option.filter_eq_some_iff.mp hfield).1
    simp only [Slot.param, Slot.value?, Option.map_some, encodePresent, hshape,
      encodeShape_reloaded hnested hm hvalue]

theorem named_reloaded {c : Container} {fields : Fields Value} (h : r.containerOf? (.object fields) = some c) :
    r.named param (Value.object fields).reloaded = .ok c := by
  obtain ⟨name, hname, hc⟩ := Option.bind_eq_some_iff.mp h
  exact named_eq_ok_iff.mpr (Option.bind_eq_some_iff.mpr ⟨name, Value.ownName?_reloaded hname, hc⟩)

/-- By induction on the levels of the message. Those that are left for encoding may be more or fewer. -/
theorem encodeContainer_reloaded (hkeys : r.KeysDistinct) {held : Nat} {c : Container} {slots : List Slot}
    (h : r.Holds held (.record c slots)) (hfinite : (Message.record c slots).value.IsFinite) (levels : Nat) :
    r.encodeContainer levels c (Message.record c slots).value.reloaded =
      r.encodeContainer levels c (Message.record c slots).value := by
  induction held generalizing levels c slots with
  | zero => exact h.elim
  | succ held ih =>
    obtain ⟨_, _, ⟨⟩, hc, hparams, hfits⟩ := h
    cases levels with
    | zero => rfl
    | succ levels =>
      have hnested : (r.nestedEncoder levels).Reloads (r.Holds held) := by
        intro m hm hfinite param
        obtain ⟨d, slots, rfl, hd, hparams⟩ := hm.exists_record
        have hnamed := containerOf?_record (hparams ▸ hkeys d hd) hd
        have hsame := ih hm hfinite levels
        rw [Message.value_record] at hnamed hsame ⊢
        rw [nestedEncoder, nestedEncoder, named_reloaded hnamed, named_eq_ok_iff.mpr hnamed]
        exact hsame
      refine encodeContainer_congr fun p hp => ?_
      rw [← hparams] at hp
      obtain ⟨slot, hslot, rfl⟩ := List.mem_map.mp hp
      have hfield := present?_record (hparams ▸ hkeys c hc) hslot (hfits slot hslot)
      rw [Message.value_record] at hfield hfinite ⊢
      exact encodeParam_reloaded hnested (hfits slot hslot) hfinite hfield

/-- A decoded value whose floating-point numbers are finite is encoded as before after it was kept as JSON. -/
theorem encode_reloaded (hkeys : r.KeysDistinct) {octets : Bytes} {v : Value} (h : r.decode octets = .ok v)
    (hfinite : v.IsFinite) : r.encode v.reloaded = r.encode v := by
  obtain ⟨last, hrun⟩ := decode_eq_ok_iff.mp h
  obtain ⟨m, hm, _, rfl⟩ := (decodeFrom_reads _ _ _).mp hrun
  obtain ⟨c, slots, rfl, hc, hparams⟩ := hm.exists_record
  have hnamed := containerOf?_record (hparams ▸ hkeys c hc) hc
  have hsame := encodeContainer_reloaded hkeys hm hfinite (r.config.maxDepth + 1)
  rw [Message.value_record] at hnamed hsame ⊢
  rw [encode, encode, named_reloaded hnamed, named_eq_ok_iff.mpr hnamed]
  exact hsame

/-- A container of a number and of pieces of octets. -/
def reading : Container :=
  ⟨8, "reading", "Reading", [],
    [.ofShape "level" (.primitive .float), .ofShape "pieces" (.vector (.primitive .bytes))], []⟩

/-- The registry of readings. -/
def readings : Registry := .ofNodup [reading] ⟨true, 0⟩ (by decide) (by decide)

/-- A reading of one and a half, with one piece. -/
def readingValue : Value :=
  .object [("_name", .string "reading"), ("_type", .string "Reading"), ("_traits", .array []),
    ("level", .float ⟨0x3FF8_0000_0000_0000⟩), ("pieces", .array [.bytes [7, 9]])]

theorem isFinite_readingValue : readingValue.IsFinite := by
  intro x hx
  cases hx with
  | field hw h =>
    simp only [List.mem_cons, List.not_mem_nil, or_false, Prod.mk.injEq] at hw
    rcases hw with ⟨-, rfl⟩ | ⟨-, rfl⟩ | ⟨-, rfl⟩ | ⟨-, rfl⟩ | ⟨-, rfl⟩
    · cases h
    · cases h
    · cases h with
      | item hw h => cases hw
    · cases h with
      | self => decide
    · cases h with
      | item hw h =>
        cases List.mem_singleton.mp hw
        cases h

/-- The piece comes back as an array of two numbers, and is written as it was. -/
theorem encode_reloaded_reading :
    readings.decode [8, 0, 0, 0, 0, 0, 192, 63, 1, 0, 0, 0, 2, 0, 0, 0, 7, 9, 0, 0] = .ok readingValue ∧
      readingValue.reloaded.get? "pieces" = some (.array [.array [.int 7, .int 9]]) ∧
      readings.encode readingValue.reloaded =
        .ok [8, 0, 0, 0, 0, 0, 192, 63, 1, 0, 0, 0, 2, 0, 0, 0, 7, 9, 0, 0] := by
  have hkeys : readings.KeysDistinct := by
    simp only [KeysDistinct, readings, containers_ofNodup, List.mem_singleton, forall_eq]
    decide
  have hdecode : readings.decode [8, 0, 0, 0, 0, 0, 192, 63, 1, 0, 0, 0, 2, 0, 0, 0, 7, 9, 0, 0] = .ok readingValue :=
    rfl
  refine ⟨hdecode, ?_, ?_⟩
  · rw [readingValue, Value.get?_reloaded]
    simp [Value.get?, Fields.get?, List.lookup_cons, Value.reloaded_bytes]
  · rw [encode_reloaded hkeys hdecode isFinite_readingValue]
    rfl

end Registry

end SchemaWire
