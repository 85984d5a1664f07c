import SchemaWire.Proofs.Rounding
import SchemaWire.Proofs.RoundTrip

/-!
# Encoding what was decoded

What decoding gives is accepted by encoding, and written as it was read but for padding, which is zeros now
(`encode_decodeFrom`). Two things are lost on the way and left out: floating-point numbers that are no
numbers, and texts that do not have their declared length, which are read but not written.
-/

namespace SchemaWire

/-! ## Values of segments -/

section Segments

variable {s : Segment} {type : Primitive} {size : UInt32} {param : String} {octets payload padding : Bytes}

/-- Integers of up to 32 bits are the same as ones of 64 bits. -/
theorem entry_int {n : Int} (hlow : -0x1_0000_0000 ≤ n) (hhigh : n < 0x1_0000_0000) :
    Value.integer param type (.int (Int64.ofInt n)) = .ok n := by
  rw [Value.integer, Int64.toInt_ofInt_of_le (by omega) (by omega)]

theorem encode_bounded {width : Nat} {low high n : Int} (hlow : low ≤ n) (hhigh : n ≤ high)
    (h : Word.ofInt width n = octets) : Entry.bounded type width low high n = .ok octets :=
  Entry.bounded_eq_ok_iff.mpr ⟨⟨hlow, hhigh⟩, h.symm⟩

theorem textBits_longText (h : octets.length = 8) (maybeNegative : Bool) :
    LongInput.textBits (longText octets) maybeNegative = .ok (UInt64.ofNat (Word.ofBytes octets)) := by
  have htext : (longText octets).toList = '0' :: 'x' :: Hex.encode octets.reverse := by
    simp [longText]
  simp only [LongInput.textBits, htext, LongInput.hexBits, Hex.decode?_encode, List.reverse_reverse]
  rw [if_neg (by simp [h])]

theorem toBytes_ofNat_ofBytes (h : octets.length = 8) :
    Word.toBytes 8 (UInt64.ofNat (Word.ofBytes octets)).toNat = octets := by
  have hlt := Word.ofBytes_lt octets
  have hback := Word.toBytes_ofBytes octets
  rw [h] at hlt hback
  rw [UInt64.toNat_ofNat_of_lt' hlt, hback]

theorem framed_of_isFrame (h : IsFrame payload padding) :
    Entry.framed payload = .ok (framed payload (List.replicate padding.length 0)) := by
  rw [Entry.framed, if_pos h.1, h.2, framed]

theorem entry_of_number (h : type.width? = some octets.length) (hnan : (Segment.number type octets).isNaN = false) :
    ∃ e, (type.numberValue octets).entry param type = .ok e ∧ e.encode = .ok octets := by
  have hpow4 : Nat.pow 256 4 = 0x1_0000_0000 := rfl
  have hpow2 : Nat.pow 256 2 = 0x1_0000 := rfl
  have hsigned := Word.signed_bounds octets
  have hunsigned := Word.ofBytes_lt octets
  have hback := Word.toBytes_ofBytes octets
  cases type with
  | int =>
    have hlen : octets.length = 4 := (Option.some.inj h).symm
    rw [hlen] at hsigned
    refine ⟨.int (Word.signed octets), ?_, encode_bounded (by omega) (by omega) (hlen ▸ Word.ofInt_signed octets)⟩
    rw [Primitive.numberValue, Value.entry, entry_int (by omega) (by omega)]
    rfl
  | uint =>
    have hlen : octets.length = 4 := (Option.some.inj h).symm
    rw [hlen] at hunsigned
    refine ⟨.uint (Word.ofBytes octets), ?_, encode_bounded (by omega) (by omega) (hlen ▸ Word.ofInt_ofBytes octets)⟩
    rw [Primitive.numberValue, Value.entry, ← Int64.ofInt_eq_ofNat, entry_int (by omega) (by omega)]
    rfl
  | short =>
    have hlen : octets.length = 2 := (Option.some.inj h).symm
    rw [hlen] at hsigned
    refine ⟨.short (Word.signed octets), ?_, encode_bounded (by omega) (by omega) (hlen ▸ Word.ofInt_signed octets)⟩
    rw [Primitive.numberValue, Value.entry, entry_int (by omega) (by omega)]
    rfl
  | ushort =>
    have hlen : octets.length = 2 := (Option.some.inj h).symm
    rw [hlen] at hunsigned
    refine ⟨.ushort (Word.ofBytes octets), ?_,
      encode_bounded (by omega) (by omega) (hlen ▸ Word.ofInt_ofBytes octets)⟩
    rw [Primitive.numberValue, Value.entry, ← Int64.ofInt_eq_ofNat, entry_int (by omega) (by omega)]
    rfl
  | float =>
    have hlen : octets.length = 4 := (Option.some.inj h).symm
    rw [hlen] at hunsigned hback
    refine ⟨.float (Single.ofOctets octets), ?_, ?_⟩
    · have hround := toSingle_toDouble hnan
      simp only [Primitive.numberValue, Value.entry, Value.number, Except.map, hround]
    · rw [Entry.encode, Single.ofOctets, UInt32.toNat_ofNat_of_lt' hunsigned, hback]
  | double =>
    have hlen : octets.length = 8 := (Option.some.inj h).symm
    rw [hlen] at hunsigned hback
    refine ⟨.double (Double.ofOctets octets), rfl, ?_⟩
    rw [Entry.encode, Double.ofOctets, UInt64.toNat_ofNat_of_lt' hunsigned, hback]
  | long =>
    have hlen : octets.length = 8 := (Option.some.inj h).symm
    refine ⟨.long (.text (longText octets)), rfl, ?_⟩
    rw [Entry.encode, LongInput.signedBits, textBits_longText hlen, Except.map, toBytes_ofNat_ofBytes hlen]
  | ulong =>
    have hlen : octets.length = 8 := (Option.some.inj h).symm
    refine ⟨.ulong (.text (longText octets)), rfl, ?_⟩
    rw [Entry.encode, LongInput.unsignedBits, textBits_longText hlen, Except.map, toBytes_ofNat_ofBytes hlen]
  | bool => cases h
  | string => cases h
  | bytes => cases h

/-- What is read from a segment of a primitive layout is written as the segment with zeros for padding. -/
theorem entry_of_segment (h : s.Fits (.primitive type)) (hnan : s.isNaN = false) :
    ∃ e, s.value.entry param type = .ok e ∧ e.encode = .ok s.cleared.octets := by
  cases h with
  | number hwidth => exact entry_of_number hwidth hnan
  | bool => exact ⟨.bool _, rfl, rfl⟩
  | bytes hframe => exact ⟨.bytes _, rfl, framed_of_isFrame hframe⟩
  | string hframe => exact ⟨.string _, rfl, framed_of_isFrame hframe⟩

theorem strictEntry_of_segment (h : s.Fits (.strict type size)) (hsize : type.allowsSize = true)
    (hlength : s.HasDeclaredLength) :
    ∃ e, s.value.strictEntry param type size = .ok e ∧ e.encode = .ok s.cleared.octets := by
  cases h with
  | @sized _ _ text _ htype hframe =>
    cases type with
    | string =>
      have hlength : text.length = size.toNat := hlength
      refine ⟨.string text, ?_, framed_of_isFrame hframe⟩
      rw [Segment.value, Value.strictEntry, if_pos hlength]
    | bytes => contradiction
    | _ => cases hsize
  | @raw _ octets hlen =>
    refine ⟨.raw octets, ?_, rfl⟩
    simp [Segment.value, Value.strictEntry, Value.octets, hlen, bind, Except.bind]

end Segments

/-! ## Messages with zeros for padding -/

mutual

/-- The message with zeros for padding. -/
def Message.cleared : Message → Message
  | .segment s => .segment s.cleared
  | .sequence items => .sequence (clearedItems items)
  | .record c slots => .record c (clearedSlots slots)
termination_by structural m => m

/-- The items with zeros for padding. -/
def clearedItems : List Message → List Message
  | [] => []
  | m :: rest => m.cleared :: clearedItems rest
termination_by structural items => items

/-- The slot with zeros for padding. -/
def Slot.cleared : Slot → Slot
  | .absent p => .absent p
  | .present p m => .present p m.cleared
termination_by structural slot => slot

/-- The slots with zeros for padding. -/
def clearedSlots : List Slot → List Slot
  | [] => []
  | slot :: rest => slot.cleared :: clearedSlots rest
termination_by structural slots => slots

end

theorem clearedItems_eq (items : List Message) : clearedItems items = items.map Message.cleared := by
  induction items with
  | nil => rfl
  | cons m rest ih => rw [clearedItems, ih, List.map_cons]

theorem clearedSlots_eq (slots : List Slot) : clearedSlots slots = slots.map Slot.cleared := by
  induction slots with
  | nil => rfl
  | cons slot rest ih => rw [clearedSlots, ih, List.map_cons]

@[simp] theorem Slot.param_cleared (slot : Slot) : slot.cleared.param = slot.param := by
  cases slot <;> rfl

mutual

theorem Message.segments_cleared : (m : Message) → m.cleared.segments = m.segments.map Segment.cleared
  | .segment _ => rfl
  | .sequence items => by
    simp only [Message.cleared, Message.segments, List.map_cons, itemSegments_cleared items]
    rw [clearedItems_eq, List.length_map]
    rfl
  | .record c slots => by
    simp only [Message.cleared, Message.segments, List.map_cons, slotSegments_cleared slots]
    rfl

theorem itemSegments_cleared : (items : List Message) →
    itemSegments (clearedItems items) = (itemSegments items).map Segment.cleared
  | [] => rfl
  | m :: rest => by
    rw [clearedItems, itemSegments, itemSegments, List.map_append, m.segments_cleared, itemSegments_cleared rest]

theorem Slot.segments_cleared : (slot : Slot) → slot.cleared.segments = slot.segments.map Segment.cleared
  | .absent _ => rfl
  | .present p m => by
    rw [Slot.cleared, Slot.segments, Slot.segments, List.map_append, m.segments_cleared]
    split <;> rfl

theorem slotSegments_cleared : (slots : List Slot) →
    slotSegments (clearedSlots slots) = (slotSegments slots).map Segment.cleared
  | [] => rfl
  | slot :: rest => by
    rw [clearedSlots, slotSegments, slotSegments, List.map_append, slot.segments_cleared, slotSegments_cleared rest]

end

mutual

theorem Message.value_cleared : (m : Message) → m.cleared.value = m.value
  | .segment s => by cases s <;> rfl
  | .sequence items => by rw [Message.cleared, Message.value, Message.value, itemValues_cleared items]
  | .record c slots => by rw [Message.cleared, Message.value, Message.value, slotEntries_cleared slots]

theorem itemValues_cleared : (items : List Message) → itemValues (clearedItems items) = itemValues items
  | [] => rfl
  | m :: rest => by rw [clearedItems, itemValues, itemValues, m.value_cleared, itemValues_cleared rest]

theorem Slot.entry?_cleared : (slot : Slot) → slot.cleared.entry? = slot.entry?
  | .absent _ => rfl
  | .present p m => by rw [Slot.cleared, Slot.entry?, Slot.entry?, m.value_cleared]

theorem slotEntries_cleared : (slots : List Slot) → slotEntries (clearedSlots slots) = slotEntries slots
  | [] => rfl
  | slot :: rest => by rw [clearedSlots, slotEntries, slotEntries, slot.entry?_cleared, slotEntries_cleared rest]

end

namespace Segment

variable {shape : Shape} {s : Segment}

theorem length_octets_cleared (s : Segment) : s.cleared.octets.length = s.octets.length := by
  cases s <;> simp [cleared, octets, framed]

theorem cleared_of_isClear (h : s.IsClear) : s.cleared = s := by
  cases s with
  | bytes payload padding => rw [cleared, ← List.eq_replicate_of_mem h]
  | string declared text padding => rw [cleared, ← List.eq_replicate_of_mem h]
  | _ => rfl

theorem Fits.cleared (h : s.Fits shape) : s.cleared.Fits shape := by
  have frame {payload padding : Bytes} (h : IsFrame payload padding) :
      IsFrame payload (List.replicate padding.length 0) :=
    ⟨h.1, by rw [List.length_replicate, h.2]⟩
  cases h with
  | number hwidth => exact .number hwidth
  | bool => exact .bool
  | bytes hframe => exact .bytes (frame hframe)
  | string hframe => exact .string (frame hframe)
  | sized htype hframe => exact .sized htype (frame hframe)
  | raw hlen => exact .raw hlen

/-- No segment is read as `null`. -/
theorem Fits.isNull_value (h : s.Fits shape) : s.value.isNull = false := by
  cases h with
  | @number type _ hwidth => cases type <;> first | rfl | cases hwidth
  | _ => rfl

end Segment

namespace Message

variable {r : Registry} {messages : Message → Prop} {shape : Shape} {m : Message}

theorem octets_cleared (m : Message) :
    m.cleared.octets = (m.segments.map Segment.cleared).flatMap Segment.octets := by
  rw [octets, segments_cleared]

theorem length_octets_cleared (m : Message) : m.cleared.octets.length = m.octets.length := by
  rw [octets_cleared, octets]
  induction m.segments with
  | nil => rfl
  | cons s rest ih =>
    simp only [List.map_cons, List.flatMap_cons, List.length_append, Segment.length_octets_cleared, ih]

theorem octets_cleared_of_isClear (h : ∀ s ∈ m.segments, s.IsClear) : m.cleared.octets = m.octets := by
  have hsame : m.segments.map Segment.cleared = m.segments :=
    (List.map_congr_left fun s hs => Segment.cleared_of_isClear (h s hs)).trans (List.map_id _)
  rw [octets_cleared, octets, hsame]

theorem Fits.isNull_value (h : m.Fits r messages shape) : m.value.isNull = false := by
  cases h with
  | segment h => exact h.isNull_value
  | sequence => rfl
  | record => rfl

theorem Fits.cleared (hmessages : ∀ m, messages m → messages m.cleared) (h : m.Fits r messages shape) :
    m.cleared.Fits r messages shape := by
  induction h with
  | segment h => exact .segment h.cleared
  | @sequence item items hcount _ ih =>
    rw [Message.cleared, clearedItems_eq]
    refine .sequence (by rwa [List.length_map]) ?_
    intro _ hcleared
    obtain ⟨m, hm, rfl⟩ := List.mem_map.mp hcleared
    exact ih m hm
  | record hheader hnested => exact .record hheader (hmessages _ hnested)

end Message

theorem Registry.Holds.cleared {r : Registry} {levels : Nat} {m : Message} (h : r.Holds levels m) :
    r.Holds levels m.cleared := by
  induction levels generalizing m with
  | zero => exact h
  | succ levels ih =>
    obtain ⟨c, slots, rfl, hc, hparams, hfits⟩ := h
    refine ⟨c, slots.map Slot.cleared, ?_, hc, ?_, ?_⟩
    · rw [Message.cleared, clearedSlots_eq]
    · simpa [Function.comp_def] using hparams
    · intro _ hcleared
      obtain ⟨slot, hslot, rfl⟩ := List.mem_map.mp hcleared
      cases slot with
      | absent p => exact hfits _ hslot
      | present p m =>
        obtain ⟨shape, hshape, hm⟩ := hfits _ hslot
        exact ⟨shape, hshape, hm.cleared fun m hm => ih hm⟩

/-! ## What is written for a message -/

/-- Whether all that is read from a message can be written again. -/
def Message.IsWritable (m : Message) : Prop :=
  ∀ s ∈ m.segments, s.isNaN = false ∧ s.HasDeclaredLength

namespace Message.IsWritable

theorem of_mem_items {items : List Message} {m : Message} (h : (sequence items).IsWritable) (hm : m ∈ items) :
    m.IsWritable := by
  intro s hs
  refine h s ?_
  rw [segments, itemSegments_eq]
  exact List.mem_cons_of_mem _ (List.mem_flatMap.mpr ⟨m, hm, hs⟩)

theorem of_mem_slots {c : Container} {slots : List Slot} {p : Param} {m : Message}
    (h : (record c slots).IsWritable) (hm : Slot.present p m ∈ slots) : m.IsWritable := by
  intro s hs
  refine h s ?_
  rw [segments, slotSegments_eq]
  refine List.mem_cons_of_mem _ (List.mem_flatMap.mpr ⟨_, hm, ?_⟩)
  rw [Slot.segments]
  exact List.mem_append_right _ hs

end Message.IsWritable

/-- Whether an encoder of nested values writes those of the messages in question. -/
def NestedEncoder.Writes (nested : NestedEncoder) (messages : Message → Prop) : Prop :=
  ∀ m, messages m → m.IsWritable → ∀ param, nested param m.value = .ok m.cleared.octets

namespace Registry

variable {r : Registry} {messages : Message → Prop} {nested : NestedEncoder} {containerName param : String}

theorem encode_of_fits_primitive {type : Primitive} {m : Message} (h : m.Fits r messages (.primitive type))
    (hwritable : m.IsWritable) : (do (← m.value.entry param type).encoded) = .ok m.cleared.octets := by
  cases h with
  | @segment _ s h =>
    obtain ⟨e, he, hencode⟩ := entry_of_segment h (hwritable s (by simp [Message.segments])).1
    refine Except.bind_eq_ok_iff.mpr ⟨e, he, Entry.encoded_eq_ok_iff.mpr ?_⟩
    rw [Message.cleared, Message.octets_segment]
    exact hencode

theorem encode_of_fits_reference {reference : String} {m : Message} (hnested : nested.Writes messages)
    (h : m.Fits r messages (.reference reference)) (hwritable : m.IsWritable) :
    nested param m.value = .ok m.cleared.octets := by
  cases h with
  | segment h => cases h
  | record _ h => exact hnested _ h hwritable param

/-- Items that are written one by one come after their number. -/
theorem encode_of_items {write : Value → Except EngineError Bytes} {items : List Message}
    (hcount : items.length < UInt32.size) (h : ∀ m ∈ items, write m.value = .ok m.cleared.octets) :
    (do
      let count ← (Entry.uint (items.map Message.value).length).encoded
      let parts ← (items.map Message.value).mapM write
      return count ++ parts.flatten) =
      .ok (Word.toBytes 4 items.length ++ (items.map Message.cleared).flatMap Message.octets) := by
  have hnumber : (Entry.uint (items.map Message.value).length).encoded = .ok (Word.toBytes 4 items.length) := by
    rw [List.length_map]
    exact Entry.encoded_eq_ok_iff.mpr (encode_uint_eq_ok_iff.mpr ⟨hcount, rfl⟩)
  rw [hnumber, Except.mapM_map_eq_ok h, List.flatMap_map, List.flatMap_def]
  rfl

theorem encodeItems_of_fits {item : VectorItem} {items : List Message} (hnested : nested.Writes messages)
    (hcount : items.length < UInt32.size) (hitems : ∀ m ∈ items, m.Fits r messages item.shape)
    (hwritable : ∀ m ∈ items, m.IsWritable) :
    encodeItems nested param item (items.map Message.value) =
      .ok (Word.toBytes 4 items.length ++ (items.map Message.cleared).flatMap Message.octets) := by
  cases item with
  | primitive type =>
    exact encode_of_items hcount fun m hm => encode_of_fits_primitive (hitems m hm) (hwritable m hm)
  | container reference =>
    exact encode_of_items hcount fun m hm => encode_of_fits_reference hnested (hitems m hm) (hwritable m hm)

theorem encodeShape_of_fits {shape : Shape} {m : Message} (hnested : nested.Writes messages)
    (h : m.Fits r messages shape) (hsize : ∀ type size, shape = .strict type size → type.allowsSize = true)
    (hwritable : m.IsWritable) :
    encodeShape nested containerName param (some m.value) shape = .ok m.cleared.octets := by
  cases shape with
  | primitive type => exact encode_of_fits_primitive h hwritable
  | strict type size =>
    cases h with
    | @segment _ s h =>
      have hs := hwritable s (by simp [Message.segments])
      obtain ⟨e, he, hencode⟩ := strictEntry_of_segment h (hsize type size rfl) hs.2
      refine Except.bind_eq_ok_iff.mpr ⟨e, he, Entry.encoded_eq_ok_iff.mpr ?_⟩
      rw [Message.cleared, Message.octets_segment]
      exact hencode
  | vector item =>
    cases h with
    | segment h => cases h
    | @sequence _ items hcount hitems =>
      rw [Message.value_sequence, Message.cleared, clearedItems_eq, Message.octets_sequence, List.length_map]
      exact encodeItems_of_fits hnested hcount hitems fun m hm => hwritable.of_mem_items hm
  | reference reference => exact encode_of_fits_reference hnested h hwritable

theorem encodeParam_of_fits {v : Value} {slot : Slot} (hnested : nested.Writes messages)
    (hslot : slot.Fits r messages)
    (hsize : ∀ type size, slot.param.shape? = some (.strict type size) → type.allowsSize = true)
    (hwritable : ∀ p m, slot = .present p m → m.IsWritable)
    (hfield : v.present? slot.param.name = slot.value?) :
    encodeParam nested containerName v slot.param = .ok slot.cleared.octets := by
  have hget : (v.get? slot.param.name).filter (fun field => !field.isNull) = slot.value? := hfield
  simp only [encodeParam, hget]
  cases slot with
  | absent p =>
    have hoptional : (Slot.absent p).param.isOptional = true := hslot
    rw [if_pos hoptional]
    rfl
  | present p m =>
    obtain ⟨shape, hshape, hm⟩ := hslot
    have hthere : encodePresent nested containerName p (some m.value) = .ok m.cleared.octets := by
      rw [encodePresent, hshape]
      exact encodeShape_of_fits hnested hm (fun type size h => hsize type size (by rw [← h]; exact hshape))
        (hwritable p m rfl)
    simp only [Slot.param, Slot.value?, hthere, Except.map, Slot.cleared, Slot.octets_present]
    split <;> rfl

/-- An object that was read has the values of its params under their names. -/
theorem get?_record {c : Container} {slots : List Slot} {slot : Slot}
    (hkeys : (Fields.names (tags c) ++ (slots.map Slot.param).map Param.name).Nodup) (hslot : slot ∈ slots) :
    (Message.record c slots).value.get? slot.param.name = slot.value? := by
  have hnodup := nodup_names_of_slots hkeys
  rw [Message.value_record, Fields.ofList_eq_self_iff.mpr hnodup]
  cases slot with
  | present p m =>
    have hmem : (p.name, m.value) ∈ tags c ++ slots.filterMap Slot.entry? :=
      List.mem_append_right _ (List.mem_filterMap.mpr ⟨_, hslot, rfl⟩)
    exact Fields.get?_of_mem hnodup hmem
  | absent p =>
    refine Fields.get?_of_not_mem fun hmem => ?_
    rw [Fields.names, List.map_append, List.mem_append] at hmem
    obtain ⟨_, hparams, hdisjoint⟩ := List.nodup_append.mp hkeys
    rcases hmem with htag | hentry
    · exact hdisjoint _ htag _ (List.mem_map_of_mem (List.mem_map_of_mem hslot)) rfl
    · obtain ⟨entry, hentry, hname⟩ := List.mem_map.mp hentry
      obtain ⟨other, hother, hpresent⟩ := List.mem_filterMap.mp hentry
      cases other with
      | absent q => cases hpresent
      | present q m =>
        cases hpresent
        rw [List.map_map] at hparams
        cases List.inj_on_of_nodup_map hparams hother hslot hname

theorem present?_record {c : Container} {slots : List Slot} {slot : Slot}
    (hkeys : (Fields.names (tags c) ++ (slots.map Slot.param).map Param.name).Nodup) (hslot : slot ∈ slots)
    (hfits : slot.Fits r messages) :
    (Message.record c slots).value.present? slot.param.name = slot.value? := by
  rw [Value.present?, get?_record hkeys hslot]
  cases slot with
  | present p m =>
    obtain ⟨shape, _, hm⟩ := hfits
    simp [Slot.value?, hm.isNull_value]
  | absent p => rfl

theorem containerOf?_record {c : Container} {slots : List Slot}
    (hkeys : (Fields.names (tags c) ++ (slots.map Slot.param).map Param.name).Nodup) (hc : c ∈ r.containers) :
    r.containerOf? (Message.record c slots).value = some c := by
  rw [Message.value_record, Fields.ofList_eq_self_iff.mpr (nodup_names_of_slots hkeys)]
  exact container?_eq_some_iff.mpr ⟨hc, rfl⟩

/-- Whether only types that have a length are declared with one. -/
def SizesApply (r : Registry) : Prop :=
  ∀ c ∈ r.containers, ∀ p ∈ c.params, ∀ type size, p.shape? = some (.strict type size) → type.allowsSize = true

/-- Encoding the value of a message gives its octets with zeros for padding. By induction on the levels. -/
theorem encodeContainer_of_holds (hkeys : r.KeysDistinct) (hsizes : r.SizesApply) {levels : Nat} {c : Container}
    {slots : List Slot} (h : r.Holds levels (.record c slots)) (hwritable : (Message.record c slots).IsWritable) :
    r.encodeContainer levels c (Message.record c slots).value = .ok (Message.record c slots).cleared.octets := by
  induction levels generalizing c slots with
  | zero => exact h.elim
  | succ levels ih =>
    obtain ⟨_, _, ⟨⟩, hc, hparams, hfits⟩ := h
    have hnested : NestedEncoder.Writes (fun param v => do r.encodeContainer levels (← r.named param v) v)
        (r.Holds levels) := by
      intro m hm hm' param
      obtain ⟨d, slots, rfl, hd, hparams⟩ := hm.exists_record
      have hnamed := containerOf?_record (hparams ▸ hkeys d hd) hd
      exact Except.bind_eq_ok_iff.mpr ⟨d, named_eq_ok_iff.mpr hnamed, ih hm hm'⟩
    have hwrite (slot : Slot) (hslot : slot ∈ slots) :
        encodeParam (fun param v => do r.encodeContainer levels (← r.named param v) v) c.name
          (Message.record c slots).value slot.param = .ok slot.cleared.octets := by
      have hparam : slot.param ∈ c.params := hparams ▸ List.mem_map_of_mem hslot
      refine encodeParam_of_fits hnested (hfits slot hslot) (hsizes c hc _ hparam) ?_
        (present?_record (hparams ▸ hkeys c hc) hslot (hfits slot hslot))
      rintro p m rfl
      exact hwritable.of_mem_slots hslot
    rw [encodeContainer, ← hparams, Except.mapM_map_eq_ok hwrite, Message.cleared, clearedSlots_eq,
      Message.octets_record, List.flatMap_map, List.flatMap_def]
    rfl

theorem encode_of_holds (hkeys : r.KeysDistinct) (hsizes : r.SizesApply) {m : Message}
    (h : r.Holds (r.config.maxDepth + 1) m) (hwritable : m.IsWritable) : r.encode m.value = .ok m.cleared.octets := by
  obtain ⟨c, slots, rfl, hc, hparams⟩ := h.exists_record
  have hnamed := containerOf?_record (hparams ▸ hkeys c hc) hc
  exact Except.bind_eq_ok_iff.mpr
    ⟨c, named_eq_ok_iff.mpr hnamed, encodeContainer_of_holds hkeys hsizes h hwritable⟩

/-- Whether a message explains what was decoded: one of the registry, with these octets and this value. -/
structure Spells (r : Registry) (m : Message) (octets : Bytes) (v : Value) : Prop where
  holds : r.Holds (r.config.maxDepth + 1) m
  octets_eq : m.octets = octets
  value_eq : m.value = v

/-- Decoding passes the octets of a message that explains its result. -/
theorem exists_spells {buffer : Bytes} {offset : Nat} {v : Value} {place : Reader}
    (h : r.decodeFrom.run (.atOffset buffer offset) = .ok (v, place)) :
    ∃ n, offset + n ≤ buffer.length ∧ place = .atOffset buffer (offset + n) ∧
      ∃ m, r.Spells m ((buffer.drop offset).take n) v := by
  obtain ⟨m, hm, hpass, rfl⟩ := (decodeFrom_reads _ _ _).mp h
  obtain ⟨hplace, hoctets⟩ := Reader.eq_of_passes_atOffset hpass
  have hpos : 0 < m.octets.length := by
    obtain ⟨c, slots, rfl, _⟩ := hm.exists_record
    simp
  exact ⟨m.octets.length, Reader.le_length_of_passes_atOffset hpass hpos, hplace, m, hm, hoctets, rfl⟩

theorem decode_of_spells {m : Message} {octets : Bytes} {v : Value} (h : r.Spells m octets v) :
    r.decode octets = .ok v := by
  have hrun : r.decodeFrom.run (.ofBytes octets) = .ok (v, ⟨octets.length, []⟩) :=
    (decodeFrom_reads _ _ _).mpr ⟨m, h.holds, by simp [Reader.Passes, Reader.ofBytes, h.octets_eq], h.value_eq.symm⟩
  rw [decode, hrun]

theorem Spells.cleared {m : Message} {octets : Bytes} {v : Value} (h : r.Spells m octets v) :
    r.Spells m.cleared m.cleared.octets v :=
  ⟨h.holds.cleared, rfl, m.value_cleared.trans h.value_eq⟩

/-- What is decoded from a stretch of a buffer is encoded to the same stretch with zeros for padding, unless
one of its segments cannot be written again. -/
theorem encode_decodeFrom (hkeys : r.KeysDistinct) (hsizes : r.SizesApply) {buffer : Bytes} {offset : Nat} {v : Value}
    {place : Reader} (h : r.decodeFrom.run (.atOffset buffer offset) = .ok (v, place)) :
    ∃ n, offset + n ≤ buffer.length ∧ place = .atOffset buffer (offset + n) ∧
      (∃ m, r.Spells m ((buffer.drop offset).take n) v) ∧
      ∀ m, r.Spells m ((buffer.drop offset).take n) v → m.IsWritable →
        ∃ octets, r.encode v = .ok octets ∧ octets.length = n ∧
          octets = (m.segments.map Segment.cleared).flatMap Segment.octets ∧
          r.decode octets = .ok v ∧
          ((∀ s ∈ m.segments, s.IsClear) → octets = (buffer.drop offset).take n) := by
  obtain ⟨n, hend, hplace, hexists⟩ := exists_spells h
  refine ⟨n, hend, hplace, hexists, fun m hm hwritable => ⟨m.cleared.octets, ?_, ?_, ?_, ?_, ?_⟩⟩
  · rw [← hm.value_eq]
    exact encode_of_holds hkeys hsizes hm.holds hwritable
  · rw [Message.length_octets_cleared, hm.octets_eq, List.length_take, List.length_drop]
    omega
  · exact m.octets_cleared
  · exact decode_of_spells hm.cleared
  · intro hclear
    rw [Message.octets_cleared_of_isClear hclear, hm.octets_eq]

/-- A container of a text and of two octets. -/
def note : Container :=
  ⟨3, "note", "Note", [], [.ofShape "text" (.primitive .string), .ofShape "code" (.strict .bytes 2)], []⟩

/-- The registry of notes. -/
def notes : Registry := .ofNodup [note] ⟨true, 0⟩ (by decide) (by decide)

/-- A note whose text has an octet that is no zero for padding. -/
def noteMessage : Message :=
  .record note
    [.present (.ofShape "text" (.primitive .string)) (.segment (.string none "a" [255])),
      .present (.ofShape "code" (.strict .bytes 2)) (.segment (.raw [1, 2]))]

/-- A note in the middle of a buffer: what is encoded has a zero for padding. -/
theorem encode_decodeFrom_noteMessage :
    notes.decodeFrom.run (.atOffset [9, 3, 0, 0, 0, 1, 0, 0, 0, 97, 255, 1, 2, 8] 1) =
        .ok (noteMessage.value, .atOffset [9, 3, 0, 0, 0, 1, 0, 0, 0, 97, 255, 1, 2, 8] 13) ∧
      notes.encode noteMessage.value = .ok [3, 0, 0, 0, 1, 0, 0, 0, 97, 0, 1, 2] := by
  have hrun : notes.decodeFrom.run (.atOffset [9, 3, 0, 0, 0, 1, 0, 0, 0, 97, 255, 1, 2, 8] 1) =
      .ok (noteMessage.value, .atOffset [9, 3, 0, 0, 0, 1, 0, 0, 0, 97, 255, 1, 2, 8] 13) := rfl
  have hkeys : notes.KeysDistinct := by
    simp only [KeysDistinct, notes, containers_ofNodup, List.mem_singleton, forall_eq]
    decide
  have hsizes : notes.SizesApply := by
    simp only [SizesApply, notes, containers_ofNodup, note, forall_eq, List.mem_cons, List.not_mem_nil, or_false]
    rintro p (rfl | rfl) type size h <;> cases h
    rfl
  obtain ⟨n, _, hplace, _, h⟩ := encode_decodeFrom hkeys hsizes hrun
  have hn : n = 12 := by
    have hstop := Reader.eq_of_atOffset_eq hplace
    omega
  subst hn
  have hspells : notes.Spells noteMessage [3, 0, 0, 0, 1, 0, 0, 0, 97, 255, 1, 2] noteMessage.value := by
    refine ⟨⟨note, _, rfl, by simp [notes], rfl, ?_⟩, rfl, rfl⟩
    simp only [List.mem_cons, List.not_mem_nil, or_false]
    rintro slot (rfl | rfl)
    · exact ⟨_, rfl, .segment (.string ⟨by decide, rfl⟩)⟩
    · exact ⟨_, rfl, .segment (.raw rfl)⟩
  have hwritable : noteMessage.IsWritable := by
    have hsegments : noteMessage.segments = [.uint 3, .string none "a" [255], .raw [1, 2]] := rfl
    rw [Message.IsWritable, hsegments]
    simp [Segment.isNaN, Segment.HasDeclaredLength, Segment.uint]
  obtain ⟨octets, hencode, _, rfl, _⟩ := h noteMessage hspells hwritable
  exact ⟨hrun, hencode⟩

end Registry

end SchemaWire
