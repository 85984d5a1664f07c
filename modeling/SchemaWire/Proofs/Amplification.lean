import Mathlib.Algebra.Order.BigOperators.Group.List
import SchemaWire.Proofs.Tags

/-!
# Nothing is decoded that was not paid for

Octets may announce vectors of any length, but each object takes the four octets of its id, and each element of a vector
of primitive values at least one octet of its own. So no more can come of octets than there are (`decodeFrom_paid`).
The count is kept on the message that was decoded, and what is seen of the message in its value is no more than that.
-/

namespace SchemaWire

/-! ## What a value holds -/

/-- What an item of an array counts for as an element. Objects are counted on their own. -/
def Value.asElement : Value → Nat
  | .object _ => 0
  | _ => 1

mutual

/-- The number of objects in a value. -/
def Value.objects : Value → Nat
  | .array items => Value.itemObjects items
  | .object fields => Value.fieldObjects fields + 1
  | _ => 0

/-- The number of objects in items. -/
def Value.itemObjects : List Value → Nat
  | [] => 0
  | v :: rest => v.objects + Value.itemObjects rest

/-- The number of objects in fields. -/
def Value.fieldObjects : List (String × Value) → Nat
  | [] => 0
  | (_, v) :: rest => v.objects + Value.fieldObjects rest

end

mutual

/-- The number of elements of the arrays in a value that are no objects. The traits that an object tells of its container
are left out. -/
def Value.elements : Value → Nat
  | .array items => Value.itemElements items
  | .object fields => Value.fieldElements fields
  | _ => 0

/-- The number of items that are no objects, and of the elements in them. -/
def Value.itemElements : List Value → Nat
  | [] => 0
  | v :: rest => v.asElement + v.elements + Value.itemElements rest

/-- The number of elements in fields. -/
def Value.fieldElements : List (String × Value) → Nat
  | [] => 0
  | (key, v) :: rest => (if key = "_traits" then 0 else v.elements) + Value.fieldElements rest

end

/-! ## Quantities of fields -/

namespace Fields

variable {α : Type} (f : String × α → Nat)

theorem sum_map_insert_le (name : String) (value : α) (fields : Fields α) :
    ((fields.insert name value).map f).sum ≤ (fields.map f).sum + f (name, value) := by
  induction fields with
  | nil => simp [Keyed.insert]
  | cons entry rest ih =>
    obtain ⟨n, v⟩ := entry
    rw [Keyed.insert]
    split
    · rename_i hname
      rw [List.map_cons, List.sum_cons, List.map_cons, List.sum_cons, hname]
      omega
    · rw [List.map_cons, List.sum_cons, List.map_cons, List.sum_cons]
      omega

theorem sum_map_foldl_insert_le (entries : List (String × α)) (fields : Fields α) :
    ((entries.foldl (fun fields entry => fields.insert entry.1 entry.2) fields).map f).sum ≤
      (fields.map f).sum + (entries.map f).sum := by
  induction entries generalizing fields with
  | nil => exact Nat.le_refl _
  | cons entry rest ih =>
    have hentry : ((fields.insert entry.1 entry.2).map f).sum ≤ (fields.map f).sum + f entry :=
      sum_map_insert_le f entry.1 entry.2 fields
    have hrest := ih (fields.insert entry.1 entry.2)
    rw [List.foldl_cons, List.map_cons, List.sum_cons]
    omega

/-- A quantity of fields is no larger than that of the entries that they are built of: of two entries of one name one is
left. -/
theorem sum_map_ofList_le (entries : List (String × α)) : ((ofList entries).map f).sum ≤ (entries.map f).sum := by
  have hbuilt := sum_map_foldl_insert_le f entries []
  rwa [List.map_nil, List.sum_nil, Nat.zero_add] at hbuilt

end Fields

/-! ## What a value shows of a record -/

namespace Value

theorem fieldObjects_eq (fields : List (String × Value)) :
    fieldObjects fields = (fields.map fun entry => entry.2.objects).sum := by
  induction fields with
  | nil => rfl
  | cons entry rest ih => rw [fieldObjects, ih, List.map_cons, List.sum_cons]

theorem fieldElements_eq (fields : List (String × Value)) :
    fieldElements fields = (fields.map fun entry => if entry.1 = "_traits" then 0 else entry.2.elements).sum := by
  induction fields with
  | nil => rfl
  | cons entry rest ih => rw [fieldElements, ih, List.map_cons, List.sum_cons]

/-- The tags are no objects and hold none. -/
theorem fieldObjects_tags (c : Container) : fieldObjects (Registry.tags c) = 0 := by
  have htraits (traits : List String) : itemObjects (traits.map string) = 0 := by
    induction traits with
    | nil => rfl
    | cons trait rest ih => simp [itemObjects, objects, ih]
  simp [Registry.tags, fieldObjects, objects, htraits]

theorem fieldElements_tags (c : Container) : fieldElements (Registry.tags c) = 0 := by
  simp [Registry.tags, fieldElements, elements]

theorem fieldObjects_ofList_le (c : Container) (entries : List (String × Value)) :
    fieldObjects (Fields.ofList (Registry.tags c ++ entries)) ≤ fieldObjects entries := by
  have hbuilt := Fields.sum_map_ofList_le (fun entry => entry.2.objects) (Registry.tags c ++ entries)
  rw [List.map_append, List.sum_append, ← fieldObjects_eq, ← fieldObjects_eq, ← fieldObjects_eq, fieldObjects_tags]
    at hbuilt
  omega

theorem fieldElements_ofList_le (c : Container) (entries : List (String × Value)) :
    fieldElements (Fields.ofList (Registry.tags c ++ entries)) ≤ fieldElements entries := by
  have hbuilt := Fields.sum_map_ofList_le (fun entry => if entry.1 = "_traits" then 0 else entry.2.elements)
    (Registry.tags c ++ entries)
  rw [List.map_append, List.sum_append, ← fieldElements_eq, ← fieldElements_eq, ← fieldElements_eq,
    fieldElements_tags] at hbuilt
  omega

end Value

theorem Segment.objects_value (s : Segment) : s.value.objects = 0 := by
  cases s with
  | number type octets => cases type <;> rfl
  | _ => rfl

theorem Segment.elements_value (s : Segment) : s.value.elements = 0 := by
  cases s with
  | number type octets => cases type <;> rfl
  | _ => rfl

/-! ## What a message holds -/

/-- What an item of a vector counts for as an element. Records are counted on their own. -/
def Message.asElement : Message → Nat
  | .record .. => 0
  | _ => 1

mutual

/-- The number of elements of the vectors in a message that are no records. -/
def Message.elements : Message → Nat
  | .segment _ => 0
  | .sequence items => itemElements items
  | .record _ slots => slotElements slots
termination_by structural m => m

/-- The number of items that are no records, and of the elements in them. -/
def itemElements : List Message → Nat
  | [] => 0
  | m :: rest => m.asElement + m.elements + itemElements rest
termination_by structural items => items

/-- The number of elements in a param. -/
def Slot.elements : Slot → Nat
  | .absent _ => 0
  | .present _ m => m.elements
termination_by structural slot => slot

/-- The number of elements in params. -/
def slotElements : List Slot → Nat
  | [] => 0
  | slot :: rest => slot.elements + slotElements rest
termination_by structural slots => slots

end

theorem Message.asElement_value_le (m : Message) : m.value.asElement ≤ m.asElement := by
  cases m with
  | record c slots => rw [value_record]; exact Nat.le_refl 0
  | segment s =>
    show s.value.asElement ≤ 1
    cases s with
    | number type octets => cases type <;> exact Nat.le_refl 1
    | _ => exact Nat.le_refl 1
  | sequence items => rw [value_sequence]; exact Nat.le_refl 1

mutual

/-- Every object of what is read was read as a record. -/
theorem Message.objects_value_le : (m : Message) → m.value.objects ≤ m.records.length
  | .segment s => Nat.le_of_eq s.objects_value
  | .sequence items => by
    rw [Message.value, Value.objects, Message.records]
    exact itemObjects_value_le items
  | .record c slots => by
    have hbuilt := Value.fieldObjects_ofList_le c (slotEntries slots)
    have hslots := slotObjects_value_le slots
    rw [Message.value, Value.objects, Message.records, List.length_cons]
    omega

theorem itemObjects_value_le : (items : List Message) →
    Value.itemObjects (itemValues items) ≤ (itemRecords items).length
  | [] => Nat.le_refl 0
  | m :: rest => by
    have hfirst := m.objects_value_le
    have hrest := itemObjects_value_le rest
    rw [itemValues, Value.itemObjects, itemRecords, List.length_append]
    omega

theorem slotObjects_value_le : (slots : List Slot) →
    Value.fieldObjects (slotEntries slots) ≤ (slotRecords slots).length
  | [] => Nat.le_refl 0
  | .absent _ :: rest => slotObjects_value_le rest
  | .present p m :: rest => by
    have hfirst := m.objects_value_le
    have hrest := slotObjects_value_le rest
    rw [slotRecords, List.length_append, Slot.records]
    show m.value.objects + Value.fieldObjects (slotEntries rest) ≤ _
    omega

end

mutual

/-- Every element of what is read was read as an element. -/
theorem Message.elements_value_le : (m : Message) → m.value.elements ≤ m.elements
  | .segment s => Nat.le_of_eq s.elements_value
  | .sequence items => by
    rw [Message.value, Value.elements, Message.elements]
    exact itemElements_value_le items
  | .record c slots => by
    have hbuilt := Value.fieldElements_ofList_le c (slotEntries slots)
    have hslots := slotElements_value_le slots
    rw [Message.value, Value.elements, Message.elements]
    omega

theorem itemElements_value_le : (items : List Message) →
    Value.itemElements (itemValues items) ≤ itemElements items
  | [] => Nat.le_refl 0
  | m :: rest => by
    have hown := m.asElement_value_le
    have hfirst := m.elements_value_le
    have hrest := itemElements_value_le rest
    rw [itemValues, Value.itemElements, itemElements]
    omega

theorem slotElements_value_le : (slots : List Slot) →
    Value.fieldElements (slotEntries slots) ≤ slotElements slots
  | [] => Nat.le_refl 0
  | .absent _ :: rest => by
    rw [slotElements, Slot.elements, Nat.zero_add]
    exact slotElements_value_le rest
  | .present p m :: rest => by
    have hfirst := m.elements_value_le
    have hrest := slotElements_value_le rest
    rw [slotElements, Slot.elements]
    show (if p.name = "_traits" then 0 else m.value.elements) + Value.fieldElements (slotEntries rest) ≤ _
    split <;> omega

end

/-! ## What a message costs -/

/-- The number of octets that the records and elements of a message take at least. -/
def Message.cost (m : Message) : Nat :=
  4 * m.records.length + m.elements

/-- The number of octets that the records and elements of a param take at least. -/
def Slot.cost (slot : Slot) : Nat :=
  4 * slot.records.length + slot.elements

theorem Message.cost_sequence (items : List Message) :
    (sequence items).cost = (items.map fun m => m.asElement + m.cost).sum := by
  rw [cost, records, elements]
  induction items with
  | nil => rfl
  | cons m rest ih =>
    rw [itemRecords, itemElements, List.length_append, List.map_cons, List.sum_cons, ← ih, cost]
    omega

theorem Message.cost_record (c : Container) (slots : List Slot) :
    (record c slots).cost = 4 + (slots.map Slot.cost).sum := by
  have hslots : 4 * (slotRecords slots).length + slotElements slots = (slots.map Slot.cost).sum := by
    induction slots with
    | nil => rfl
    | cons slot rest ih =>
      rw [slotRecords, slotElements, List.length_append, List.map_cons, List.sum_cons, ← ih, Slot.cost]
      omega
  rw [cost, records, elements, List.length_cons]
  omega

/-- No primitive value is empty on the wire: even a payload without octets has a length. -/
theorem Segment.Fits.octets_pos {s : Segment} {type : Primitive} (h : s.Fits (.primitive type)) :
    0 < s.octets.length := by
  cases h with
  | @number _ octets hwidth =>
    show 0 < octets.length
    cases type <;> simp only [Primitive.width?, Option.some.injEq, reduceCtorEq] at hwidth <;> omega
  | bool => exact Nat.one_pos
  | bytes => simp [octets, framed]
  | string => simp [octets, framed]

variable {r : Registry} {messages : Message → Prop} {shape : Shape} {m : Message}

theorem Message.Fits.octets_pos {item : VectorItem} (h : m.Fits r messages item.shape) : 0 < m.octets.length := by
  cases item with
  | primitive type =>
    cases h with
    | @segment _ s hs =>
      rw [octets_segment]
      exact hs.octets_pos
  | container reference =>
    cases h with
    | segment hs => cases hs
    | record => simp

/-- An item of a vector is paid for with an octet of its own, unless it is a record, which is paid for as such. -/
theorem Message.Fits.asElement_add_cost_le {item : VectorItem} (h : m.Fits r messages item.shape)
    (hcost : m.cost ≤ m.octets.length) : m.asElement + m.cost ≤ m.octets.length := by
  cases m with
  | segment s => exact h.octets_pos
  | sequence items => cases item <;> cases h
  | record c slots => rwa [asElement, Nat.zero_add]

theorem Message.Fits.cost_le (hmessages : ∀ m, messages m → m.cost ≤ m.octets.length)
    (h : m.Fits r messages shape) : m.cost ≤ m.octets.length := by
  induction h with
  | segment => exact Nat.zero_le _
  | @sequence item items _ hitems ih =>
    have hsum : (items.map fun m => m.asElement + m.cost).sum ≤ (items.map fun m => m.octets.length).sum :=
      List.sum_le_sum fun m hm => (hitems m hm).asElement_add_cost_le (ih m hm)
    rw [cost_sequence, octets_sequence, List.length_append, List.length_flatMap]
    omega
  | record _ hnested => exact hmessages _ hnested

/-- A record has the four octets of its id in front of what its params cost. By induction on the levels. -/
theorem Registry.Holds.cost_le {levels : Nat} (h : r.Holds levels m) : m.cost ≤ m.octets.length := by
  induction levels generalizing m with
  | zero => exact h.elim
  | succ levels ih =>
    obtain ⟨c, slots, rfl, _, _, hfits⟩ := h
    have hslot : ∀ slot ∈ slots, slot.cost ≤ slot.octets.length := by
      intro slot hslot
      cases slot with
      | absent p => exact Nat.zero_le _
      | present p m =>
        obtain ⟨shape, _, hm⟩ := hfits _ hslot
        have hcost : m.cost ≤ m.octets.length := hm.cost_le fun m hm => ih hm
        rw [Slot.octets_present, List.length_append]
        exact Nat.le_add_left_of_le hcost
    have hsum : (slots.map Slot.cost).sum ≤ (slots.map fun slot => slot.octets.length).sum := List.sum_le_sum hslot
    rw [Message.cost_record, Message.octets_record, List.length_append, List.length_flatMap, Word.length_toBytes]
    omega

/-! ## What is decoded -/

namespace Registry

open Decoder

/-- A vector has no more items than there are octets behind its number, as no item is empty on the wire. -/
theorem le_length_of_decodeShape_vector {levels : Nat} {param : String} {item : VectorItem}
    {start behind next : Reader} {count : Nat} {v : Value} (hcount : start.word 4 = .ok (count, behind))
    (h : (r.decodeShape (r.decodeContainer levels) param (.vector item)).run start = .ok (v, next)) :
    count ≤ behind.rest.length := by
  have hrecord (m : Message) (hm : r.Holds levels m) : ∃ c slots, m = .record c slots := by
    obtain ⟨c, slots, rfl, _⟩ := hm.exists_record
    exact ⟨c, slots, rfl⟩
  obtain ⟨m, hm, hpass, rfl⟩ := (decodeShape_reads (decodeContainer_reads levels) hrecord _ _ _ _ _).mp h
  cases hm with
  | segment hs => cases hs
  | @sequence _ items hlt hitems =>
    rw [Message.octets_sequence] at hpass
    obtain ⟨mid, hnumber, hrest⟩ := Reader.passes_append.mp hpass
    have hread : start.word 4 = .ok (items.length, mid) :=
      Reader.word_eq_ok_iff.mpr ⟨_, Word.length_toBytes 4 _, hnumber, (Word.ofBytes_toBytes hlt).symm⟩
    obtain ⟨rfl, rfl⟩ : items.length = count ∧ mid = behind := by
      rw [hread] at hcount
      cases hcount
      exact ⟨rfl, rfl⟩
    have hone : items.length ≤ (items.map fun m => m.octets.length).sum := by
      rw [← List.length_map (fun m : Message => m.octets.length)]
      refine List.length_le_sum_of_one_le _ fun n hn => ?_
      obtain ⟨m, hm, rfl⟩ := List.mem_map.mp hn
      exact (hitems m hm).octets_pos
    rw [hrest.1, List.length_append, List.length_flatMap]
    omega

/-- Decoding that passes `n` octets gives no more than `n` octets can pay for, at four for each object and one for each
element of a vector of primitive values; this counts all that was read, also where an entry of the same name replaced
it. A vector whose number promises more elements than there are octets behind it is refused, whatever they are. -/
theorem decodeFrom_paid {buffer : Bytes} {offset : Nat} {v : Value} {place : Reader}
    (h : r.decodeFrom.run (.atOffset buffer offset) = .ok (v, place)) :
    (∃ n, offset + n ≤ buffer.length ∧ place = .atOffset buffer (offset + n) ∧ 4 * v.objects + v.elements ≤ n ∧
      ∃ m, r.Spells m ((buffer.drop offset).take n) v ∧ v.objects ≤ m.records.length ∧ v.elements ≤ m.elements ∧
        4 * m.records.length + m.elements ≤ n) ∧
      ∀ levels param item (start behind : Reader) count, start.word 4 = .ok (count, behind) →
        behind.rest.length < count →
        ∃ failure, (r.decodeShape (r.decodeContainer levels) param (.vector item)).run start = .error failure := by
  obtain ⟨n, hend, hplace, m, hm⟩ := exists_spells h
  have hlength : m.octets.length = n := by
    rw [hm.octets_eq, List.length_take, List.length_drop]
    omega
  have hcost : 4 * m.records.length + m.elements ≤ n := hlength ▸ hm.holds.cost_le
  have hobjects : v.objects ≤ m.records.length := hm.value_eq ▸ m.objects_value_le
  have helements : v.elements ≤ m.elements := hm.value_eq ▸ m.elements_value_le
  refine ⟨⟨n, hend, hplace, by omega, m, hm, hobjects, helements, hcost⟩, ?_⟩
  intro levels param item start behind count hcount hfew
  cases hrun : (r.decodeShape (r.decodeContainer levels) param (.vector item)).run start with
  | error failure => exact ⟨failure, rfl⟩
  | ok read => exact absurd (le_length_of_decodeShape_vector hcount hrun) (Nat.not_le_of_lt hfew)

/-- A container of numbers and of containers of its own type. -/
def track : Container :=
  ⟨6, "track", "Track", ["Shape"],
    [.ofShape "points" (.vector (.primitive .short)), .ofShape "parts" (.vector (.container "Track"))], []⟩

/-- The registry of tracks. -/
def tracks : Registry := .ofNodup [track] ⟨true, 1⟩ (by decide) (by decide)

/-- A track of two points with a part that is empty. -/
def trackOctets : Bytes :=
  [6, 0, 0, 0, 2, 0, 0, 0, 1, 0, 2, 0, 1, 0, 0, 0, 6, 0, 0, 0, 0, 0, 0, 0, 0, 0, 0, 0]

/-- Two objects and two points take 10 of the 28 octets at least, and where the number of points is made the largest
there is, nothing is read. -/
theorem decodeFrom_paid_track :
    ∃ v, tracks.decodeFrom.run (.atOffset trackOctets 0) = .ok (v, .atOffset trackOctets 28) ∧
      v.objects = 2 ∧ v.elements = 2 ∧ 4 * v.objects + v.elements ≤ 28 ∧
      ∃ failure, (tracks.decodeShape (tracks.decodeContainer 1) "points" (.vector (.primitive .short))).run
        (.atOffset [255, 255, 255, 255, 1, 0, 2, 0] 0) = .error failure := by
  let part : Value := .object [("_name", .string "track"), ("_type", .string "Track"),
    ("_traits", .array [.string "Shape"]), ("points", .array []), ("parts", .array [])]
  let whole : Value := .object [("_name", .string "track"), ("_type", .string "Track"),
    ("_traits", .array [.string "Shape"]), ("points", .array [.int 1, .int 2]), ("parts", .array [part])]
  have hrun : tracks.decodeFrom.run (.atOffset trackOctets 0) = .ok (whole, .atOffset trackOctets 28) := rfl
  obtain ⟨⟨n, _, hplace, hpaid, _⟩, hrefused⟩ := decodeFrom_paid hrun
  obtain rfl : n = 28 := by
    have hstop := Reader.eq_of_atOffset_eq hplace
    omega
  exact ⟨whole, hrun, rfl, rfl, hpaid, hrefused 1 "points" (.primitive .short) _ _ _ rfl (by decide)⟩

end Registry

end SchemaWire
