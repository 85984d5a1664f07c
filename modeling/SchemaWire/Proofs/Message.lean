import SchemaWire.Proofs.Segment

/-!
# Messages

A message is the tree that decoding goes through: segments at its leaves, and above them the records and
sequences that they make up. `Registry.Holds` says which messages a registry knows. Decoding succeeds
exactly on the octets of these, with their values, so a fact about what is decoded is a fact about
messages.
-/

namespace SchemaWire

mutual

/-- What a param takes off the wire. -/
inductive Message
  | segment (s : Segment)
  /-- The items of a vector, after their number. -/
  | sequence (items : List Message)
  /-- The params of a container, after its id. -/
  | record (c : Container) (slots : List Slot)

/-- A param of a record: absent, or there with a message. -/
inductive Slot
  | absent (p : Param)
  | present (p : Param) (m : Message)

end

namespace Slot

/-- The param of a slot. -/
def param : Slot → Param
  | absent p => p
  | present p _ => p

end Slot

/-- The segment of a number of 32 bits. -/
def Segment.uint (n : Nat) : Segment :=
  .number .uint (Word.toBytes 4 n)

/-! ## Segments, values and records -/

mutual

/-- The segments of a message, in their order on the wire. -/
def Message.segments : Message → List Segment
  | .segment s => [s]
  | .sequence items => .uint items.length :: itemSegments items
  | .record c slots => .uint c.id.toNat :: slotSegments slots
termination_by structural m => m

/-- The segments of the items of a vector. -/
def itemSegments : List Message → List Segment
  | [] => []
  | m :: rest => m.segments ++ itemSegments rest
termination_by structural items => items

/-- The segments of a param. Only an optional one has a truth value in front. -/
def Slot.segments : Slot → List Segment
  | .absent _ => [.bool false]
  | .present p m => (if p.isOptional then [.bool true] else []) ++ m.segments
termination_by structural slot => slot

/-- The segments of the params of a record. -/
def slotSegments : List Slot → List Segment
  | [] => []
  | slot :: rest => slot.segments ++ slotSegments rest
termination_by structural slots => slots

end

mutual

/-- What is read from a message. -/
def Message.value : Message → Value
  | .segment s => s.value
  | .sequence items => .array (itemValues items)
  | .record c slots => .object (Fields.ofList (Registry.tags c ++ slotEntries slots))
termination_by structural m => m

/-- What is read from the items of a vector. -/
def itemValues : List Message → List Value
  | [] => []
  | m :: rest => m.value :: itemValues rest
termination_by structural items => items

/-- What is read from a param that is there, under its name. -/
def Slot.entry? : Slot → Option (String × Value)
  | .absent _ => none
  | .present p m => some (p.name, m.value)
termination_by structural slot => slot

/-- What is read from the params of a record that are there. -/
def slotEntries : List Slot → List (String × Value)
  | [] => []
  | slot :: rest => slot.entry?.toList ++ slotEntries rest
termination_by structural slots => slots

end

/-- The octets of a message. -/
def Message.octets (m : Message) : Bytes :=
  m.segments.flatMap Segment.octets

/-- The octets of a param. -/
def Slot.octets (slot : Slot) : Bytes :=
  slot.segments.flatMap Segment.octets

theorem itemSegments_eq (items : List Message) : itemSegments items = items.flatMap Message.segments := by
  induction items with
  | nil => rfl
  | cons m rest ih => rw [itemSegments, ih, List.flatMap_cons]

theorem slotSegments_eq (slots : List Slot) : slotSegments slots = slots.flatMap Slot.segments := by
  induction slots with
  | nil => rfl
  | cons slot rest ih => rw [slotSegments, ih, List.flatMap_cons]

theorem itemValues_eq (items : List Message) : itemValues items = items.map Message.value := by
  induction items with
  | nil => rfl
  | cons m rest ih => rw [itemValues, ih, List.map_cons]

theorem slotEntries_eq (slots : List Slot) : slotEntries slots = slots.filterMap Slot.entry? := by
  induction slots with
  | nil => rfl
  | cons slot rest ih => cases h : slot.entry? <;> simp [slotEntries, ih, h]

namespace Message

@[simp] theorem octets_segment (s : Segment) : (segment s).octets = s.octets := by
  simp [octets, segments]

@[simp] theorem octets_sequence (items : List Message) :
    (sequence items).octets = Word.toBytes 4 items.length ++ items.flatMap octets := by
  simp only [octets, segments, itemSegments_eq, List.flatMap_cons, List.flatMap_assoc]
  rfl

@[simp] theorem octets_record (c : Container) (slots : List Slot) :
    (record c slots).octets = Word.toBytes 4 c.id.toNat ++ slots.flatMap Slot.octets := by
  simp only [octets, segments, slotSegments_eq, List.flatMap_cons, List.flatMap_assoc]
  rfl

@[simp] theorem value_segment (s : Segment) : (segment s).value = s.value := rfl

@[simp] theorem value_sequence (items : List Message) : (sequence items).value = .array (items.map value) := by
  rw [value, itemValues_eq]

@[simp] theorem value_record (c : Container) (slots : List Slot) :
    (record c slots).value = .object (Fields.ofList (Registry.tags c ++ slots.filterMap Slot.entry?)) := by
  rw [value, slotEntries_eq]

end Message

/-- What is read from a param, if it is there. -/
def Slot.value? : Slot → Option Value
  | .absent _ => none
  | .present _ m => some m.value

theorem Slot.entries_cons (slot : Slot) (slots : List Slot) : (slot :: slots).filterMap Slot.entry? =
    slot.value?.toList.map (slot.param.name, ·) ++ slots.filterMap Slot.entry? := by
  cases slot <;> rfl

@[simp] theorem Slot.octets_absent (p : Param) : (Slot.absent p).octets = [0] := rfl

@[simp] theorem Slot.octets_present (p : Param) (m : Message) :
    (Slot.present p m).octets = (if p.isOptional then [1] else []) ++ m.octets := by
  simp only [octets, segments, Message.octets]
  split <;> simp [Segment.octets]

/-! ## Messages of a registry -/

/-- The layout of the items of a vector. -/
def VectorItem.shape : VectorItem → Shape
  | .primitive type => .primitive type
  | .container reference => .reference reference

/-- Whether a header is one that a reference may lead to. Where it leads nowhere, any is. -/
def Registry.MayLeadTo (r : Registry) (reference : String) (id : UInt32) : Prop :=
  r.possibleIds reference ≠ [] → id ∈ r.possibleIds reference

/-- The messages of a layout. Headers below a reference are free without structural validation. -/
inductive Message.Fits (r : Registry) (nested : Message → Prop) : Shape → Message → Prop
  | segment {shape : Shape} {s : Segment} (h : s.Fits shape) : Fits r nested shape (.segment s)
  | sequence {item : VectorItem} {items : List Message} (hcount : items.length < UInt32.size)
    (hitems : ∀ m ∈ items, Fits r nested item.shape m) : Fits r nested (.vector item) (.sequence items)
  | record {reference : String} {c : Container} {slots : List Slot}
    (hheader : r.config.structuralValidation = true → r.MayLeadTo reference c.id)
    (hnested : nested (.record c slots)) : Fits r nested (.reference reference) (.record c slots)

/-- Whether a slot fits its param: only optional params are absent. -/
def Slot.Fits (r : Registry) (nested : Message → Prop) : Slot → Prop
  | .absent p => p.isOptional = true
  | .present p m => ∃ shape, p.shape? = some shape ∧ m.Fits r nested shape

/-- The messages of the registry that have at most `levels` levels. -/
def Registry.Holds (r : Registry) : (levels : Nat) → Message → Prop
  | 0, _ => False
  | levels + 1, m =>
    ∃ c slots, m = .record c slots ∧ c ∈ r.containers ∧ slots.map Slot.param = c.params ∧
      ∀ slot ∈ slots, slot.Fits r (r.Holds levels)

theorem Registry.Holds.exists_record {r : Registry} {levels : Nat} {m : Message} (h : r.Holds levels m) :
    ∃ c slots, m = .record c slots ∧ c ∈ r.containers ∧ slots.map Slot.param = c.params := by
  cases levels with
  | zero => exact h.elim
  | succ levels =>
    obtain ⟨c, slots, rfl, hc, hparams, _⟩ := h
    exact ⟨c, slots, rfl, hc, hparams⟩

end SchemaWire
