import SchemaWire.Proofs.Reencoding

/-!
# Keys of decoded objects

An object that is decoded is meant to begin with its three tags and to go on with the params that are there.
The keys of both share one list, so this is what happens exactly if no present param has the name of a tag or
of another one (`decodeFrom_keys`). Otherwise the later entry takes the place of the earlier one.
-/

namespace SchemaWire

/-! ## Records of a message -/

mutual

/-- The records of a message, each before what it nests. -/
def Message.records : Message → List (Container × List Slot)
  | .segment _ => []
  | .sequence items => itemRecords items
  | .record c slots => (c, slots) :: slotRecords slots
termination_by structural m => m

/-- The records of the items of a vector. -/
def itemRecords : List Message → List (Container × List Slot)
  | [] => []
  | m :: rest => m.records ++ itemRecords rest
termination_by structural items => items

/-- The records of a param. -/
def Slot.records : Slot → List (Container × List Slot)
  | .absent _ => []
  | .present _ m => m.records
termination_by structural slot => slot

/-- The records of the params of a record. -/
def slotRecords : List Slot → List (Container × List Slot)
  | [] => []
  | slot :: rest => slot.records ++ slotRecords rest
termination_by structural slots => slots

end

variable {r : Registry} {c : Container} {slots : List Slot}

theorem mem_itemRecords {items : List Message} (h : (c, slots) ∈ itemRecords items) :
    ∃ m ∈ items, (c, slots) ∈ m.records := by
  induction items with
  | nil => cases h
  | cons m rest ih =>
    rcases List.mem_append.mp h with h | h
    · exact ⟨m, by simp, h⟩
    · obtain ⟨m, hm, h⟩ := ih h
      exact ⟨m, by simp [hm], h⟩

theorem mem_slotRecords {all : List Slot} (h : (c, slots) ∈ slotRecords all) :
    ∃ p m, Slot.present p m ∈ all ∧ (c, slots) ∈ m.records := by
  induction all with
  | nil => cases h
  | cons slot rest ih =>
    rcases List.mem_append.mp h with h | h
    · cases slot with
      | absent p => cases h
      | present p m => exact ⟨p, m, by simp, h⟩
    · obtain ⟨p, m, hm, h⟩ := ih h
      exact ⟨p, m, by simp [hm], h⟩

theorem Message.Fits.exists_of_mem_records {messages : Message → Prop} {shape : Shape} {m : Message}
    (hm : m.Fits r messages shape) (h : (c, slots) ∈ m.records) :
    ∃ nested, messages nested ∧ (c, slots) ∈ nested.records := by
  induction hm with
  | segment => cases h
  | sequence _ _ ih =>
    obtain ⟨m, hm, h⟩ := mem_itemRecords h
    exact ih m hm h
  | record _ hnested => exact ⟨_, hnested, h⟩

/-- The records of a message of the registry are of its containers, and hold their params in order. -/
theorem Registry.Holds.of_mem_records {levels : Nat} {m : Message} (hm : r.Holds levels m)
    (h : (c, slots) ∈ m.records) : c ∈ r.containers ∧ slots.map Slot.param = c.params := by
  induction levels generalizing m with
  | zero => exact hm.elim
  | succ levels ih =>
    obtain ⟨d, all, rfl, hd, hparams, hfits⟩ := hm
    rcases List.mem_cons.mp h with heq | h
    · cases heq
      exact ⟨hd, hparams⟩
    · obtain ⟨p, m, hslot, h⟩ := mem_slotRecords h
      obtain ⟨shape, _, hm⟩ := hfits _ hslot
      obtain ⟨nested, hnested, h⟩ := hm.exists_of_mem_records h
      exact ih hnested h

/-! ## Objects of a value -/

/-- The values that a value is made of, itself included. -/
inductive Value.Within : Value → Value → Prop
  | self {v : Value} : Within v v
  | item {u w : Value} {items : List Value} (hw : w ∈ items) (h : Within u w) : Within u (.array items)
  | field {u w : Value} {key : String} {fields : List (String × Value)} (hw : (key, w) ∈ fields) (h : Within u w) :
    Within u (.object fields)

/-- What an object should hold: its tags, and then the params that are there. -/
def Registry.entries (c : Container) (slots : List Slot) : List (String × Value) :=
  tags c ++ slots.filterMap Slot.entry?

theorem Segment.not_within_value {s : Segment} {fields : List (String × Value)} :
    ¬(Value.object fields).Within s.value := by
  intro h
  generalize hv : s.value = v at h
  cases s with
  | number type octets => cases type <;> subst hv <;> cases h
  | _ => subst hv; cases h

theorem not_within_tags {key : String} {w : Value} {fields : List (String × Value)}
    (hw : (key, w) ∈ Registry.tags c) : ¬(Value.object fields).Within w := by
  intro h
  simp only [Registry.tags, List.mem_cons, Prod.mk.injEq, List.not_mem_nil, or_false] at hw
  obtain ⟨_, rfl⟩ | ⟨_, rfl⟩ | ⟨_, rfl⟩ := hw
  · cases h
  · cases h
  · cases h with
    | item hw h =>
      obtain ⟨trait, _, rfl⟩ := List.mem_map.mp hw
      cases h

mutual

/-- Every object of what is read from a message is that of one of its records. -/
theorem Message.exists_record_of_within {fields : List (String × Value)} :
    (m : Message) → (Value.object fields).Within m.value →
      ∃ c slots, (c, slots) ∈ m.records ∧ fields = Fields.ofList (Registry.entries c slots)
  | .segment _, h => absurd h Segment.not_within_value
  | .sequence items, h => by
    rw [Message.value] at h
    cases h with
    | item hw h => exact exists_itemRecord_of_within items hw h
  | .record c slots, h => by
    rw [Message.value] at h
    cases h with
    | self => exact ⟨c, slots, List.mem_cons_self, by rw [slotEntries_eq, Registry.entries]⟩
    | field hw h =>
      rcases List.mem_append.mp (Fields.mem_of_mem_ofList hw) with hw | hw
      · exact absurd h (not_within_tags hw)
      · obtain ⟨d, inner, hmem, hfields⟩ := exists_slotRecord_of_within slots hw h
        exact ⟨d, inner, List.mem_cons_of_mem _ hmem, hfields⟩

theorem exists_itemRecord_of_within {fields : List (String × Value)} {w : Value} :
    (items : List Message) → w ∈ itemValues items → (Value.object fields).Within w →
      ∃ c slots, (c, slots) ∈ itemRecords items ∧ fields = Fields.ofList (Registry.entries c slots)
  | [], hw, _ => absurd hw List.not_mem_nil
  | m :: rest, hw, h => by
    rcases List.mem_cons.mp hw with rfl | hw
    · obtain ⟨c, slots, hmem, hfields⟩ := m.exists_record_of_within h
      exact ⟨c, slots, List.mem_append_left _ hmem, hfields⟩
    · obtain ⟨c, slots, hmem, hfields⟩ := exists_itemRecord_of_within rest hw h
      exact ⟨c, slots, List.mem_append_right _ hmem, hfields⟩

theorem exists_slotRecord_of_within {fields : List (String × Value)} {key : String} {w : Value} :
    (slots : List Slot) → (key, w) ∈ slotEntries slots → (Value.object fields).Within w →
      ∃ c inner, (c, inner) ∈ slotRecords slots ∧ fields = Fields.ofList (Registry.entries c inner)
  | [], hw, _ => absurd hw List.not_mem_nil
  | .absent _ :: rest, hw, h => exists_slotRecord_of_within rest hw h
  | .present _ m :: rest, hw, h => by
    rcases List.mem_cons.mp hw with heq | hw
    · cases heq
      obtain ⟨c, inner, hmem, hfields⟩ := m.exists_record_of_within h
      exact ⟨c, inner, List.mem_append_left _ hmem, hfields⟩
    · obtain ⟨c, inner, hmem, hfields⟩ := exists_slotRecord_of_within rest hw h
      exact ⟨c, inner, List.mem_append_right _ hmem, hfields⟩

end

namespace Registry

/-- Every object that is decoded, at the root or below, was read from a record of a container, with the
params of the container in order. It holds the tags and then the params that are there, each under its own
key, exactly if the names of all these are distinct. -/
theorem decodeFrom_keys {buffer : Bytes} {offset : Nat} {v : Value} {place : Reader}
    (h : r.decodeFrom.run (.atOffset buffer offset) = .ok (v, place)) :
    ∃ n m, place = .atOffset buffer (offset + n) ∧ r.Spells m ((buffer.drop offset).take n) v ∧
      ∀ fields, (Value.object fields).Within v →
        ∃ c slots, (c, slots) ∈ m.records ∧ c ∈ r.containers ∧ slots.map Slot.param = c.params ∧
          fields = Fields.ofList (entries c slots) ∧
          (fields = entries c slots ↔ (Fields.names (entries c slots)).Nodup) := by
  obtain ⟨n, _, hplace, m, hm⟩ := exists_spells h
  refine ⟨n, m, hplace, hm, fun fields hwithin => ?_⟩
  rw [← hm.value_eq] at hwithin
  obtain ⟨c, slots, hmem, rfl⟩ := m.exists_record_of_within hwithin
  obtain ⟨hc, hparams⟩ := hm.holds.of_mem_records hmem
  exact ⟨c, slots, hmem, hc, hparams, rfl, Fields.ofList_eq_self_iff⟩

/-- A container of a number that has the name of a tag. -/
def marked : Container :=
  ⟨5, "mark", "Mark", [], [.ofShape "_type" (.primitive .uint)], []⟩

/-- The registry of marked containers. -/
def marks : Registry := .ofNodup [marked] ⟨true, 0⟩ (by decide) (by decide)

/-- The number takes the place of the type name, so the object holds less than its entries. -/
theorem decodeFrom_keys_marked :
    marks.decodeFrom.run (.atOffset [5, 0, 0, 0, 7, 0, 0, 0] 0) =
        .ok (.object [("_name", .string "mark"), ("_type", .int 7), ("_traits", .array [])],
          .atOffset [5, 0, 0, 0, 7, 0, 0, 0] 8) ∧
      ∃ slots, slots.map Slot.param = marked.params ∧
        Fields.ofList (entries marked slots) = [("_name", .string "mark"), ("_type", .int 7), ("_traits", .array [])] ∧
        Fields.ofList (entries marked slots) ≠ entries marked slots := by
  have hrun : marks.decodeFrom.run (.atOffset [5, 0, 0, 0, 7, 0, 0, 0] 0) =
      .ok (.object [("_name", .string "mark"), ("_type", .int 7), ("_traits", .array [])],
        .atOffset [5, 0, 0, 0, 7, 0, 0, 0] 8) := rfl
  obtain ⟨_, _, _, _, h⟩ := decodeFrom_keys hrun
  obtain ⟨c, slots, _, hc, hparams, hfields, _⟩ := h _ .self
  obtain rfl : c = marked := by simpa [marks] using hc
  refine ⟨hrun, slots, hparams, hfields.symm, ?_⟩
  rw [← hfields]
  intro heq
  simp [entries, tags] at heq

end Registry

end SchemaWire
