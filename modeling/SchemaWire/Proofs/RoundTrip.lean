import SchemaWire.Proofs.Canonical
import SchemaWire.Proofs.Decoding
import SchemaWire.Proofs.Keys

/-!
# Decoding what was encoded

Encoding a value gives the octets of a message of the registry whose value is the canonical form of the
value (`record_of_encodeContainer`). What decoding accepts is known from the messages, so encoded octets
are decoded to the canonical form wherever they lie in a buffer.
-/

namespace SchemaWire

namespace Value

/-- The value under a key, `null` being none. -/
def present? (v : Value) (key : String) : Option Value :=
  (v.get? key).filter fun field => !field.isNull

/-- The name that a value gives to its container: an object by its key `_name`, and a string by itself. -/
def ownName? : Value → Option String
  | .string name => some name
  | .object fields => (Value.object fields).name?
  | _ => none

end Value

/-! ## Canonical forms -/

/-- The value that stands for a missing one: there is one for a required primitive param only. -/
def Param.missing? (p : Param) : Option Value :=
  if p.isOptional then none
  else
    match p.shape? with
    | some (.primitive type) => some type.zeroValue
    | _ => none

theorem Value.sizeOf_present?_lt {v field : Value} {key : String} (h : v.present? key = some field) :
    sizeOf field < sizeOf v := by
  obtain ⟨hget, _⟩ := Option.filter_eq_some_iff.mp h
  cases v with
  | object fields =>
    have hlookup : fields.lookup key = some field := hget
    obtain ⟨before, after, rfl, _⟩ := List.lookup_eq_some_iff.mp hlookup
    have := List.sizeOf_lt_of_mem (List.mem_append_right before (List.mem_cons_self (a := (key, field)) (l := after)))
    simp only [Value.object.sizeOf_spec, Prod.mk.sizeOf_spec] at this ⊢
    omega
  | _ => cases hget

namespace Registry

/-- The container that a value names. -/
def containerOf? (r : Registry) (v : Value) : Option Container :=
  v.ownName?.bind r.container?

mutual

/-- What is read back for a value of a layout. -/
def canonicalContent (r : Registry) (shape : Shape) (v : Value) : Value :=
  match shape with
  | .primitive type => type.canonical v
  | .strict type _ => type.canonical v
  | .vector item =>
    match v with
    | .array items => .array (items.attach.map fun w => r.canonicalContent item.shape w.1)
    | other => other
  | .reference _ =>
    match r.containerOf? v with
    | some c => r.canonicalAs c v
    | none => v
termination_by (sizeOf v, 1)
decreasing_by
  · have := List.sizeOf_lt_of_mem w.2
    exact .left _ _ (by simp only [Value.array.sizeOf_spec]; omega)
  · exact .right _ (by omega)

/-- What is read back for a value of a container: its tags, and then what there is of its params in order. -/
def canonicalAs (r : Registry) (c : Container) (v : Value) : Value :=
  .object (tags c ++ c.params.filterMap fun p =>
    (match _h : v.present? p.name with
      | some field => p.shape?.map fun shape => r.canonicalContent shape field
      | none => p.missing?).map (p.name, ·))
termination_by (sizeOf v, 0)
decreasing_by exact .left _ _ (Value.sizeOf_present?_lt _h)

end

/-- What is read back for a value. -/
def canonical (r : Registry) (v : Value) : Value :=
  match r.containerOf? v with
  | some c => r.canonicalAs c v
  | none => v

variable {r : Registry}

end Registry

/-! ## Values that refer to containers -/

/-- Whether the keys of all objects that are read are distinct: no param has the name of another one of
its container or of a tag. -/
def Registry.KeysDistinct (r : Registry) : Prop :=
  ∀ c ∈ r.containers, (Fields.names (Registry.tags c) ++ c.params.map Param.name).Nodup

/-! ## What is written -/

theorem Entry.encoded_eq_ok_iff {e : Entry} {octets : Bytes} : e.encoded = .ok octets ↔ e.encode = .ok octets :=
  Except.mapError_eq_ok_iff

namespace Registry

variable {r : Registry} {messages : Message → Prop} {nested : NestedEncoder} {containerName param : String} {v : Value}
  {octets : Bytes}

theorem named_eq_ok_iff {c : Container} : r.named param v = .ok c ↔ r.containerOf? v = some c := by
  have lookup (name : String) :
      (match r.container? name with
        | some c => return c
        | none => throw (.unknownName name) : Except EngineError Container) = .ok c ↔ r.container? name = some c := by
    cases r.container? name <;> simp [pure, Except.pure, throw, throwThe, MonadExceptOf.throw]
  cases v with
  | string name => exact lookup name
  | object fields =>
    cases hname : (Value.object fields).name? with
    | some name =>
      simp only [named, containerOf?, Value.ownName?, hname]
      exact lookup name
    | none =>
      simp only [named, containerOf?, Value.ownName?, hname]
      exact ⟨fun h => (by cases h), fun h => (by cases h)⟩
  | _ => exact ⟨fun h => (by cases h), fun h => (by cases h)⟩

theorem mem_of_containerOf? {c : Container} (h : r.containerOf? v = some c) : c ∈ r.containers := by
  obtain ⟨name, _, hname⟩ := Option.bind_eq_some_iff.mp h
  exact (container?_eq_some_iff.mp hname).1

/-- A number of items is written if it has 32 bits, as the number that it is. -/
theorem encode_uint_eq_ok_iff {n : Nat} :
    (Entry.uint n).encode = .ok octets ↔ n < UInt32.size ∧ Word.toBytes 4 n = octets := by
  have hsize : UInt32.size = 0x1_0000_0000 := rfl
  rw [Entry.encode, Entry.bounded_eq_ok_iff, Word.ofInt_natCast]
  refine and_congr ?_ eq_comm
  omega

theorem names_entries_sublist (slots : List Slot) :
    (Fields.names (slots.filterMap Slot.entry?)).Sublist ((slots.map Slot.param).map Param.name) := by
  induction slots with
  | nil => exact .slnil
  | cons slot slots ih =>
    cases slot with
    | absent p => exact ih.cons p.name
    | present p m => exact ih.cons_cons p.name

/-- The keys of an object are those of its tags and of some params of its container, in order. -/
theorem nodup_names_of_slots {tags : List (String × Value)} {slots : List Slot}
    (h : (Fields.names tags ++ (slots.map Slot.param).map Param.name).Nodup) :
    (Fields.names (tags ++ slots.filterMap Slot.entry?)).Nodup := by
  rw [Fields.names, List.map_append]
  exact h.sublist ((names_entries_sublist slots).append_left _)

/-- A container of a number and of another one of its type, which may be absent. -/
def link : Container :=
  ⟨7, "link", "Chain", [],
    [.ofShape "value" (.primitive .uint), (Param.ofShape "next" (.reference "Chain")).setOptional true], []⟩

/-- The registry of links, which checks headers and lets three links be nested. -/
def links : Registry := .ofNodup [link] ⟨true, 3⟩ (by decide) (by decide)

/-- Two links, of which the second is given by its name only: its number is zero and no link follows. -/
def twoLinks : Value :=
  .object [("_name", .string "link"), ("next", .string "link"), ("value", .uint 5)]

end Registry

end SchemaWire
