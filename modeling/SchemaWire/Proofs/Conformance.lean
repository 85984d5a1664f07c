import SchemaWire.Proofs.Locality
import SchemaWire.Proofs.Reencoding

/-!
# Decoded values conform to the model

Octets may come from anywhere, but with structural validation what is decoded from them has the form that the
containers declare, at every depth: each value is one of its layout, each object is that of a container which its
reference leads to, and no object lies deeper than the settings allow (`decode_conforms`). Both facts are read off
the message that was decoded.
-/

namespace SchemaWire

/-! ## Values of a layout -/

/-- Whether a text is that of 64 bits: `0x` and sixteen digits, the letters among them small. -/
def IsLongText (text : String) : Prop :=
  ∃ digits, text.toList = '0' :: 'x' :: digits ∧ digits.length = 16 ∧ ∀ c ∈ digits, c ∈ "0123456789abcdef".toList

/-- Whether a value is one of a primitive type. -/
def Primitive.Admits : Primitive → Value → Prop
  | .int, .int n => -0x8000_0000 ≤ n.toInt ∧ n.toInt ≤ 0x7FFF_FFFF
  | .uint, .int n => 0 ≤ n.toInt ∧ n.toInt ≤ 0xFFFF_FFFF
  | .short, .int n => -0x8000 ≤ n.toInt ∧ n.toInt ≤ 0x7FFF
  | .ushort, .int n => 0 ≤ n.toInt ∧ n.toInt ≤ 0xFFFF
  | .long, .string text => IsLongText text
  | .ulong, .string text => IsLongText text
  | .float, .float _ => True
  | .double, .float _ => True
  | .bool, .bool _ => True
  | .string, .string _ => True
  | .bytes, .bytes _ => True
  | _, _ => False

/-- Whether a container is what a reference asks for: the container of this name if there is one, and otherwise
one of this type or with this trait if there is any. -/
structure Registry.LeadsTo (r : Registry) (reference : String) (c : Container) : Prop where
  named : ∀ d ∈ r.containers, d.name = reference → c = d
  related : (∀ d ∈ r.containers, d.name ≠ reference) →
    (∃ d ∈ r.containers, d.typeName = reference ∨ reference ∈ d.traits) → c.typeName = reference ∨ reference ∈ c.traits

mutual

/-- The values of a layout. A text of exact length may have any length, as decoding does not measure it. -/
inductive Shape.Conforms (r : Registry) : Shape → Value → Prop
  | primitive {type : Primitive} {v : Value} (h : type.Admits v) : Shape.Conforms r (.primitive type) v
  | text {size : UInt32} {text : String} : Shape.Conforms r (.strict .string size) (.string text)
  | octets {size : UInt32} {octets : Bytes} (h : octets.length = size.toNat) :
    Shape.Conforms r (.strict .bytes size) (.bytes octets)
  | vector {item : VectorItem} {items : List Value} (h : ∀ v ∈ items, Shape.Conforms r item.shape v) :
    Shape.Conforms r (.vector item) (.array items)
  | reference {reference : String} {c : Container} {v : Value} (hc : c ∈ r.containers)
    (hleads : r.LeadsTo reference c) (h : Container.Conforms r c v) : Shape.Conforms r (.reference reference) v

/-- The objects of a container: they hold its tags and each required param, no key but those of tags and params, and
under the name of a param a value of its layout. -/
inductive Container.Conforms (r : Registry) : Container → Value → Prop
  | object {c : Container} {fields : Fields Value}
    (htags : ∀ key value, (key, value) ∈ Registry.tags c → fields.get? key = some value)
    (hkeys : ∀ key ∈ fields.names, key ∈ Fields.names (Registry.tags c) ∨ key ∈ c.params.map Param.name)
    (hrequired : ∀ p ∈ c.params, p.isOptional = false → (fields.get? p.name).isSome = true)
    (hshaped : ∀ p ∈ c.params, (fields.get? p.name).isSome = true → p.shape?.isSome = true)
    (hparams : ∀ p ∈ c.params, ∀ v shape, fields.get? p.name = some v → p.shape? = some shape →
      Shape.Conforms r shape v) :
    Container.Conforms r c (.object fields)

end

/-! ## Levels of a value -/

mutual

/-- The number of levels of objects in a value. -/
def Value.levels : Value → Nat
  | .array items => itemLevels items
  | .object fields => fieldLevels fields + 1
  | _ => 0

/-- The largest number of levels among items. -/
def itemLevels : List Value → Nat
  | [] => 0
  | v :: rest => max v.levels (itemLevels rest)

/-- The largest number of levels among fields. -/
def fieldLevels : List (String × Value) → Nat
  | [] => 0
  | (_, v) :: rest => max v.levels (fieldLevels rest)

end

theorem itemLevels_le_iff {items : List Value} {n : Nat} : itemLevels items ≤ n ↔ ∀ v ∈ items, v.levels ≤ n := by
  induction items with
  | nil => simp [itemLevels]
  | cons v rest ih => simp [itemLevels, ih]

theorem fieldLevels_le_iff {fields : List (String × Value)} {n : Nat} :
    fieldLevels fields ≤ n ↔ ∀ key v, (key, v) ∈ fields → v.levels ≤ n := by
  induction fields with
  | nil => simp [fieldLevels]
  | cons entry rest ih =>
    obtain ⟨key, v⟩ := entry
    simp only [fieldLevels, Nat.max_le, ih, List.mem_cons, Prod.mk.injEq]
    constructor
    · rintro ⟨hv, hrest⟩ k w (⟨_, rfl⟩ | hmem)
      · exact hv
      · exact hrest k w hmem
    · intro h
      exact ⟨h key v (.inl ⟨rfl, rfl⟩), fun k w hmem => h k w (.inr hmem)⟩

theorem Segment.levels_value (s : Segment) : s.value.levels = 0 := by
  cases s with
  | number type octets => cases type <;> rfl
  | _ => rfl

theorem levels_of_mem_tags {c : Container} {key : String} {v : Value} (h : (key, v) ∈ Registry.tags c) :
    v.levels = 0 := by
  simp only [Registry.tags, List.mem_cons, Prod.mk.injEq, List.not_mem_nil, or_false] at h
  rcases h with ⟨_, rfl⟩ | ⟨_, rfl⟩ | ⟨_, rfl⟩
  · rfl
  · rfl
  · apply Nat.le_zero.mp
    rw [Value.levels, itemLevels_le_iff]
    intro v hv
    obtain ⟨trait, _, rfl⟩ := List.mem_map.mp hv
    rfl

variable {r : Registry} {messages : Message → Prop} {shape : Shape} {m : Message}

theorem Message.Fits.levels_le {n : Nat} (hmessages : ∀ m, messages m → m.value.levels ≤ n)
    (h : m.Fits r messages shape) : m.value.levels ≤ n := by
  induction h with
  | @segment _ s _ =>
    rw [Message.value_segment, s.levels_value]
    exact Nat.zero_le n
  | sequence _ _ ih =>
    rw [Message.value_sequence, Value.levels, itemLevels_le_iff]
    intro v hv
    obtain ⟨m, hm, rfl⟩ := List.mem_map.mp hv
    exact ih m hm
  | record _ hnested => exact hmessages _ hnested

/-- A message has as many levels as are allowed, and what it nests has one less. -/
theorem Registry.Holds.levels_le {levels : Nat} (h : r.Holds levels m) : m.value.levels ≤ levels := by
  induction levels generalizing m with
  | zero => exact h.elim
  | succ levels ih =>
    obtain ⟨c, slots, rfl, _, _, hfits⟩ := h
    rw [Message.value_record, Value.levels, Nat.add_le_add_iff_right, fieldLevels_le_iff]
    intro key v hmem
    rcases List.mem_append.mp (Fields.mem_of_mem_ofList hmem) with htag | hentry
    · rw [levels_of_mem_tags htag]
      exact Nat.zero_le levels
    · obtain ⟨slot, hslot, hpresent⟩ := List.mem_filterMap.mp hentry
      cases slot with
      | absent p => cases hpresent
      | present p m =>
        cases hpresent
        obtain ⟨shape, _, hm⟩ := hfits _ hslot
        exact hm.levels_le fun m hm => ih hm

/-! ## Values of messages -/

theorem isLongText_longText {octets : Bytes} (h : octets.length = 8) : IsLongText (longText octets) := by
  have hdigit : ∀ n : Fin 16, Nat.digitChar n.val ∈ "0123456789abcdef".toList := by decide
  refine ⟨Hex.encode octets.reverse, by simp [longText], ?_, ?_⟩
  · simp [Hex.encode, Hex.octet, h]
  · intro c hc
    obtain ⟨b, _, hb⟩ := List.mem_flatMap.mp hc
    have hlt : b.toNat < 256 := b.toNat_lt
    simp only [Hex.octet, List.mem_cons, List.not_mem_nil, or_false] at hb
    rcases hb with rfl | rfl
    · exact hdigit ⟨b.toNat / 16, by omega⟩
    · exact hdigit ⟨b.toNat % 16, by omega⟩

/-- Octets of the width of a type hold a value of it. -/
theorem Primitive.admits_numberValue {type : Primitive} {octets : Bytes} (h : type.width? = some octets.length) :
    type.Admits (type.numberValue octets) := by
  have hpow4 : Nat.pow 256 4 = 0x1_0000_0000 := rfl
  have hpow2 : Nat.pow 256 2 = 0x1_0000 := rfl
  have hsigned := Word.signed_bounds octets
  have hunsigned := Word.ofBytes_lt octets
  cases type with
  | int =>
    have hlen : octets.length = 4 := (Option.some.inj h).symm
    rw [hlen] at hsigned
    rw [Primitive.numberValue, Primitive.Admits, Int64.toInt_ofInt_of_le (by omega) (by omega)]
    omega
  | uint =>
    have hlen : octets.length = 4 := (Option.some.inj h).symm
    rw [hlen] at hunsigned
    rw [Primitive.numberValue, Primitive.Admits, ← Int64.ofInt_eq_ofNat, Int64.toInt_ofInt_of_le (by omega) (by omega)]
    omega
  | short =>
    have hlen : octets.length = 2 := (Option.some.inj h).symm
    rw [hlen] at hsigned
    rw [Primitive.numberValue, Primitive.Admits, Int64.toInt_ofInt_of_le (by omega) (by omega)]
    omega
  | ushort =>
    have hlen : octets.length = 2 := (Option.some.inj h).symm
    rw [hlen] at hunsigned
    rw [Primitive.numberValue, Primitive.Admits, ← Int64.ofInt_eq_ofNat, Int64.toInt_ofInt_of_le (by omega) (by omega)]
    omega
  | float => trivial
  | double => trivial
  | long => exact isLongText_longText (Option.some.inj h).symm
  | ulong => exact isLongText_longText (Option.some.inj h).symm
  | bool => cases h
  | string => cases h
  | bytes => cases h

theorem Segment.Fits.conforms {s : Segment} (h : s.Fits shape)
    (hsize : ∀ type size, shape = .strict type size → type.allowsSize = true) : shape.Conforms r s.value := by
  cases h with
  | number hwidth => exact .primitive (Primitive.admits_numberValue hwidth)
  | bool => exact .primitive trivial
  | bytes => exact .primitive trivial
  | string => exact .primitive trivial
  | @sized type size _ _ htype =>
    have hallowed := hsize type size rfl
    cases type with
    | string => exact .text
    | bytes => contradiction
    | _ => cases hallowed
  | raw hlen => exact .octets hlen

namespace Registry

/-- Headers that pass the check are those of containers that the reference leads to. -/
theorem leadsTo_of_mayLeadTo {reference : String} {c : Container} (hc : c ∈ r.containers)
    (h : r.MayLeadTo reference c.id) : r.LeadsTo reference c := by
  have same {d : Container} (hd : d ∈ r.containers) (hid : d.id = c.id) : c = d :=
    (List.inj_on_of_nodup_map r.ids_nodup hd hc hid).symm
  constructor
  · intro d hd hname
    have hids : r.possibleIds reference = [d.id] := possibleIds_of_name hd hname
    have hmem := h (by rw [hids]; exact List.cons_ne_nil _ _)
    rw [hids, List.mem_singleton] at hmem
    exact same hd hmem.symm
  · rintro hnone ⟨d, hd, hrelated⟩
    have hmem := h (List.ne_nil_of_mem ((mem_possibleIds_iff hnone).mpr ⟨d, hd, hrelated, rfl⟩))
    obtain ⟨e, he, hfound, hid⟩ := (mem_possibleIds_iff hnone).mp hmem
    rw [same he hid]
    exact hfound

end Registry

/-- What is read from a message conforms to its layout, if the containers that it nests do. -/
theorem Message.Fits.conforms (hon : r.config.structuralValidation = true)
    (hmessages : ∀ c slots, messages (.record c slots) → c ∈ r.containers ∧ c.Conforms r (Message.record c slots).value)
    (h : m.Fits r messages shape) (hsize : ∀ type size, shape = .strict type size → type.allowsSize = true) :
    shape.Conforms r m.value := by
  induction h with
  | segment hs => exact hs.conforms hsize
  | @sequence item items _ _ ih =>
    rw [Message.value_sequence]
    refine .vector fun v hv => ?_
    obtain ⟨m, hm, rfl⟩ := List.mem_map.mp hv
    exact ih m hm fun type size h => by cases item <;> cases h
  | record hheader hnested =>
    obtain ⟨hc, hconforms⟩ := hmessages _ _ hnested
    exact .reference hc (Registry.leadsTo_of_mayLeadTo hc (hheader hon)) hconforms

namespace Registry

/-- What is read from a message of the registry conforms to its container. By induction on the levels. -/
theorem conforms_of_holds (hkeys : r.KeysDistinct) (hsizes : r.SizesApply) (hon : r.config.structuralValidation = true)
    {levels : Nat} {c : Container} {slots : List Slot} (h : r.Holds levels (.record c slots)) :
    c ∈ r.containers ∧ c.Conforms r (Message.record c slots).value := by
  induction levels generalizing c slots with
  | zero => exact h.elim
  | succ levels ih =>
    obtain ⟨_, _, ⟨⟩, hc, hparams, hfits⟩ := h
    refine ⟨hc, ?_⟩
    have hdistinct := hparams ▸ hkeys c hc
    have hnodup := nodup_names_of_slots hdistinct
    have hslot (p : Param) (hp : p ∈ c.params) : ∃ slot ∈ slots, slot.param = p := by
      rw [← hparams] at hp
      exact List.mem_map.mp hp
    have hget {slot : Slot} (hslot : slot ∈ slots) :
        Fields.get? (tags c ++ slots.filterMap Slot.entry?) slot.param.name = slot.value? := by
      have hrecord := get?_record hdistinct hslot
      rwa [Message.value_record, Fields.ofList_eq_self_iff.mpr hnodup] at hrecord
    rw [Message.value_record, Fields.ofList_eq_self_iff.mpr hnodup]
    refine .object ?_ ?_ ?_ ?_ ?_
    · intro key value htag
      exact Fields.get?_of_mem hnodup (List.mem_append_left _ htag)
    · intro key hkey
      rw [Fields.names, List.map_append, List.mem_append] at hkey
      rw [← hparams]
      exact hkey.imp_right fun h => (names_entries_sublist slots).subset h
    · intro p hp hrequired
      obtain ⟨slot, hslot, rfl⟩ := hslot p hp
      rw [hget hslot]
      cases slot with
      | absent p =>
        have hoptional : p.isOptional = true := hfits _ hslot
        rw [Slot.param, hoptional] at hrequired
        cases hrequired
      | present p m => rfl
    · intro p hp hthere
      obtain ⟨slot, hslot, rfl⟩ := hslot p hp
      rw [hget hslot] at hthere
      cases slot with
      | absent p => cases hthere
      | present p m =>
        obtain ⟨shape, hshape, _⟩ := hfits _ hslot
        exact Option.isSome_of_eq_some hshape
    · intro p hp v shape hv hshape
      obtain ⟨slot, hslot, rfl⟩ := hslot p hp
      rw [hget hslot] at hv
      cases slot with
      | absent p => cases hv
      | present p m =>
        cases hv
        obtain ⟨own, hown, hm⟩ := hfits _ hslot
        obtain rfl : own = shape := Option.some.inj (hown.symm.trans hshape)
        refine hm.conforms hon (fun d inner h => ih h) ?_
        rintro type size rfl
        exact hsizes c hc p hp type size hshape

/-- With structural validation, what is decoded conforms to a container of the registry, and has no more levels
below the outermost object than the settings allow. -/
theorem decode_conforms (hkeys : r.KeysDistinct) (hsizes : r.SizesApply) (hon : r.config.structuralValidation = true)
    {octets : Bytes} {v : Value} (h : r.decode octets = .ok v) :
    ∃ c ∈ r.containers, c.Conforms r v ∧ v.levels ≤ r.config.maxDepth + 1 := by
  obtain ⟨last, hrun⟩ := decode_eq_ok_iff.mp h
  obtain ⟨m, hm, _, rfl⟩ := (decodeFrom_reads _ _ _).mp hrun
  obtain ⟨c, slots, rfl, _⟩ := hm.exists_record
  obtain ⟨hc, hconforms⟩ := conforms_of_holds hkeys hsizes hon hm
  exact ⟨c, hc, hconforms, hm.levels_le⟩

/-- A feed with a photo, which stands for the trait of the items. -/
theorem decode_conforms_feedBuffer :
    feeds.KeysDistinct ∧ feeds.SizesApply ∧ feeds.config.structuralValidation = true ∧
      ∃ v, feeds.decode (feedBuffer.drop 1) = .ok v ∧ ∃ c ∈ feeds.containers, c.Conforms feeds v ∧ v.levels ≤ 2 := by
  have hkeys : feeds.KeysDistinct := by
    simp only [KeysDistinct, feeds, containers_ofNodup, List.mem_cons, List.not_mem_nil, or_false, forall_eq_or_imp, forall_eq]
    decide
  have hsizes : feeds.SizesApply := by
    simp only [SizesApply, feeds, containers_ofNodup, feed, photo, List.mem_cons, List.not_mem_nil, or_false, forall_eq_or_imp, forall_eq]
    refine ⟨⟨?_, ?_⟩, ?_⟩
    · intro type size h
      cases h
    · intro type size h
      cases h
    · intro type size h
      cases h
      rfl
  have hdecode : ∃ v, feeds.decode (feedBuffer.drop 1) = .ok v := ⟨_, rfl⟩
  obtain ⟨v, hdecode⟩ := hdecode
  exact ⟨hkeys, hsizes, rfl, v, hdecode, decode_conforms hkeys hsizes rfl hdecode⟩

end Registry

end SchemaWire
