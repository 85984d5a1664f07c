import Mathlib.Tactic.SplitIfs
import SchemaWire.Proofs.Lookup
import SchemaWire.Proofs.Message

/-!
# What decoding accepts

Decoding a container succeeds exactly where a message of the registry lies, gives the value of the message
and stops behind it (`decodeFrom_reads`). The proof follows the decoder: each of its functions reads the
messages, or the slots, of what it is given.
-/

namespace SchemaWire

/-- Whether a decoder succeeds exactly on the octets of the messages in question, with their values. -/
def Decoder.Reads (d : Decoder Value) (messages : Message → Prop) : Prop :=
  ∀ place v next, d.run place = .ok (v, next) ↔ ∃ m, messages m ∧ place.Passes m.octets next ∧ v = m.value

variable {place next : Reader}

namespace Decoder

theorem run_times_eq_ok_iff {d : Decoder Value} {messages : Message → Prop} (h : d.Reads messages) {n : Nat}
    {values : List Value} :
    (times n d).run place = .ok (values, next) ↔
      ∃ items : List Message, items.length = n ∧ (∀ m ∈ items, messages m) ∧
        place.Passes (items.flatMap Message.octets) next ∧ values = items.map Message.value := by
  induction n generalizing place next values with
  | zero =>
    simp only [times, run_pure_eq_ok_iff, List.length_eq_zero_iff]
    constructor
    · rintro ⟨rfl, rfl⟩
      exact ⟨[], rfl, by simp, Reader.passes_nil.mpr rfl, rfl⟩
    · rintro ⟨_, rfl, _, hpass, rfl⟩
      exact ⟨rfl, Reader.passes_nil.mp hpass⟩
  | succ n ih =>
    simp only [times, run_bind_eq_ok_iff, run_pure_eq_ok_iff, h _ _ _, ih]
    constructor
    · rintro ⟨_, mid, ⟨m, hm, hfirst, rfl⟩, _, _, ⟨items, rfl, hitems, hrest, rfl⟩, rfl, rfl⟩
      refine ⟨m :: items, rfl, ?_, ?_, rfl⟩
      · simpa using ⟨hm, hitems⟩
      · rw [List.flatMap_cons]
        exact Reader.passes_append.mpr ⟨mid, hfirst, hrest⟩
    · rintro ⟨items, hlength, hitems, hpass, rfl⟩
      obtain ⟨m, items, rfl⟩ := List.exists_cons_of_length_eq_add_one hlength
      rw [List.flatMap_cons] at hpass
      obtain ⟨mid, hfirst, hrest⟩ := Reader.passes_append.mp hpass
      simp only [List.length_cons, Nat.add_right_cancel_iff] at hlength
      simp only [List.mem_cons, forall_eq_or_imp] at hitems
      exact ⟨_, mid, ⟨m, hitems.1, hfirst, rfl⟩, _, next, ⟨items, hlength, hitems.2, hrest, rfl⟩, rfl, rfl⟩

end Decoder

namespace Registry

open Decoder

variable {r : Registry} {nested : Decoder Value} {messages : Message → Prop}

/-! ## Params -/

theorem run_checkHeader (reference param : String) (place : Reader) :
    (r.checkHeader reference param).run place =
      if r.config.structuralValidation = true ∧ r.possibleIds reference ≠ [] then
        match place.peek with
        | .error e => .error ⟨.wire e, place⟩
        | .ok found =>
          if found ∈ r.possibleIds reference then .ok ((), place)
          else .error ⟨.headerMismatch param (r.possibleIds reference) found, place⟩
      else .ok ((), place) := by
  simp only [checkHeader]
  by_cases h : r.config.structuralValidation = true ∧ r.possibleIds reference ≠ []
  · rw [if_pos h, if_pos (by simpa using h), StateT.run_bind]
    show ((place.peek.map fun id => (id, place)).mapError _ >>= _) = _
    cases place.peek with
    | error e => rfl
    | ok found =>
      show StateT.run (if (!(r.possibleIds reference).contains found) = true then
        fail (.headerMismatch param (r.possibleIds reference) found) else pure ()) place = _
      by_cases hmem : found ∈ r.possibleIds reference
      · rw [if_neg (by simpa using hmem)]
        simp only [if_pos hmem]
        rfl
      · rw [if_pos (by simpa using hmem)]
        simp only [if_neg hmem]
        rfl
  · rw [if_neg h, if_neg (by simpa using h)]
    rfl

/-- The header check moves nothing, and lets pass what a reference may lead to. -/
theorem run_checkHeader_eq_ok_iff {reference param : String} {u : Unit} :
    (r.checkHeader reference param).run place = .ok (u, next) ↔
      next = place ∧ (r.config.structuralValidation = true → r.possibleIds reference ≠ [] →
        ∃ id ∈ r.possibleIds reference, place.peek = .ok id) := by
  rw [run_checkHeader]
  by_cases h : r.config.structuralValidation = true ∧ r.possibleIds reference ≠ []
  · rw [if_pos h]
    cases hpeek : place.peek with
    | error e => simp [h.1, h.2]
    | ok found =>
      by_cases hmem : found ∈ r.possibleIds reference
      · simp only [if_pos hmem]
        constructor
        · intro heq
          cases heq
          exact ⟨rfl, fun _ _ => ⟨found, hmem, rfl⟩⟩
        · rintro ⟨rfl, _⟩
          rfl
      · simp [hmem, h.1, h.2]
  · rw [if_neg h]
    have hfree (hon : r.config.structuralValidation = true) (hne : r.possibleIds reference ≠ []) : False :=
      h ⟨hon, hne⟩
    constructor
    · intro heq
      cases heq
      exact ⟨rfl, fun hon hne => (hfree hon hne).elim⟩
    · rintro ⟨rfl, _⟩
      rfl

theorem decodePrimitive_reads (type : Primitive) :
    (decodePrimitive type).Reads (Message.Fits r messages (.primitive type)) := by
  intro place v next
  rw [run_decodePrimitive_eq_ok_iff]
  constructor
  · rintro ⟨s, hs, hpass, rfl⟩
    exact ⟨.segment s, .segment hs, by simpa using hpass, rfl⟩
  · rintro ⟨_, ⟨hs⟩, hpass, rfl⟩
    exact ⟨_, hs, by simpa using hpass, rfl⟩

theorem decodeItems_reads {item : VectorItem} {d : Decoder Value} (h : d.Reads (Message.Fits r messages item.shape)) :
    Decoder.Reads
      (do
        let count ← read (Reader.word 4)
        return .array (← times count d))
      (Message.Fits r messages (.vector item)) := by
  intro place v next
  simp only [run_bind_eq_ok_iff, run_read_eq_ok_iff, run_pure_eq_ok_iff, Reader.word_eq_ok_iff,
    run_times_eq_ok_iff h]
  constructor
  · rintro ⟨_, mid, ⟨octets, hlen, hcount, rfl⟩, _, _, ⟨items, hitems, hfits, hpass, rfl⟩, rfl, rfl⟩
    have hlt := Word.ofBytes_lt octets
    have hback := Word.toBytes_ofBytes octets
    rw [hlen, ← hitems] at hlt hback
    refine ⟨.sequence items, .sequence hlt hfits, ?_, by simp⟩
    rw [Message.octets_sequence, hback]
    exact Reader.passes_append.mpr ⟨mid, hcount, hpass⟩
  · rintro ⟨_, ⟨⟩ | ⟨hlt, hfits⟩, hpass, rfl⟩
    · contradiction
    rw [Message.octets_sequence] at hpass
    obtain ⟨mid, hcount, hitems⟩ := Reader.passes_append.mp hpass
    refine ⟨_, mid, ⟨_, Word.length_toBytes 4 _, hcount, rfl⟩, _, next, ⟨_, ?_, hfits, hitems, rfl⟩, ?_, rfl⟩
    · rw [Word.ofBytes_toBytes hlt]
    · simp

section Nested

variable (hnested : nested.Reads messages) (hrecord : ∀ m, messages m → ∃ c slots, m = .record c slots)
include hnested hrecord

/-- Records begin with their id, so the header that is checked is that of the record behind it. -/
theorem decodeReference_reads (reference param : String) :
    (r.decodeReference nested reference param).Reads (Message.Fits r messages (.reference reference)) := by
  intro place v next
  simp only [decodeReference, run_bind_eq_ok_iff, run_checkHeader_eq_ok_iff, hnested _ _ _]
  constructor
  · rintro ⟨_, _, ⟨rfl, hheader⟩, m, hm, hpass, rfl⟩
    obtain ⟨c, slots, rfl⟩ := hrecord m hm
    refine ⟨_, .record ?_ hm, hpass, rfl⟩
    intro hon hne
    obtain ⟨id, hmem, hpeek⟩ := hheader hon hne
    rw [Message.octets_record] at hpass
    obtain ⟨mid, hid, _⟩ := Reader.passes_append.mp hpass
    have hsame := Reader.peek_eq_ok_iff.mpr ⟨mid, hid⟩
    rw [hsame, Except.ok.injEq] at hpeek
    rw [hpeek]
    exact hmem
  · rintro ⟨_, ⟨⟩ | ⟨⟩ | ⟨hheader, hm⟩, hpass, rfl⟩
    · contradiction
    rename_i c slots
    refine ⟨(), place, ⟨rfl, fun hon hne => ⟨c.id, hheader hon hne, ?_⟩⟩, _, hm, hpass, rfl⟩
    rw [Message.octets_record] at hpass
    obtain ⟨mid, hid, _⟩ := Reader.passes_append.mp hpass
    exact Reader.peek_eq_ok_iff.mpr ⟨mid, hid⟩

theorem decodeShape_reads (param : String) (shape : Shape) :
    (r.decodeShape nested param shape).Reads (Message.Fits r messages shape) := by
  cases shape with
  | primitive type => exact decodePrimitive_reads type
  | strict type size =>
    intro place v next
    rw [run_decodeShape_strict_eq_ok_iff]
    constructor
    · rintro ⟨s, hs, hpass, rfl⟩
      exact ⟨.segment s, .segment hs, by simpa using hpass, rfl⟩
    · rintro ⟨_, ⟨hs⟩, hpass, rfl⟩
      exact ⟨_, hs, by simpa using hpass, rfl⟩
  | vector item =>
    cases item with
    | primitive type => exact decodeItems_reads (decodePrimitive_reads type)
    | container reference => exact decodeItems_reads (decodeReference_reads hnested hrecord reference param)
  | reference reference => exact decodeReference_reads hnested hrecord reference param

theorem run_decodePresent_eq_ok_iff {containerName : String} {p : Param} {value : Option Value} :
    StateT.run (match p.shape? with
      | none => (fail (.malformedParam containerName p.name) : Decoder (Option Value))
      | some shape => do return some (← r.decodeShape nested p.name shape)) place = .ok (value, next) ↔
      ∃ m : Message, (Slot.present p m).Fits r messages ∧ place.Passes m.octets next ∧ value = some m.value := by
  simp only [Slot.Fits]
  cases hshape : p.shape? with
  | none => simp [run_fail_eq_ok_iff]
  | some shape =>
    simp only [run_bind_eq_ok_iff, run_pure_eq_ok_iff, decodeShape_reads hnested hrecord _ _ _ _ _]
    constructor
    · rintro ⟨_, _, ⟨m, hfits, hpass, rfl⟩, rfl, rfl⟩
      exact ⟨m, ⟨shape, rfl, hfits⟩, hpass, rfl⟩
    · rintro ⟨m, ⟨_, ⟨⟩, hfits⟩, hpass, rfl⟩
      exact ⟨_, next, ⟨m, hfits, hpass, rfl⟩, rfl, rfl⟩

theorem run_decodeParam_eq_ok_iff {containerName : String} {p : Param} {value : Option Value} :
    (r.decodeParam nested containerName p).run place = .ok (value, next) ↔
      ∃ slot : Slot, slot.param = p ∧ slot.Fits r messages ∧ place.Passes slot.octets next ∧ value = slot.value? := by
  rw [decodeParam]
  split_ifs with hoptional
  · simp only [run_bind_eq_ok_iff, run_read_eq_ok_iff, Reader.bool_eq_ok_iff]
    constructor
    · rintro ⟨there, mid, hflag, h⟩
      cases there with
      | false =>
        obtain ⟨rfl, rfl⟩ := run_pure_eq_ok_iff.mp h
        exact ⟨.absent p, rfl, hoptional, hflag, rfl⟩
      | true =>
        obtain ⟨m, hfits, hpass, rfl⟩ := (run_decodePresent_eq_ok_iff hnested hrecord).mp h
        refine ⟨.present p m, rfl, hfits, ?_, rfl⟩
        rw [Slot.octets_present, if_pos hoptional]
        exact Reader.passes_append.mpr ⟨mid, hflag, hpass⟩
    · rintro ⟨slot, rfl, hfits, hpass, rfl⟩
      cases slot with
      | absent p => exact ⟨false, next, hpass, run_pure_eq_ok_iff.mpr ⟨rfl, rfl⟩⟩
      | present p m =>
        have hflagged : p.isOptional = true := hoptional
        rw [Slot.octets_present, if_pos hflagged] at hpass
        obtain ⟨mid, hflag, hpass⟩ := Reader.passes_append.mp hpass
        exact ⟨true, mid, hflag, (run_decodePresent_eq_ok_iff hnested hrecord).mpr ⟨m, hfits, hpass, rfl⟩⟩
  · refine (run_decodePresent_eq_ok_iff hnested hrecord).trans ⟨?_, ?_⟩
    · rintro ⟨m, hfits, hpass, rfl⟩
      refine ⟨.present p m, rfl, hfits, ?_, rfl⟩
      rw [Slot.octets_present, if_neg hoptional]
      exact hpass
    · rintro ⟨slot, rfl, hfits, hpass, rfl⟩
      cases slot with
      | absent p => exact absurd hfits hoptional
      | present p m =>
        have hbare : ¬p.isOptional = true := hoptional
        rw [Slot.octets_present, if_neg hbare] at hpass
        exact ⟨m, hfits, hpass, rfl⟩

theorem run_decodeParams_eq_ok_iff {containerName : String} {params : List Param} {entries : List (String × Value)} :
    (r.decodeParams nested containerName params).run place = .ok (entries, next) ↔
      ∃ slots : List Slot, slots.map Slot.param = params ∧ (∀ slot ∈ slots, slot.Fits r messages) ∧
        place.Passes (slots.flatMap Slot.octets) next ∧ entries = slots.filterMap Slot.entry? := by
  induction params generalizing place next entries with
  | nil =>
    simp only [decodeParams, run_pure_eq_ok_iff, List.map_eq_nil_iff]
    constructor
    · rintro ⟨rfl, rfl⟩
      exact ⟨[], rfl, by simp, Reader.passes_nil.mpr rfl, rfl⟩
    · rintro ⟨_, rfl, _, hpass, rfl⟩
      exact ⟨rfl, Reader.passes_nil.mp hpass⟩
  | cons p params ih =>
    simp only [decodeParams, run_bind_eq_ok_iff, run_pure_eq_ok_iff, run_decodeParam_eq_ok_iff hnested hrecord, ih]
    constructor
    · rintro ⟨_, mid, ⟨slot, rfl, hfits, hfirst, rfl⟩, _, _, ⟨slots, rfl, hslots, hrest, rfl⟩, rfl, rfl⟩
      refine ⟨slot :: slots, rfl, ?_, ?_, (slot.entries_cons slots).symm⟩
      · simpa using ⟨hfits, hslots⟩
      · rw [List.flatMap_cons]
        exact Reader.passes_append.mpr ⟨mid, hfirst, hrest⟩
    · rintro ⟨slots, hparams, hfits, hpass, rfl⟩
      obtain ⟨slot, slots, rfl, rfl, rfl⟩ := List.map_eq_cons_iff.mp hparams
      rw [List.flatMap_cons] at hpass
      obtain ⟨mid, hfirst, hrest⟩ := Reader.passes_append.mp hpass
      simp only [List.mem_cons, forall_eq_or_imp] at hfits
      exact ⟨_, mid, ⟨slot, rfl, hfits.1, hfirst, rfl⟩, _, next, ⟨slots, rfl, hfits.2, hrest, rfl⟩,
        slot.entries_cons slots, rfl⟩

end Nested

/-! ## Containers -/

theorem decodeContainer_reads (levels : Nat) : (r.decodeContainer levels).Reads (r.Holds levels) := by
  induction levels with
  | zero =>
    intro place v next
    simp [decodeContainer, run_fail_eq_ok_iff, Holds]
  | succ levels ih =>
    have hrecord (m : Message) (hm : r.Holds levels m) : ∃ c slots, m = .record c slots := by
      obtain ⟨c, slots, rfl, _⟩ := hm.exists_record
      exact ⟨c, slots, rfl⟩
    intro place v next
    simp only [decodeContainer, run_bind_eq_ok_iff, run_read_eq_ok_iff, Reader.uint_eq_ok_iff, Holds]
    constructor
    · rintro ⟨id, mid, hid, h⟩
      cases hc : r.containerOfId? id with
      | none => simp [hc, run_fail_eq_ok_iff] at h
      | some c =>
        obtain ⟨hmem, rfl⟩ := containerOfId?_eq_some_iff.mp hc
        simp only [hc, run_bind_eq_ok_iff, run_pure_eq_ok_iff, run_decodeParams_eq_ok_iff ih hrecord] at h
        obtain ⟨_, _, ⟨slots, hparams, hfits, hpass, rfl⟩, rfl, rfl⟩ := h
        refine ⟨.record c slots, ⟨c, slots, rfl, hmem, hparams, hfits⟩, ?_, by simp⟩
        rw [Message.octets_record]
        exact Reader.passes_append.mpr ⟨mid, hid, hpass⟩
    · rintro ⟨_, ⟨c, slots, rfl, hmem, hparams, hfits⟩, hpass, rfl⟩
      rw [Message.octets_record] at hpass
      obtain ⟨mid, hid, hpass⟩ := Reader.passes_append.mp hpass
      refine ⟨c.id, mid, hid, ?_⟩
      simp only [containerOfId?_eq_some_iff.mpr ⟨hmem, rfl⟩, run_bind_eq_ok_iff, run_pure_eq_ok_iff,
        run_decodeParams_eq_ok_iff ih hrecord]
      exact ⟨_, next, ⟨slots, hparams, hfits, hpass, rfl⟩, by simp, rfl⟩

theorem decodeFrom_reads : r.decodeFrom.Reads (r.Holds (r.config.maxDepth + 1)) :=
  decodeContainer_reads _

/-- Decoding octets is decoding from their beginning and leaving out what follows. -/
theorem decode_eq_ok_iff {octets : Bytes} {v : Value} :
    r.decode octets = .ok v ↔ ∃ last, r.decodeFrom.run (.ofBytes octets) = .ok (v, last) := by
  rw [decode]
  cases r.decodeFrom.run (.ofBytes octets) with
  | error failure => simp
  | ok result => simp [Prod.ext_iff]

end Registry

end SchemaWire
