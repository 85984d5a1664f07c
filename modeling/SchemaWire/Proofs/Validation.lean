import SchemaWire.Proofs.Locality
import SchemaWire.Proofs.Reencoding
import SchemaWire.Proofs.Settings

/-!
# Structural validation

Decoding with structural validation goes like decoding without it up to the first header of a nested container that
its reference does not lead to, and stops right before this header (`checksHeaders_of_spells`). All settings
together can do nothing but turn successes into failures (`settings_only_reject`).
-/

namespace SchemaWire

/-! ## Headers of a message -/

/-- The header of a nested container, with what it is nested under and the offset at which it begins. -/
structure NestedHeader where
  param : String
  reference : String
  found : UInt32
  offset : Nat

mutual

/-- The headers of the containers in a message of a layout that begins at an offset, in the order of the octets. -/
def Message.headers : Message → (param : String) → Shape → (offset : Nat) → List NestedHeader
  | .sequence items, param, .vector item, offset => itemHeaders items param item.shape (offset + 4)
  | .record c slots, param, .reference reference, offset =>
    ⟨param, reference, c.id, offset⟩ :: slotHeaders slots (offset + 4)
  | _, _, _, _ => []
termination_by structural m => m

/-- The headers in the items of a vector. -/
def itemHeaders : List Message → (param : String) → Shape → (offset : Nat) → List NestedHeader
  | [], _, _, _ => []
  | m :: rest, param, shape, offset =>
    m.headers param shape offset ++ itemHeaders rest param shape (offset + m.octets.length)
termination_by structural items => items

/-- The headers in a param. -/
def Slot.headers : Slot → (offset : Nat) → List NestedHeader
  | .absent _, _ => []
  | .present p m, offset =>
    match p.shape? with
    | some shape => m.headers p.name shape (if p.isOptional then offset + 1 else offset)
    | none => []
termination_by structural slot => slot

/-- The headers in the params of a record. -/
def slotHeaders : List Slot → (offset : Nat) → List NestedHeader
  | [], _ => []
  | slot :: rest, offset => slot.headers offset ++ slotHeaders rest (offset + slot.octets.length)
termination_by structural slots => slots

end

/-- The headers of the containers that a record nests. -/
def Message.nestedHeaders : Message → (offset : Nat) → List NestedHeader
  | .record _ slots, offset => slotHeaders slots (offset + 4)
  | _, _ => []

/-- Whether headers lie in a stretch of a buffer, one behind the other. -/
structure HeadersLie (buffer : Bytes) (start stop : Nat) (headers : List NestedHeader) : Prop where
  le : start ≤ stop
  ordered : headers.Pairwise fun g h => g.offset + 4 ≤ h.offset
  within : ∀ h ∈ headers, start ≤ h.offset ∧ h.offset + 4 ≤ stop
  found : ∀ h ∈ headers, (Reader.atOffset buffer h.offset).peek = .ok h.found

namespace HeadersLie

variable {buffer : Bytes} {start mid stop : Nat} {headers more : List NestedHeader}

theorem nil (h : start ≤ stop) : HeadersLie buffer start stop [] :=
  ⟨h, .nil, by simp, by simp⟩

theorem append (hfirst : HeadersLie buffer start mid headers) (hmore : HeadersLie buffer mid stop more) :
    HeadersLie buffer start stop (headers ++ more) := by
  refine ⟨Nat.le_trans hfirst.le hmore.le, List.pairwise_append.mpr ⟨hfirst.ordered, hmore.ordered, ?_⟩, ?_, ?_⟩
  · intro g hg h hh
    exact Nat.le_trans (hfirst.within g hg).2 (hmore.within h hh).1
  · intro h hh
    rcases List.mem_append.mp hh with hh | hh
    · exact ⟨(hfirst.within h hh).1, Nat.le_trans (hfirst.within h hh).2 hmore.le⟩
    · exact ⟨Nat.le_trans hfirst.le (hmore.within h hh).1, (hmore.within h hh).2⟩
  · intro h hh
    rcases List.mem_append.mp hh with hh | hh
    · exact hfirst.found h hh
    · exact hmore.found h hh

/-- A header in front of a stretch that holds it: the others must lie behind its four octets. -/
theorem cons {param reference : String} {id : UInt32} (hpeek : (Reader.atOffset buffer start).peek = .ok id)
    (hrest : HeadersLie buffer (start + 4) stop headers) :
    HeadersLie buffer start stop (⟨param, reference, id, start⟩ :: headers) := by
  have hhead : HeadersLie buffer start (start + 4) [⟨param, reference, id, start⟩] :=
    ⟨Nat.le_add_right start 4, List.pairwise_singleton _ _, by simp, by simpa using hpeek⟩
  exact hhead.append hrest

end HeadersLie

/-! ## Decoding between headers -/

instance Registry.decidableMayLeadTo (r : Registry) (reference : String) (id : UInt32) :
    Decidable (r.MayLeadTo reference id) :=
  inferInstanceAs (Decidable (r.possibleIds reference ≠ [] → id ∈ r.possibleIds reference))

/-- What comes of an outcome if the headers are checked before: the first one that its reference does not lead to is
the error, and decoding has stopped right before it. -/
def Registry.screen {α : Type} (r : Registry) (buffer : Bytes) (outcome : Except DecodeFailure α) :
    List NestedHeader → Except DecodeFailure α
  | [] => outcome
  | h :: rest =>
    if r.MayLeadTo h.reference h.found then r.screen buffer outcome rest
    else .error ⟨.headerMismatch h.param (r.possibleIds h.reference) h.found, .atOffset buffer h.offset⟩

namespace Registry

variable {α β : Type} {r : Registry} {buffer : Bytes} {outcome : Except DecodeFailure α}
  {headers more : List NestedHeader}

theorem screen_append : r.screen buffer outcome (headers ++ more) =
    r.screen buffer (r.screen buffer outcome more) headers := by
  induction headers with
  | nil => rfl
  | cons h rest ih => rw [List.cons_append, screen, screen, ih]

theorem screen_bind (f : α → Except DecodeFailure β) :
    r.screen buffer outcome headers >>= f = r.screen buffer (outcome >>= f) headers := by
  induction headers with
  | nil => rfl
  | cons h rest ih =>
    rw [screen, screen]
    by_cases hleads : r.MayLeadTo h.reference h.found
    · rw [if_pos hleads, if_pos hleads, ih]
    · rw [if_neg hleads, if_neg hleads]
      rfl

theorem screen_of_forall (hall : ∀ h ∈ headers, r.MayLeadTo h.reference h.found) :
    r.screen buffer outcome headers = outcome := by
  induction headers with
  | nil => rfl
  | cons h rest ih =>
    rw [screen, if_pos (hall h List.mem_cons_self)]
    exact ih fun g hg => hall g (List.mem_cons_of_mem h hg)

theorem screen_of_first {before after : List NestedHeader} {h : NestedHeader}
    (hbefore : ∀ g ∈ before, r.MayLeadTo g.reference g.found) (hrefused : ¬r.MayLeadTo h.reference h.found) :
    r.screen buffer outcome (before ++ h :: after) =
      .error ⟨.headerMismatch h.param (r.possibleIds h.reference) h.found, .atOffset buffer h.offset⟩ := by
  rw [screen_append, screen_of_forall hbefore, screen, if_neg hrefused]

end Registry

/-- Whether a decoder reads something between two offsets of a buffer if it passes the headers that lie there. -/
structure Decoder.Walks {α : Type} (r : Registry) (buffer : Bytes) (d : Decoder α) (start : Nat)
    (headers : List NestedHeader) (x : α) (stop : Nat) : Prop where
  lie : HeadersLie buffer start stop headers
  run : d.run (.atOffset buffer start) = r.screen buffer (.ok (x, .atOffset buffer stop)) headers

namespace Decoder

variable {α β : Type} {r : Registry} {buffer octets : Bytes} {d : Decoder α} {k : α → Decoder β} {x : α} {y : β}
  {start mid stop : Nat} {headers more : List NestedHeader}

theorem walks_pure (x : α) (start : Nat) : (pure x : Decoder α).Walks r buffer start [] x start :=
  ⟨.nil (Nat.le_refl start), rfl⟩

theorem Walks.bind (hd : d.Walks r buffer start headers x mid) (hk : (k x).Walks r buffer mid more y stop) :
    (d >>= k).Walks r buffer start (headers ++ more) y stop := by
  refine ⟨hd.lie.append hk.lie, ?_⟩
  rw [StateT.run_bind, hd.run, Registry.screen_bind, Registry.screen_append]
  exact congrArg (r.screen buffer · headers) hk.run

theorem Walks.map (f : α → β) (hd : d.Walks r buffer start headers x stop) :
    (do return f (← d) : Decoder β).Walks r buffer start headers (f x) stop := by
  have h := Walks.bind (k := fun x => pure (f x)) hd (walks_pure (f x) stop)
  rwa [List.append_nil] at h

/-- Octets without headers are read as ever. -/
theorem walks_of_run (h : octets <+: buffer.drop start)
    (hrun : ∀ place next, place.Passes octets next → d.run place = .ok (x, next)) :
    d.Walks r buffer start [] x (start + octets.length) :=
  ⟨.nil (Nat.le_add_right start _), hrun _ _ (Reader.passes_of_prefix h)⟩

theorem walks_times {items : List Message} {param : String} {shape : Shape} {d : Decoder Value}
    (h : ∀ m ∈ items, ∀ start, m.octets <+: buffer.drop start →
      d.Walks r buffer start (m.headers param shape start) m.value (start + m.octets.length))
    (hlies : items.flatMap Message.octets <+: buffer.drop start) :
    (times items.length d).Walks r buffer start (itemHeaders items param shape start) (items.map Message.value)
      (start + (items.flatMap Message.octets).length) := by
  induction items generalizing start with
  | nil => exact walks_pure [] start
  | cons m rest ih =>
    rw [List.flatMap_cons, Reader.append_prefix_drop_iff] at hlies
    rw [List.flatMap_cons, List.length_append, ← Nat.add_assoc]
    have hrest := ih (fun m' hm' => h m' (List.mem_cons_of_mem m hm')) hlies.2
    exact (h m List.mem_cons_self start hlies.1).bind (hrest.map (m.value :: ·))

end Decoder

/-- Whether a decoder of containers walks messages. The headers that it passes lie behind their own one. -/
structure Decoder.WalksRecord (r : Registry) (buffer : Bytes) (nested : Decoder Value) (start : Nat) (m : Message) :
    Prop where
  lie : HeadersLie buffer (start + 4) (start + m.octets.length) (m.nestedHeaders start)
  run : nested.run (.atOffset buffer start) =
    r.screen buffer (.ok (m.value, .atOffset buffer (start + m.octets.length))) (m.nestedHeaders start)

/-! ## Params and containers -/

namespace Registry

open Decoder

variable {r other : Registry} {buffer : Bytes} {nested : Decoder Value} {messages : Message → Prop}

theorem walks_of_segment {s : Segment} {shape : Shape} (hs : s.Fits shape) (param : String) {start : Nat}
    (hlies : s.octets <+: buffer.drop start) :
    (r.decodeShape nested param shape).Walks r buffer start [] s.value (start + s.octets.length) := by
  apply walks_of_run hlies
  intro place next hpass
  cases shape with
  | primitive type => exact run_decodePrimitive_eq_ok_iff.mpr ⟨s, hs, hpass, rfl⟩
  | strict type size => exact run_decodeShape_strict_eq_ok_iff.mpr ⟨s, hs, hpass, rfl⟩
  | vector item => cases hs
  | reference reference => cases hs

theorem decodeShape_vector (param : String) (item : VectorItem) :
    r.decodeShape nested param (.vector item) = (do
      let count ← read (Reader.word 4)
      return .array (← times count (r.decodeShape nested param item.shape))) := by
  cases item <;> rfl

section Nested

variable (hon : r.config.structuralValidation = true)
  (hnested : ∀ m, messages m → ∀ start, m.octets <+: buffer.drop start → nested.WalksRecord r buffer start m)
include hon hnested

/-- The look ahead shows the id of the record, and the record is decoded if the reference leads to it. -/
theorem walks_decodeReference {c : Container} {slots : List Slot} (hm : messages (.record c slots))
    (reference param : String) {start : Nat} (hlies : (Message.record c slots).octets <+: buffer.drop start) :
    (r.decodeReference nested reference param).Walks r buffer start
      ((Message.record c slots).headers param (.reference reference) start) (Message.record c slots).value
      (start + (Message.record c slots).octets.length) := by
  have hwalks := hnested _ hm start hlies
  have hpeek : (Reader.atOffset buffer start).peek = .ok c.id := by
    rw [Message.octets_record, Reader.append_prefix_drop_iff] at hlies
    exact Reader.peek_eq_ok_iff.mpr ⟨_, Reader.passes_of_prefix hlies.1⟩
  refine ⟨.cons hpeek hwalks.lie, ?_⟩
  rw [decodeReference, StateT.run_bind, run_checkHeader, hpeek, Message.headers, screen]
  by_cases hne : r.possibleIds reference ≠ []
  · rw [if_pos ⟨hon, hne⟩]
    by_cases hmem : c.id ∈ r.possibleIds reference
    · have hleads : r.MayLeadTo reference c.id := fun _ => hmem
      simp only [if_pos hmem, if_pos hleads]
      exact hwalks.run
    · have hleads : ¬r.MayLeadTo reference c.id := fun h => hmem (h hne)
      simp only [if_neg hmem, if_neg hleads]
      rfl
  · have hleads : r.MayLeadTo reference c.id := fun h => absurd h hne
    rw [if_neg fun h => hne h.2, if_pos hleads]
    exact hwalks.run

theorem walks_decodeShape {shape : Shape} {m : Message} (hm : m.Fits other messages shape) (param : String)
    {start : Nat} (hlies : m.octets <+: buffer.drop start) :
    (r.decodeShape nested param shape).Walks r buffer start (m.headers param shape start) m.value
      (start + m.octets.length) := by
  induction hm generalizing start with
  | @segment shape s hs =>
    rw [Message.octets_segment] at hlies ⊢
    exact walks_of_segment hs param hlies
  | @sequence item items hcount _ ih =>
    rw [Message.octets_sequence, Reader.append_prefix_drop_iff, Word.length_toBytes] at hlies
    have hread : (read (Reader.word 4)).Walks r buffer start [] items.length (start + 4) := by
      have hwalks := walks_of_run (d := read (Reader.word 4)) (r := r) hlies.1 fun place next hpass =>
        run_read_eq_ok_iff.mpr (Reader.word_eq_ok_iff.mpr ⟨_, Word.length_toBytes 4 _, hpass, rfl⟩)
      rwa [Word.ofBytes_toBytes hcount, Word.length_toBytes] at hwalks
    rw [decodeShape_vector, Message.octets_sequence, List.length_append, Word.length_toBytes, ← Nat.add_assoc,
      Message.value_sequence]
    exact hread.bind ((walks_times (fun m hm start hlies => ih m hm hlies) hlies.2).map Value.array)
  | @record reference c slots _ hm => exact walks_decodeReference hon hnested hm reference param hlies

theorem walks_decodeParam {slot : Slot} (hfits : slot.Fits other messages) (containerName : String) {start : Nat}
    (hlies : slot.octets <+: buffer.drop start) :
    (r.decodeParam nested containerName slot.param).Walks r buffer start (slot.headers start) slot.value?
      (start + slot.octets.length) := by
  have hflag (there : Bool) {start : Nat} (h : [if there then 1 else 0] <+: buffer.drop start) :
      (read Reader.bool).Walks r buffer start [] there (start + 1) :=
    walks_of_run h fun place next hpass => run_read_eq_ok_iff.mpr (Reader.bool_eq_ok_iff.mpr hpass)
  cases slot with
  | absent p =>
    have hoptional : p.isOptional = true := hfits
    rw [Slot.param, decodeParam, if_pos hoptional]
    exact (hflag false hlies).bind (walks_pure none _)
  | present p m =>
    obtain ⟨shape, hshape, hm⟩ := hfits
    have hpresent {start : Nat} (h : m.octets <+: buffer.drop start) :=
      (walks_decodeShape hon hnested hm p.name h).map some
    rw [Slot.octets_present] at hlies ⊢
    simp only [Slot.param, decodeParam, hshape, Slot.headers, Slot.value?]
    by_cases hoptional : p.isOptional = true
    · simp only [if_pos hoptional] at hlies ⊢
      rw [Reader.append_prefix_drop_iff] at hlies
      rw [List.length_append, ← Nat.add_assoc]
      exact (hflag true hlies.1).bind (hpresent hlies.2)
    · simp only [if_neg hoptional] at hlies ⊢
      exact hpresent hlies

theorem walks_decodeParams {slots : List Slot} (hfits : ∀ slot ∈ slots, slot.Fits other messages)
    (containerName : String) {start : Nat} (hlies : slots.flatMap Slot.octets <+: buffer.drop start) :
    (r.decodeParams nested containerName (slots.map Slot.param)).Walks r buffer start (slotHeaders slots start)
      (slots.filterMap Slot.entry?) (start + (slots.flatMap Slot.octets).length) := by
  induction slots generalizing start with
  | nil => exact walks_pure [] start
  | cons slot rest ih =>
    rw [List.flatMap_cons, Reader.append_prefix_drop_iff] at hlies
    rw [List.flatMap_cons, List.length_append, ← Nat.add_assoc, slot.entries_cons]
    have hfirst := walks_decodeParam hon hnested (hfits slot List.mem_cons_self) containerName hlies.1
    have hrest := ih (fun slot' hslot => hfits slot' (List.mem_cons_of_mem slot hslot)) hlies.2
    exact hfirst.bind (hrest.map _)

end Nested

/-- By induction on the levels: the id of a record is read without a check, and its params are walked. -/
theorem walksRecord_decodeContainer (hsame : other.containers = r.containers)
    (hon : r.config.structuralValidation = true) {levels : Nat} {m : Message} (hm : other.Holds levels m) {start : Nat}
    (hlies : m.octets <+: buffer.drop start) : (r.decodeContainer levels).WalksRecord r buffer start m := by
  induction levels generalizing m start with
  | zero => exact hm.elim
  | succ levels ih =>
    obtain ⟨c, slots, rfl, hc, hparams, hfits⟩ := hm
    have hfound : r.containerOfId? c.id = some c := containerOfId?_eq_some_iff.mpr ⟨hsame ▸ hc, rfl⟩
    rw [Message.octets_record, Reader.append_prefix_drop_iff] at hlies
    have hid : (read Reader.uint).Walks r buffer start [] c.id (start + 4) := by
      have hwalks := walks_of_run (d := read Reader.uint) (r := r) hlies.1 fun place next hpass =>
        run_read_eq_ok_iff.mpr (Reader.uint_eq_ok_iff.mpr hpass)
      rwa [Word.length_toBytes] at hwalks
    rw [Word.length_toBytes] at hlies
    have hslots := walks_decodeParams hon (fun m hm start hlies => ih hm hlies) hfits c.name hlies.2
    rw [hparams] at hslots
    have hobject : (r.decodeContainer (levels + 1)).Walks r buffer start (slotHeaders slots (start + 4))
        (Message.record c slots).value (start + 4 + (slots.flatMap Slot.octets).length) := by
      refine hid.bind ?_
      simp only [hfound, Message.value_record]
      exact hslots.map fun fields => Value.object (Fields.ofList (tags c ++ fields))
    have hstop : start + (Message.record c slots).octets.length = start + 4 + (slots.flatMap Slot.octets).length := by
      rw [Message.octets_record, List.length_append, Word.length_toBytes, Nat.add_assoc]
    refine ⟨?_, ?_⟩
    · rw [hstop]
      exact hslots.lie
    · rw [hstop]
      exact hobject.run

/-- What structural validation makes of a message that is decoded without it. The outcome is the same if each nested
header is one that its reference may lead to. Otherwise the first one that is not is the error, and decoding has
stopped right before it. -/
structure ChecksHeaders (r : Registry) (buffer : Bytes) (offset : Nat) (m : Message)
    (unchecked checked : Except DecodeFailure (Value × Reader)) : Prop where
  lie : HeadersLie buffer (offset + 4) (offset + m.octets.length) (m.nestedHeaders offset)
  admitted : (∀ h ∈ m.nestedHeaders offset, r.MayLeadTo h.reference h.found) → checked = unchecked
  refused : ∀ before h after, m.nestedHeaders offset = before ++ h :: after →
    (∀ g ∈ before, r.MayLeadTo g.reference g.found) → ¬r.MayLeadTo h.reference h.found →
      checked = .error ⟨.headerMismatch h.param (r.possibleIds h.reference) h.found, .atOffset buffer h.offset⟩

theorem checksHeaders_of_spells {depth offset n : Nat} {m : Message} {v : Value}
    (hm : (r.withConfig ⟨false, depth⟩).Spells m ((buffer.drop offset).take n) v) (hn : offset + n ≤ buffer.length) :
    r.ChecksHeaders buffer offset m (.ok (v, .atOffset buffer (offset + n)))
      ((r.withConfig ⟨true, depth⟩).decodeFrom.run (.atOffset buffer offset)) := by
  have hlies : m.octets <+: buffer.drop offset := hm.octets_eq ▸ List.take_prefix n _
  have hlength : m.octets.length = n := by
    rw [hm.octets_eq, List.length_take, List.length_drop]
    omega
  have hsame : (r.withConfig ⟨false, depth⟩).containers = (r.withConfig ⟨true, depth⟩).containers := rfl
  have hwalks := walksRecord_decodeContainer hsame rfl hm.holds hlies
  have hrun := hwalks.run
  rw [hlength, hm.value_eq] at hrun
  refine ⟨hwalks.lie, ?_, ?_⟩
  · intro hall
    exact hrun.trans (screen_of_forall hall)
  · intro before h after hsplit hbefore hrefused
    rw [hsplit] at hrun
    exact hrun.trans (screen_of_first hbefore hrefused)

/-- Structural validation and a lower limit of nesting can do nothing but turn successes into failures. -/
theorem settings_only_reject (r : Registry) :
    (∀ v, Config.OnlyLimits fun config => (r.withConfig config).encode v) ∧
    (∀ name v, Config.OnlyLimits fun config => (r.withConfig config).encodeNamed name v) ∧
    (∀ depth buffer offset v place,
      (r.withConfig ⟨false, depth⟩).decodeFrom.run (.atOffset buffer offset) = .ok (v, place) →
      ∃ n, offset + n ≤ buffer.length ∧ place = .atOffset buffer (offset + n) ∧
        (∃ m, (r.withConfig ⟨false, depth⟩).Spells m ((buffer.drop offset).take n) v) ∧
        ∀ m, (r.withConfig ⟨false, depth⟩).Spells m ((buffer.drop offset).take n) v →
          r.ChecksHeaders buffer offset m (.ok (v, place))
            ((r.withConfig ⟨true, depth⟩).decodeFrom.run (.atOffset buffer offset))) ∧
    (∀ depth place failure, (r.withConfig ⟨false, depth⟩).decodeFrom.run place = .error failure →
      ∃ failure', (r.withConfig ⟨true, depth⟩).decodeFrom.run place = .error failure') ∧
    ∀ validation depth depth' place v next, depth ≤ depth' →
      (r.withConfig ⟨validation, depth⟩).decodeFrom.run place = .ok (v, next) →
      (r.withConfig ⟨validation, depth'⟩).decodeFrom.run place = .ok (v, next) := by
  refine ⟨onlyLimits_encode, onlyLimits_encodeNamed, ?_, ?_, ?_⟩
  · intro depth buffer offset v place h
    obtain ⟨n, hn, rfl, hexists⟩ := exists_spells h
    exact ⟨n, hn, rfl, hexists, fun m hm => checksHeaders_of_spells hm hn⟩
  · intro depth place failure h
    cases hchecked : (r.withConfig ⟨true, depth⟩).decodeFrom.run place with
    | error failure' => exact ⟨failure', rfl⟩
    | ok result =>
      have hunchecked : (r.withConfig ⟨false, depth⟩).decodeFrom.run place = .ok result :=
        run_decodeFrom_withConfig (fun _ => rfl) (Nat.le_refl depth) hchecked
      rw [h] at hunchecked
      cases hunchecked
  · intro validation depth depth' place v next hdepth h
    refine run_decodeFrom_withConfig ?_ ?_ h
    · exact id
    · exact hdepth

/-- A feed with a feed for an item, which has not the trait of the items. -/
def oddFeed : Message :=
  .record feed
    [.present (.ofShape "title" (.primitive .string)) (.segment (.string none "" [])),
      .present (.ofShape "items" (.vector (.container "Item"))) (.sequence [.record feed
        [.present (.ofShape "title" (.primitive .string)) (.segment (.string none "" [])),
          .present (.ofShape "items" (.vector (.container "Item"))) (.sequence [])]])]

/-- The odd feed is decoded without validation, and with it refused where its item begins. -/
theorem settings_only_reject_oddFeed :
    (feeds.withConfig ⟨false, 1⟩).decodeFrom.run (.atOffset oddFeed.octets 0) =
        .ok (oddFeed.value, .atOffset oddFeed.octets 24) ∧
      (feeds.withConfig ⟨true, 1⟩).decodeFrom.run (.atOffset oddFeed.octets 0) =
        .error ⟨.headerMismatch "items" [2] 1, .atOffset oddFeed.octets 12⟩ := by
  have hrun : (feeds.withConfig ⟨false, 1⟩).decodeFrom.run (.atOffset oddFeed.octets 0) =
      .ok (oddFeed.value, .atOffset oddFeed.octets 24) := rfl
  obtain ⟨_, _, hchecks, _⟩ := settings_only_reject feeds
  obtain ⟨n, _, hplace, _, hchecks⟩ := hchecks _ _ _ _ _ hrun
  have hn : n = 24 := by
    have hstop := Reader.eq_of_atOffset_eq hplace
    omega
  subst hn
  have hspells : (feeds.withConfig ⟨false, 1⟩).Spells oddFeed ((oddFeed.octets.drop 0).take 24) oddFeed.value := by
    refine ⟨⟨feed, _, rfl, by simp [feeds, withConfig], rfl, ?_⟩, rfl, rfl⟩
    simp only [List.mem_cons, List.not_mem_nil, or_false]
    rintro slot (rfl | rfl)
    · exact ⟨_, rfl, .segment (.string ⟨by decide, rfl⟩)⟩
    · refine ⟨_, rfl, .sequence (by decide) ?_⟩
      simp only [List.mem_singleton, forall_eq]
      refine .record (by simp [withConfig]) ⟨feed, _, rfl, by simp [feeds, withConfig], rfl, ?_⟩
      simp only [List.mem_cons, List.not_mem_nil, or_false]
      rintro slot (rfl | rfl)
      · exact ⟨_, rfl, .segment (.string ⟨by decide, rfl⟩)⟩
      · exact ⟨_, rfl, .sequence (by decide) (by simp)⟩
  have hheaders : oddFeed.nestedHeaders 0 = [] ++ [⟨"items", "Item", 1, 12⟩] := rfl
  have hrefused : ¬feeds.MayLeadTo "Item" 1 := by decide
  exact ⟨hrun, (hchecks oddFeed hspells).refused _ _ _ hheaders (by simp) hrefused⟩

end Registry

end SchemaWire
