import SchemaWire.Proofs.Decoding

/-!
# Decoding is local

What decoding a container gives depends on the octets that it passes and on nothing around them, and where
some of these octets are cut off, decoding runs out of octets and does nothing else (`decodeFrom_local`). A
decoder that is so is called local. Local decoders can be put one after the other (`IsLocal.bind`), which
carries the property from the reads of the wire up to containers. Only the look ahead at a header is not local,
but it is followed by the container that begins with this header (`isLocal_decodeReference`).
-/

namespace SchemaWire

/-- Whether an outcome is that a buffer of the given length ran out of octets. -/
def RunsOut {α : Type} (length : Nat) (outcome : Except DecodeFailure α) : Prop :=
  ∃ requested stop place, outcome = .error ⟨.wire (.underrun requested length stop), place⟩

theorem RunsOut.bind {α β : Type} {length : Nat} {outcome : Except DecodeFailure α}
    (h : RunsOut length outcome) (f : α → Except DecodeFailure β) : RunsOut length (outcome >>= f) := by
  obtain ⟨requested, stop, place, rfl⟩ := h
  exact ⟨requested, stop, place, rfl⟩

namespace Reader

/-! ## Reads of octets that were cut off -/

theorem passes_of_append (offset : Nat) (octets after : Bytes) :
    Passes ⟨offset, octets ++ after⟩ octets ⟨offset + octets.length, after⟩ :=
  ⟨rfl, rfl⟩

/-- The octets that are left of a cut are fewer than asked for. -/
theorem raw_of_cut (octets : Bytes) {k n : Nat} (offset : Nat) (hk : k ≤ octets.length) (hn : k < n) :
    (⟨offset, octets.take k⟩ : Reader).raw n =
      .error (.underrun n (offset + k) (min (offset + n) (UInt64.size - 1))) := by
  have htake : (octets.take k).length = k := List.length_take_of_le hk
  rw [raw, if_neg (by simp only [htake]; omega), underrun, total]
  simp only [htake]

theorem peek_of_cut (octets : Bytes) {k : Nat} (offset : Nat) (hk : k ≤ octets.length) (hn : k < 4) :
    (⟨offset, octets.take k⟩ : Reader).peek =
      .error (.underrun 4 (offset + k) (min (offset + 4) (UInt64.size - 1))) := by
  rw [peek, uint, word, raw_of_cut octets offset hk hn]
  rfl

/-- Looking ahead shows the next four octets, and nothing else matters for it. -/
theorem peek_eq_ok_iff_take {place : Reader} {n : UInt32} :
    place.peek = .ok n ↔ place.rest.take 4 = Word.toBytes 4 n.toNat := by
  rw [peek_eq_ok_iff]
  constructor
  · rintro ⟨next, hrest, _⟩
    rw [hrest, List.take_left' (Word.length_toBytes 4 _)]
  · intro h
    refine ⟨⟨place.offset + 4, place.rest.drop 4⟩, ?_, ?_⟩
    · rw [← h, List.take_append_drop]
    · rw [Word.length_toBytes]

/-- A cut inside the length shows when the length is read, and a cut behind it when the payload is. -/
theorem bytes_of_cut {payload padding : Bytes} (h : IsFrame payload padding) (offset : Nat) {k : Nat}
    (hk : k < (framed payload padding).length) :
    ∃ requested stop, (⟨offset, (framed payload padding).take k⟩ : Reader).bytes =
      .error (.underrun requested (offset + k) stop) := by
  have hlen : (framed payload padding).length = 4 + (payload ++ padding).length := by
    simp [framed]
  by_cases hheader : k < 4
  · refine ⟨4, min (offset + 4) (UInt64.size - 1), ?_⟩
    rw [bytes, word, raw_of_cut _ offset (Nat.le_of_lt hk) hheader]
    rfl
  · have hsplit : (framed payload padding).take k =
        Word.toBytes 4 payload.length ++ (payload ++ padding).take (k - 4) := by
      rw [framed, List.append_assoc, List.take_append, Word.length_toBytes,
        List.take_of_length_le (by rw [Word.length_toBytes]; omega)]
    have hword : (⟨offset, (framed payload padding).take k⟩ : Reader).word 4 =
        .ok (payload.length, ⟨offset + 4, (payload ++ padding).take (k - 4)⟩) := by
      rw [word_eq_ok_iff, hsplit]
      refine ⟨_, Word.length_toBytes 4 _, ?_, (Word.ofBytes_toBytes h.1).symm⟩
      simpa using passes_of_append offset (Word.toBytes 4 payload.length) ((payload ++ padding).take (k - 4))
    have hbody : (payload ++ padding).length = payload.length + SchemaWire.padding payload.length := by
      rw [List.length_append, h.2]
    have hshort := raw_of_cut (payload ++ padding) (k := k - 4)
      (n := payload.length + SchemaWire.padding payload.length) (offset + 4) (by omega) (by omega)
    have hstop : offset + 4 + (k - 4) = offset + k := by omega
    rw [hstop] at hshort
    simp only [bytes, hword, bind, Except.bind, hshort]
    exact ⟨_, _, rfl⟩

theorem string_of_cut {text : String} {padding : Bytes} (h : IsFrame (Utf8.ofString text) padding) (offset : Nat)
    {k : Nat} (hk : k < (framed (Utf8.ofString text) padding).length) :
    ∃ requested stop, (⟨offset, (framed (Utf8.ofString text) padding).take k⟩ : Reader).string =
      .error (.underrun requested (offset + k) stop) := by
  obtain ⟨requested, stop, hbytes⟩ := bytes_of_cut h offset hk
  refine ⟨requested, stop, ?_⟩
  rw [string, hbytes]
  rfl

end Reader

namespace Decoder

/-! ## Local decoders -/

variable {α β : Type} {d : Decoder α} {k : α → Decoder β} {x : α} {y : β} {octets more : Bytes}

/-- Whether a decoder reads something off octets, whatever comes behind them, and runs out of octets where
some of these are missing. -/
structure Takes (d : Decoder α) (octets : Bytes) (x : α) : Prop where
  whole : ∀ offset after, d.run ⟨offset, octets ++ after⟩ = .ok (x, ⟨offset + octets.length, after⟩)
  cut : ∀ offset, ∀ k < octets.length, RunsOut (offset + k) (d.run ⟨offset, octets.take k⟩)

/-- Whether what a decoder reads depends on the octets that it passes and on nothing else. -/
def IsLocal (d : Decoder α) : Prop :=
  ∀ ⦃place x next⦄, d.run place = .ok (x, next) → ∃ octets, place.Passes octets next ∧ d.Takes octets x

/-- A cut of two stretches lies in the first one, or behind it in the second one. -/
theorem Takes.bind (hd : d.Takes octets x) (hk : (k x).Takes more y) : (d >>= k).Takes (octets ++ more) y where
  whole offset after := by
    rw [StateT.run_bind, List.append_assoc, hd.whole]
    show (k x).run ⟨offset + octets.length, more ++ after⟩ = _
    rw [hk.whole, List.length_append, Nat.add_assoc]
  cut offset n hn := by
    rw [StateT.run_bind]
    by_cases hfirst : n < octets.length
    · rw [List.take_append_of_le_length (Nat.le_of_lt hfirst)]
      exact (hd.cut offset n hfirst).bind _
    · have hstop : offset + octets.length + (n - octets.length) = offset + n := by omega
      rw [List.take_append, List.take_of_length_le (by omega), hd.whole, ← hstop]
      apply hk.cut
      rw [List.length_append] at hn
      omega

theorem takes_pure (x : α) : (pure x : Decoder α).Takes [] x where
  whole _ _ := rfl
  cut _ _ hn := absurd hn (Nat.not_lt_zero _)

theorem isLocal_pure (x : α) : (pure x : Decoder α).IsLocal := by
  intro place y next h
  obtain ⟨rfl, rfl⟩ := run_pure_eq_ok_iff.mp h
  exact ⟨[], Reader.passes_nil.mpr rfl, takes_pure y⟩

theorem isLocal_fail (e : EngineError) : (fail e : Decoder α).IsLocal := by
  intro place x next h
  exact (run_fail_eq_ok_iff.mp h).elim

theorem IsLocal.bind (hd : d.IsLocal) (hk : ∀ x, (k x).IsLocal) : (d >>= k).IsLocal := by
  intro place y next h
  obtain ⟨x, mid, hfirst, hsecond⟩ := run_bind_eq_ok_iff.mp h
  obtain ⟨octets, hpass, htakes⟩ := hd hfirst
  obtain ⟨more, hpass', htakes'⟩ := hk x hsecond
  exact ⟨octets ++ more, Reader.passes_append.mpr ⟨mid, hpass, hpass'⟩, htakes.bind htakes'⟩

theorem IsLocal.map (hd : d.IsLocal) (f : α → β) : (do return f (← d) : Decoder β).IsLocal :=
  hd.bind fun x => isLocal_pure (f x)

theorem isLocal_times {n : Nat} (hd : d.IsLocal) : (times n d).IsLocal := by
  induction n with
  | zero => exact isLocal_pure []
  | succ n ih => exact hd.bind fun first => ih.map (first :: ·)

/-! ## Local reads -/

/-- A read is local if its successes are told by the octets that it passes, and cut ones run out. -/
theorem isLocal_read {f : Reader → Except WireError (α × Reader)} (Spelled : Bytes → α → Prop)
    (hok : ∀ {place x next}, f place = .ok (x, next) ↔ ∃ octets, Spelled octets x ∧ place.Passes octets next)
    (hcut : ∀ {octets x}, Spelled octets x → ∀ offset, ∀ k < octets.length,
      ∃ requested stop, f ⟨offset, octets.take k⟩ = .error (.underrun requested (offset + k) stop)) :
    (read f).IsLocal := by
  intro place x next h
  obtain ⟨octets, hspelled, hpass⟩ := hok.mp (run_read_eq_ok_iff.mp h)
  refine ⟨octets, hpass, ?_, ?_⟩
  · intro offset after
    exact run_read_eq_ok_iff.mpr (hok.mpr ⟨octets, hspelled, Reader.passes_of_append offset octets after⟩)
  · intro offset k hk
    obtain ⟨requested, stop, herror⟩ := hcut hspelled offset k hk
    refine ⟨requested, stop, ⟨offset, octets.take k⟩, ?_⟩
    show (f _).mapError _ = _
    rw [herror]
    rfl

/-- Whatever is a view of a fixed number of octets is read locally. -/
theorem isLocal_read_view {f : Reader → Except WireError (α × Reader)} (width : Nat) (view : Bytes → α)
    (hf : ∀ place, f place = (place.raw width).map fun (octets, next) => (view octets, next)) : (read f).IsLocal := by
  apply isLocal_read fun octets x => octets.length = width ∧ x = view octets
  · intro place x next
    rw [hf, Reader.map_raw_eq_ok_iff]
    constructor
    · rintro ⟨octets, hlen, hpass, hx⟩
      exact ⟨octets, ⟨hlen, hx⟩, hpass⟩
    · rintro ⟨octets, ⟨hlen, hx⟩, hpass⟩
      exact ⟨octets, hlen, hpass, hx⟩
  · rintro octets x ⟨rfl, -⟩ offset k hk
    refine ⟨octets.length, min (offset + octets.length) (UInt64.size - 1), ?_⟩
    rw [hf, Reader.raw_of_cut _ offset (Nat.le_of_lt hk) hk]
    rfl

theorem isLocal_raw (n : Nat) : (read (Reader.raw n)).IsLocal := by
  apply isLocal_read_view n id
  intro place
  cases place.raw n <;> rfl

theorem isLocal_word (width : Nat) : (read (Reader.word width)).IsLocal :=
  isLocal_read_view width Word.ofBytes fun _ => rfl

theorem isLocal_signed (width : Nat) : (read (Reader.signed width)).IsLocal :=
  isLocal_read_view width Word.signed fun _ => rfl

theorem isLocal_uint : (read Reader.uint).IsLocal :=
  isLocal_read_view 4 (fun octets => UInt32.ofNat (Word.ofBytes octets)) fun _ => Reader.uint_eq_map_raw

theorem isLocal_float : (read Reader.float).IsLocal :=
  isLocal_read_view 4 Single.ofOctets fun _ => Except.map_map

theorem isLocal_double : (read Reader.double).IsLocal :=
  isLocal_read_view 8 Double.ofOctets fun _ => Except.map_map

theorem isLocal_long : (read Reader.long).IsLocal :=
  isLocal_read_view 8 longText fun _ => rfl

theorem isLocal_bool : (read Reader.bool).IsLocal := by
  apply isLocal_read fun octets b => octets = [if b then 1 else 0]
  · intro place b next
    rw [Reader.bool_eq_ok_iff]
    constructor
    · intro hpass
      exact ⟨_, rfl, hpass⟩
    · rintro ⟨_, rfl, hpass⟩
      exact hpass
  · rintro _ b rfl offset k hk
    obtain rfl : k = 0 := Nat.lt_one_iff.mp hk
    exact ⟨1, _, rfl⟩

theorem isLocal_bytes : (read Reader.bytes).IsLocal := by
  apply isLocal_read fun octets payload => ∃ padding, IsFrame payload padding ∧ octets = framed payload padding
  · intro place payload next
    rw [Reader.bytes_eq_ok_iff_framed]
    constructor
    · rintro ⟨padding, hframe, hpass⟩
      exact ⟨_, ⟨padding, hframe, rfl⟩, hpass⟩
    · rintro ⟨_, ⟨padding, hframe, rfl⟩, hpass⟩
      exact ⟨padding, hframe, hpass⟩
  · rintro _ payload ⟨padding, hframe, rfl⟩ offset k hk
    exact Reader.bytes_of_cut hframe offset hk

theorem isLocal_string : (read Reader.string).IsLocal := by
  apply isLocal_read fun octets text =>
    ∃ padding, IsFrame (Utf8.ofString text) padding ∧ octets = framed (Utf8.ofString text) padding
  · intro place text next
    rw [Reader.string_eq_ok_iff, Reader.bytes_eq_ok_iff_framed]
    constructor
    · rintro ⟨padding, hframe, hpass⟩
      exact ⟨_, ⟨padding, hframe, rfl⟩, hpass⟩
    · rintro ⟨_, ⟨padding, hframe, rfl⟩, hpass⟩
      exact ⟨padding, hframe, hpass⟩
  · rintro _ text ⟨padding, hframe, rfl⟩ offset k hk
    exact Reader.string_of_cut hframe offset hk

end Decoder

namespace Registry

open Decoder

variable {r : Registry} {nested : Decoder Value}

/-! ## Params and containers -/

theorem isLocal_decodePrimitive (type : Primitive) : (decodePrimitive type).IsLocal := by
  cases type with
  | int => exact (isLocal_signed 4).map _
  | uint => exact (isLocal_word 4).map _
  | short => exact (isLocal_signed 2).map _
  | ushort => exact (isLocal_word 2).map _
  | float => exact isLocal_float.map _
  | double => exact isLocal_double.map _
  | long => exact isLocal_long.map _
  | ulong => exact isLocal_long.map _
  | bool => exact isLocal_bool.map _
  | string => exact isLocal_string.map _
  | bytes => exact isLocal_bytes.map _

/-- A container cannot be shorter than its header, and the look ahead shows no more than the header. -/
theorem isLocal_decodeReference (hnested : nested.IsLocal)
    (hheader : ∀ place v next octets, nested.run place = .ok (v, next) → place.Passes octets next → 4 ≤ octets.length)
    (reference param : String) : (r.decodeReference nested reference param).IsLocal := by
  intro place v next h
  obtain ⟨_, mid, hcheck, h⟩ := run_bind_eq_ok_iff.mp h
  obtain ⟨hmid, hok⟩ := run_checkHeader_eq_ok_iff.mp hcheck
  rw [hmid] at h
  obtain ⟨octets, hpass, htakes⟩ := hnested h
  have hlong : 4 ≤ octets.length := hheader place v next octets h hpass
  have hfirst : place.rest.take 4 = octets.take 4 := by
    rw [hpass.1, List.take_append_of_le_length hlong]
  refine ⟨octets, hpass, ?_, ?_⟩
  · intro offset after
    refine run_bind_eq_ok_iff.mpr ⟨(), _, run_checkHeader_eq_ok_iff.mpr ⟨rfl, ?_⟩, htakes.whole offset after⟩
    intro hon hne
    obtain ⟨id, hmem, hpeek⟩ := hok hon hne
    refine ⟨id, hmem, Reader.peek_eq_ok_iff_take.mpr ?_⟩
    rw [List.take_append_of_le_length hlong, ← hfirst]
    exact Reader.peek_eq_ok_iff_take.mp hpeek
  · intro offset k hk
    rw [decodeReference, StateT.run_bind, run_checkHeader]
    by_cases hon : r.config.structuralValidation = true ∧ r.possibleIds reference ≠ []
    · rw [if_pos hon]
      by_cases hshort : k < 4
      · rw [Reader.peek_of_cut _ offset (Nat.le_of_lt hk) hshort]
        exact ⟨4, _, _, rfl⟩
      · obtain ⟨id, hmem, hpeek⟩ := hok hon.1 hon.2
        have hsame : (⟨offset, octets.take k⟩ : Reader).peek = .ok id := by
          rw [Reader.peek_eq_ok_iff_take, List.take_take, Nat.min_eq_left (by omega), ← hfirst]
          exact Reader.peek_eq_ok_iff_take.mp hpeek
        simp only [hsame, if_pos hmem]
        exact htakes.cut offset k hk
    · rw [if_neg hon]
      exact htakes.cut offset k hk

theorem isLocal_decodeShape (hnested : nested.IsLocal)
    (hheader : ∀ place v next octets, nested.run place = .ok (v, next) → place.Passes octets next → 4 ≤ octets.length)
    (param : String) (shape : Shape) : (r.decodeShape nested param shape).IsLocal := by
  have hreference := isLocal_decodeReference (r := r) hnested hheader
  cases shape with
  | primitive type => exact isLocal_decodePrimitive type
  | strict type size =>
    cases type with
    | bytes => exact (isLocal_raw size.toNat).map _
    | _ => exact isLocal_string.map _
  | vector item =>
    cases item with
    | primitive type => exact (isLocal_word 4).bind fun _ => (isLocal_times (isLocal_decodePrimitive type)).map _
    | container reference => exact (isLocal_word 4).bind fun _ => (isLocal_times (hreference reference param)).map _
  | reference reference => exact hreference reference param

/-- A truth value in front, and what follows it only if it is true. -/
theorem isLocal_optional {α : Type} {d : Decoder (Option α)} (hd : d.IsLocal) (optional : Bool) :
    Decoder.IsLocal (do
      if optional then
        if !(← read Reader.bool) then return none
      d) := by
  by_cases hoptional : optional = true
  · rw [if_pos hoptional]
    refine isLocal_bool.bind fun there => ?_
    cases there with
    | false => exact isLocal_pure none
    | true => exact hd
  · rw [if_neg hoptional]
    exact hd

theorem isLocal_decodeParam (hshape : ∀ param shape, (r.decodeShape nested param shape).IsLocal)
    (containerName : String) (p : Param) : (r.decodeParam nested containerName p).IsLocal := by
  rw [decodeParam]
  cases p.shape? with
  | none => exact isLocal_optional (isLocal_fail _) p.isOptional
  | some shape => exact isLocal_optional ((hshape p.name shape).map some) p.isOptional

theorem isLocal_decodeParams (hshape : ∀ param shape, (r.decodeShape nested param shape).IsLocal)
    (containerName : String) (params : List Param) : (r.decodeParams nested containerName params).IsLocal := by
  induction params with
  | nil => exact isLocal_pure []
  | cons p params ih => exact (isLocal_decodeParam hshape containerName p).bind fun _ => ih.map _

/-- A container passes at least its header. -/
theorem four_le_length_of_decodeContainer {levels : Nat} {place next : Reader} {v : Value} {octets : Bytes}
    (h : (r.decodeContainer levels).run place = .ok (v, next)) (hpass : place.Passes octets next) :
    4 ≤ octets.length := by
  obtain ⟨m, hm, hpass', _⟩ := (decodeContainer_reads levels _ _ _).mp h
  obtain ⟨c, slots, rfl, _⟩ := hm.exists_record
  have hlength : place.offset + octets.length = place.offset + (Message.record c slots).octets.length :=
    hpass.2.symm.trans hpass'.2
  rw [Message.octets_record, List.length_append, Word.length_toBytes] at hlength
  omega

theorem isLocal_decodeContainer (levels : Nat) : (r.decodeContainer levels).IsLocal := by
  induction levels with
  | zero => exact isLocal_fail _
  | succ levels ih =>
    refine isLocal_uint.bind fun id => ?_
    cases r.containerOfId? id with
    | none => exact isLocal_fail _
    | some c =>
      have hshape := isLocal_decodeShape (r := r) ih fun _ _ _ _ => four_le_length_of_decodeContainer
      exact (isLocal_decodeParams hshape c.name c.params).map _

/-- Where decoding a container succeeds, the same octets give the same value wherever they lie in a buffer, and
every cut of them gives an underrun. -/
theorem decodeFrom_local {buffer : Bytes} {offset : Nat} {v : Value} {place : Reader}
    (h : r.decodeFrom.run (.atOffset buffer offset) = .ok (v, place)) :
    ∃ n, offset + n ≤ buffer.length ∧ place = .atOffset buffer (offset + n) ∧
      (∀ other start, (other.drop start).take n = (buffer.drop offset).take n →
        r.decodeFrom.run (.atOffset other start) = .ok (v, .atOffset other (start + n))) ∧
      ∀ k < n, ∃ requested stop last, r.decodeFrom.run (.atOffset (buffer.take (offset + k)) offset) =
        .error ⟨.wire (.underrun requested (offset + k) stop), last⟩ := by
  obtain ⟨octets, hpass, htakes⟩ := isLocal_decodeContainer _ h
  obtain ⟨hplace, hoctets⟩ := Reader.eq_of_passes_atOffset hpass
  have hheader := four_le_length_of_decodeContainer h hpass
  refine ⟨octets.length, Reader.le_length_of_passes_atOffset hpass (by omega), hplace, ?_, ?_⟩
  · intro other start hsame
    have hother : other.drop start = octets ++ other.drop (start + octets.length) := by
      rw [← List.drop_drop]
      conv_lhs => rw [← List.take_append_drop octets.length (other.drop start), hsame, ← hoctets]
    rw [Reader.atOffset, hother]
    exact htakes.whole start _
  · intro k hk
    have hcut : (buffer.take (offset + k)).drop offset = octets.take k := by
      rw [hoctets, List.take_take, Nat.min_eq_left (Nat.le_of_lt hk), List.drop_take, Nat.add_sub_cancel_left]
    rw [Reader.atOffset, hcut]
    exact htakes.cut offset k hk

/-- A container of a text and of a vector of all that has the trait `Item`. -/
def feed : Container :=
  ⟨1, "feed", "Feed", [],
    [.ofShape "title" (.primitive .string), .ofShape "items" (.vector (.container "Item"))], []⟩

/-- A container with the trait `Item`, of two octets that may be absent. -/
def photo : Container :=
  ⟨2, "photo", "Photo", ["Item"], [(Param.ofShape "hash" (.strict .bytes 2)).setOptional true], []⟩

/-- The registry of feeds and photos, which checks headers. -/
def feeds : Registry := .ofNodup [feed, photo] ⟨true, 1⟩ (by decide) (by decide)

/-- A feed after an octet of something else, with the title `a` and one photo. -/
def feedBuffer : Bytes :=
  [9, 1, 0, 0, 0, 1, 0, 0, 0, 97, 0, 1, 0, 0, 0, 2, 0, 0, 0, 1, 5, 6]

/-- The feed is the same behind nothing and before more, and has no value where the photo is cut off inside its
header. -/
theorem decodeFrom_local_feedBuffer :
    ∃ v, feeds.decodeFrom.run (.atOffset feedBuffer 1) = .ok (v, .atOffset feedBuffer 22) ∧
      feeds.decodeFrom.run (.atOffset (feedBuffer.drop 1 ++ [8, 8]) 0) =
        .ok (v, .atOffset (feedBuffer.drop 1 ++ [8, 8]) 21) ∧
      ∃ requested stop last, feeds.decodeFrom.run (.atOffset (feedBuffer.take (1 + 16)) 1) =
        .error ⟨.wire (.underrun requested 17 stop), last⟩ := by
  have hrun : ∃ v, feeds.decodeFrom.run (.atOffset feedBuffer 1) = .ok (v, .atOffset feedBuffer 22) := ⟨_, rfl⟩
  obtain ⟨v, hrun⟩ := hrun
  obtain ⟨n, _, hplace, hwhole, hcut⟩ := decodeFrom_local hrun
  have hn : n = 21 := by
    have hstop := Reader.eq_of_atOffset_eq hplace
    omega
  subst hn
  exact ⟨v, hrun, hwhole _ 0 rfl, hcut 16 (by decide)⟩

end Registry

end SchemaWire
