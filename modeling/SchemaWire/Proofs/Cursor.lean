import SchemaWire.Proofs.Stream
import SchemaWire.Stateful
import SchemaWire.Wire.Cursor

/-!
# Cursors stay in their buffers

Whatever was asked of a cursor before, and whether it was given or not, the next read either succeeds and passes
exactly what it tells, or fails and leaves the cursor where it was (`serve_after`). A read moves a cursor as the
read of its place in the buffer says (`Follows`), so that a failure in the middle is put back, and all else is
read off the place.
-/

namespace SchemaWire

/-- What can be asked of a cursor: an entry of a kind, or a look at the next number without passing it. -/
inductive Request
  | entry (kind : EntryKind)
  | peek
  deriving DecidableEq, Repr

/-- The octets of a payload that was read. -/
def Reading.payload : Reading → Bytes
  | .text given => Utf8.ofString given
  | .octets given => given
  | _ => []

namespace EntryKind

/-- The number of octets of an entry, unless it tells its length itself. -/
def width? : EntryKind → Option Nat
  | .raw length => some length
  | .primitive .bool => some 1
  | .primitive type => type.width?

/-- The number of octets that a reading was told by: a payload comes with four octets of length and with padding. -/
def size (kind : EntryKind) (reading : Reading) : Nat :=
  match kind.width? with
  | some width => width
  | none => 4 + reading.payload.length + reading.payload.length % 4

end EntryKind

namespace Request

/-- The number of octets that a reading is told by. -/
def covered : Request → Reading → Nat
  | .entry kind, reading => kind.size reading
  | .peek, _ => 4

/-- The number of octets that are passed with a reading. -/
def passed : Request → Reading → Nat
  | .entry kind, reading => kind.size reading
  | .peek, _ => 0

/-- The stretches that a request asks the buffer for, given by where they begin and by their lengths. The second
one of a payload is as long as the first one says. -/
inductive Asks (c : Cursor) : Request → Nat → Nat → Prop
  | peek : Asks c .peek c.offset 4
  | whole {kind : EntryKind} {width : Nat} (h : kind.width? = some width) : Asks c (.entry kind) c.offset width
  | length {kind : EntryKind} (h : kind.width? = none) : Asks c (.entry kind) c.offset 4
  | payload {kind : EntryKind} {n : Nat} (h : kind.width? = none) (hfits : c.offset + 4 ≤ c.buffer.length)
    (hlt : n < 0x1_0000_0000) (hlength : Word.IsLittleEndian ((c.buffer.drop c.offset).take 4) n) :
    Asks c (.entry kind) (c.offset + 4) (n + n % 4)

end Request

/-- What is asked for, told from a place in a buffer. -/
def Reader.request (place : Reader) : Request → Except WireError (Reading × Reader)
  | .entry kind => place.entry kind
  | .peek => place.peek.map fun n => (.integer n.toNat, place)

namespace Cursor

/-- Does what is asked for. -/
def serve : Request → Read Reading
  | .entry (.primitive .int) => return .integer (← signed 4)
  | .entry (.primitive .uint) => return .integer (← word 4)
  | .entry (.primitive .short) => return .integer (← signed 2)
  | .entry (.primitive .ushort) => return .integer (← word 2)
  | .entry (.primitive .float) => return .float (← float)
  | .entry (.primitive .double) => return .double (← double)
  | .entry (.primitive .bool) => return .bool (← bool)
  | .entry (.primitive .long) => return .text (← long)
  | .entry (.primitive .ulong) => return .text (← long)
  | .entry (.primitive .bytes) => return .octets (← bytes)
  | .entry (.primitive .string) => return .text (← string)
  | .entry (.raw length) => return .octets (← raw length)
  | .peek => return .integer (← peek).toNat

/-- Where a cursor is after requests, whether they were served or not. -/
def after (c : Cursor) (requests : List Request) : Cursor :=
  requests.foldl (fun c request => ((serve request).run.run c).2) c

/-! ## Reads of cursors and of places -/

variable {α β : Type}

/-- The place of a cursor. -/
def place (c : Cursor) : Reader :=
  .atOffset c.buffer c.offset

theorem offset_place (c : Cursor) : c.place.offset = c.offset := rfl

/-- What the outcome of a read of its place does to a cursor. -/
def settle (c : Cursor) : Except WireError (α × Reader) → Except WireError α × Cursor
  | .ok (x, next) => (.ok x, { c with offset := next.offset })
  | .error e => (.error e, c)

/-- Whether a read does to every cursor inside its buffer what the read of its place says. -/
def Follows (d : Read α) (f : Reader → Except WireError (α × Reader)) : Prop :=
  ∀ c : Cursor, c.offset ≤ c.buffer.length → d.run.run c = c.settle (f c.place)

open Stateful

theorem Follows.map {d : Read α} {f : Reader → Except WireError (α × Reader)} (h : Follows d f) (g : α → β) :
    Follows (do return g (← d)) fun place => (f place).map fun (x, next) => (g x, next) := by
  intro c hc
  rw [run_bind, h c hc]
  dsimp only
  cases f c.place <;> rfl

theorem run_slice (n : Nat) (c : Cursor) :
    (slice n).run.run c =
      if c.offset + n ≤ c.buffer.length then (.ok ((c.buffer.drop c.offset).take n), c)
      else (.error (c.underrun n), c) := by
  simp only [slice, run_bind, run_get]
  split <;> rfl

theorem total_place {c : Cursor} (h : c.offset ≤ c.buffer.length) : c.place.total = c.buffer.length := by
  simp only [Reader.total, place, Reader.atOffset, List.length_drop]
  omega

theorem underrun_place {c : Cursor} (h : c.offset ≤ c.buffer.length) (n : Nat) :
    c.place.underrun n = c.underrun n := by
  rw [Reader.underrun, total_place h, underrun]
  rfl

theorem raw_place {c : Cursor} (h : c.offset ≤ c.buffer.length) (n : Nat) :
    c.place.raw n =
      if c.offset + n ≤ c.buffer.length then
        .ok ((c.buffer.drop c.offset).take n, .atOffset c.buffer (c.offset + n))
      else .error (c.underrun n) := by
  have hfits : n ≤ c.place.rest.length ↔ c.offset + n ≤ c.buffer.length := by
    rw [place, Reader.atOffset, List.length_drop]
    omega
  simp only [Reader.raw, hfits, underrun_place h]
  split
  · rw [place, Reader.atOffset, Reader.atOffset, List.drop_drop]
  · rfl

theorem follows_raw (n : Nat) : Follows (raw n) (Reader.raw n) := by
  intro c hc
  rw [raw_place hc, raw, run_bind, run_slice]
  by_cases h : c.offset + n ≤ c.buffer.length
  · rw [if_pos h, if_pos h]
    rfl
  · rw [if_neg h, if_neg h]
    rfl

theorem follows_peek : Follows peek fun place => place.peek.map fun n => (n, place) := by
  intro c hc
  simp only [peek, run_bind, run_slice, Reader.peek, Reader.uint_eq_map_raw, raw_place hc]
  by_cases h : c.offset + 4 ≤ c.buffer.length
  · rw [if_pos h, if_pos h]
    rfl
  · rw [if_neg h, if_neg h]
    rfl

theorem follows_bool : Follows bool Reader.bool := by
  intro c hc
  have hrest : c.place.rest = c.buffer.drop c.offset := rfl
  have hlength : (c.buffer.drop c.offset).length = c.buffer.length - c.offset := List.length_drop
  rw [bool, run_bind, run_slice, Reader.bool, hrest, underrun_place hc]
  cases hdrop : c.buffer.drop c.offset with
  | nil =>
    rw [hdrop, List.length_nil] at hlength
    rw [if_neg (by omega)]
    rfl
  | cons octet rest =>
    rw [hdrop, List.length_cons] at hlength
    rw [if_pos (by omega)]
    simp only [List.take_succ_cons, List.take_zero, List.headD_cons]
    by_cases hfalse : octet = 0
    · simp only [hfalse, ↓reduceIte]
      rfl
    · by_cases htrue : octet = 1
      · simp only [htrue, ↓reduceIte]
        rfl
      · simp only [hfalse, htrue, ↓reduceIte]
        rfl

theorem follows_word (width : Nat) : Follows (word width) (Reader.word width) :=
  (follows_raw width).map Word.ofBytes

/-- A payload is a length of 32 bits, and a stretch that is as long as this says. -/
theorem exists_length_place {c : Cursor} (h : c.offset + 4 ≤ c.buffer.length) :
    ∃ n : Nat, n < 0x1_0000_0000 ∧ Word.IsLittleEndian ((c.buffer.drop c.offset).take 4) n ∧
      c.place.word 4 = .ok (n, place ⟨c.buffer, c.offset + 4⟩) ∧
      c.place.bytes = ((place ⟨c.buffer, c.offset + 4⟩).raw (n + padding n)).map
        fun (octets, next) => (octets.take n, next) := by
  have hcount : ((c.buffer.drop c.offset).take 4).length = 4 := by
    rw [List.length_take, List.length_drop]
    omega
  have hlt := Word.ofBytes_lt ((c.buffer.drop c.offset).take 4)
  have hholds := Word.isLittleEndian_toBytes 4 (Word.ofBytes ((c.buffer.drop c.offset).take 4))
  have hback := Word.toBytes_ofBytes ((c.buffer.drop c.offset).take 4)
  rw [hcount] at hlt hback
  rw [hback] at hholds
  have hword : c.place.word 4 =
      .ok (Word.ofBytes ((c.buffer.drop c.offset).take 4), place ⟨c.buffer, c.offset + 4⟩) := by
    rw [Reader.word, raw_place (by omega), if_pos h]
    rfl
  refine ⟨_, hlt, hholds, hword, ?_⟩
  rw [Reader.bytes, hword]
  show (do let (octets, next) ← Reader.raw _ _; return _) = _
  cases Reader.raw _ _ <;> rfl

/-- The length of a payload fits 32 bits, so that its sum with the padding fits 64. What is put back are a length
that is cut off and a payload that is. -/
theorem follows_bytes : Follows bytes Reader.bytes := by
  intro c hc
  by_cases hheader : c.offset + 4 ≤ c.buffer.length
  · obtain ⟨n, hlt, _, hword, hbytes⟩ := exists_length_place hheader
    have hsmall : ¬UInt64.size ≤ n + padding n := by
      rw [UInt64.size, padding]
      omega
    -- the check of the cursor is that of the second read of the place
    have hremaining : remaining ⟨c.buffer, c.offset + 4⟩ < n + padding n ↔
        ¬c.offset + 4 + (n + padding n) ≤ c.buffer.length := by
      simp only [remaining]
      omega
    have hbody := raw_place (c := ⟨c.buffer, c.offset + 4⟩) hheader (n + padding n)
    simp only [bytes, run_bind, run_get, follows_word 4 c hc, hword, settle, offset_place, if_neg hsmall, hbytes, hbody]
    by_cases hfits : c.offset + 4 + (n + padding n) ≤ c.buffer.length
    · rw [if_pos hfits, if_neg (hremaining.not.mpr (not_not_intro hfits)), Except.map, List.take_take,
        Nat.min_eq_left (Nat.le_add_right ..)]
      rfl
    · rw [if_neg hfits, if_pos (hremaining.mpr hfits)]
      rfl
  · have hword : c.place.word 4 = .error (c.underrun 4) := by
      rw [Reader.word, raw_place hc, if_neg hheader]
      rfl
    simp only [bytes, run_bind, run_get, follows_word 4 c hc, hword, Reader.bytes]
    rfl

theorem follows_string : Follows string Reader.string := by
  intro c hc
  simp only [string, run_bind, run_get, follows_bytes c hc, Reader.string]
  cases c.place.bytes with
  | error e => rfl
  | ok result =>
    obtain ⟨payload, next⟩ := result
    simp only [settle, bind, Except.bind]
    cases Utf8.toString? payload <;> rfl

theorem follows_serve (request : Request) : Follows (serve request) fun place => place.request request := by
  cases request with
  | peek =>
    intro c hc
    rw [serve, run_bind, follows_peek c hc]
    dsimp only [Reader.request]
    cases c.place.peek <;> rfl
  | entry kind =>
    cases kind with
    | raw length => exact (follows_raw length).map Reading.octets
    | primitive type =>
      cases type with
      | int => exact ((follows_raw 4).map Word.signed).map Reading.integer
      | uint => exact (follows_word 4).map fun n => Reading.integer n
      | short => exact ((follows_raw 2).map Word.signed).map Reading.integer
      | ushort => exact (follows_word 2).map fun n => Reading.integer n
      | float => exact ((follows_word 4).map fun n => (⟨UInt32.ofNat n⟩ : Single)).map Reading.float
      | double => exact ((follows_word 8).map fun n => (⟨UInt64.ofNat n⟩ : Double)).map Reading.double
      | bool => exact follows_bool.map Reading.bool
      | long => exact ((follows_raw 8).map longText).map Reading.text
      | ulong => exact ((follows_raw 8).map longText).map Reading.text
      | bytes => exact follows_bytes.map Reading.octets
      | string => exact follows_string.map Reading.text

end Cursor

/-! ## What a read tells -/

namespace Reader

variable {place next : Reader} {kind : EntryKind} {request : Request} {reading : Reading} {width : Nat}

theorem passes_of_append_eq {octets after : Bytes} (h : octets ++ after = place.rest) :
    place.Passes octets ⟨place.offset + octets.length, after⟩ :=
  ⟨h.symm, rfl⟩

/-- What has a width, other than a truth value, is a view of the octets of this width. -/
theorem exists_view (h : kind.width? = some width) (hbool : kind ≠ .primitive .bool) :
    ∃ view : Bytes → Reading, ∀ place : Reader,
      place.entry kind = (place.raw width).map fun (octets, next) => (view octets, next) := by
  cases kind with
  | raw length =>
    cases h
    exact ⟨.octets, fun _ => rfl⟩
  | primitive type =>
    cases type with
    | bool => exact absurd rfl hbool
    | string => cases h
    | bytes => cases h
    | int =>
      cases h
      exact ⟨fun octets => .integer (Word.signed octets), fun _ => Except.map_map⟩
    | uint =>
      cases h
      exact ⟨fun octets => .integer (Word.ofBytes octets), fun _ => Except.map_map⟩
    | short =>
      cases h
      exact ⟨fun octets => .integer (Word.signed octets), fun _ => Except.map_map⟩
    | ushort =>
      cases h
      exact ⟨fun octets => .integer (Word.ofBytes octets), fun _ => Except.map_map⟩
    | float =>
      cases h
      exact ⟨fun octets => .float (Single.ofOctets octets), fun _ => Except.map_map.trans Except.map_map⟩
    | double =>
      cases h
      exact ⟨fun octets => .double (Double.ofOctets octets), fun _ => Except.map_map.trans Except.map_map⟩
    | long =>
      cases h
      exact ⟨fun octets => .text (longText octets), fun _ => Except.map_map⟩
    | ulong =>
      cases h
      exact ⟨fun octets => .text (longText octets), fun _ => Except.map_map⟩

theorem eq_of_width?_eq_none (h : kind.width? = none) : kind = .primitive .bytes ∨ kind = .primitive .string := by
  cases kind with
  | raw length => cases h
  | primitive type => cases type <;> simp_all [EntryKind.width?, Primitive.width?]

theorem bytes_told {payload : Bytes} (h : place.bytes = .ok (payload, next)) :
    ∃ octets, octets.length = 4 + payload.length + payload.length % 4 ∧ place.Passes octets next ∧
      ∀ other last : Reader, other.Passes octets last → other.bytes = .ok (payload, last) := by
  obtain ⟨pad, hsize, hpad, hpass⟩ := bytes_eq_ok_iff.mp h
  refine ⟨_, ?_, hpass, fun other last hother => bytes_eq_ok_iff.mpr ⟨pad, hsize, hpad, hother⟩⟩
  simp only [List.length_append, Word.length_toBytes, hpad, padding]

/-- An entry is told by as many octets as its kind and what was read say, and by nothing else. -/
theorem entry_told (h : place.entry kind = .ok (reading, next)) :
    ∃ octets, octets.length = kind.size reading ∧ place.Passes octets next ∧
      ∀ other last : Reader, other.Passes octets last → other.entry kind = .ok (reading, last) := by
  cases hwidth : kind.width? with
  | none =>
    rcases eq_of_width?_eq_none hwidth with rfl | rfl
    · obtain ⟨⟨payload, _⟩, hbytes, ⟨⟩⟩ := Except.map_eq_ok_iff.mp h
      obtain ⟨octets, hlength, hpass, hother⟩ := bytes_told hbytes
      refine ⟨octets, hlength, hpass, fun other last hlast => ?_⟩
      rw [entry, hother other last hlast]
      rfl
    · obtain ⟨⟨text, _⟩, hstring, ⟨⟩⟩ := Except.map_eq_ok_iff.mp h
      obtain ⟨octets, hlength, hpass, hother⟩ := bytes_told (string_eq_ok_iff.mp hstring)
      refine ⟨octets, hlength, hpass, fun other last hlast => ?_⟩
      rw [entry, string_eq_ok_iff.mpr (hother other last hlast)]
      rfl
  | some width =>
    have hsize : kind.size reading = width := by rw [EntryKind.size, hwidth]
    by_cases hbool : kind = .primitive .bool
    · subst hbool
      obtain ⟨⟨b, _⟩, hread, ⟨⟩⟩ := Except.map_eq_ok_iff.mp h
      refine ⟨_, ?_, bool_eq_ok_iff.mp hread, fun other last hlast => ?_⟩
      · rfl
      · rw [entry, bool_eq_ok_iff.mpr hlast]
        rfl
    · obtain ⟨view, hview⟩ := exists_view hwidth hbool
      rw [hview, map_raw_eq_ok_iff] at h
      obtain ⟨octets, hlength, hpass, rfl⟩ := h
      refine ⟨octets, hlength.trans hsize.symm, hpass, fun other last hlast => ?_⟩
      rw [hview, map_raw_eq_ok_iff]
      exact ⟨octets, hlength, hlast, rfl⟩

/-- What is asked for is told by the octets that are covered, of which as many are passed as are said. -/
theorem request_told (h : place.request request = .ok (reading, next)) :
    next.offset = place.offset + request.passed reading ∧
    ∃ octets, octets.length = request.covered reading ∧ octets <+: place.rest ∧
      ∀ other : Reader, octets <+: other.rest →
        ∃ last, other.request request = .ok (reading, last) ∧ last.offset = other.offset + request.passed reading := by
  cases request with
  | entry kind =>
    obtain ⟨octets, hlength, hpass, hother⟩ := entry_told h
    refine ⟨hpass.2.trans (congrArg _ hlength), octets, hlength, ⟨next.rest, hpass.1.symm⟩, ?_⟩
    rintro other ⟨after, hafter⟩
    exact ⟨_, hother other _ (passes_of_append_eq hafter), congrArg _ hlength⟩
  | peek =>
    obtain ⟨n, hpeek, ⟨⟩⟩ := Except.map_eq_ok_iff.mp h
    obtain ⟨mid, hpass⟩ := peek_eq_ok_iff.mp hpeek
    refine ⟨rfl, _, Word.length_toBytes 4 _, ⟨mid.rest, hpass.1.symm⟩, ?_⟩
    rintro other ⟨after, hafter⟩
    refine ⟨other, ?_, rfl⟩
    rw [request, peek_eq_ok_iff.mpr ⟨_, passes_of_append_eq hafter⟩]
    rfl

end Reader

namespace Cursor

/-! ## What a read runs out of -/

variable {c : Cursor} {request : Request} {requested length stop : Nat}

theorem eq_of_raw_underrun {n : Nat} (hc : c.offset ≤ c.buffer.length)
    (h : c.place.raw n = .error (.underrun requested length stop)) :
    requested = n ∧ length = c.buffer.length ∧ c.buffer.length < c.offset + n ∧
      stop = min (c.offset + n) (UInt64.size - 1) := by
  rw [raw_place hc] at h
  split at h
  · cases h
  · next hshort =>
    cases h
    exact ⟨rfl, rfl, Nat.lt_of_not_le hshort, rfl⟩

/-- What a payload runs out of is its length, or the stretch that the length tells. -/
theorem bytes_underrun (hc : c.offset ≤ c.buffer.length)
    (h : c.place.bytes = .error (.underrun requested length stop)) :
    c.place.raw 4 = .error (.underrun requested length stop) ∨
    ∃ n : Nat, n < 0x1_0000_0000 ∧ c.offset + 4 ≤ c.buffer.length ∧
      Word.IsLittleEndian ((c.buffer.drop c.offset).take 4) n ∧
      (place ⟨c.buffer, c.offset + 4⟩).raw (n + n % 4) = .error (.underrun requested length stop) := by
  by_cases hheader : c.offset + 4 ≤ c.buffer.length
  · obtain ⟨n, hlt, hholds, _, hbytes⟩ := exists_length_place hheader
    rw [hbytes, Except.map_eq_error_iff] at h
    exact .inr ⟨n, hlt, hheader, hholds, h⟩
  · have hraw : c.place.raw 4 = .error (c.underrun 4) := by rw [raw_place hc, if_neg hheader]
    rw [Reader.bytes, Reader.word, hraw] at h
    exact .inl (hraw.trans h)

theorem string_underrun {place : Reader} (h : place.string = .error (.underrun requested length stop)) :
    place.bytes = .error (.underrun requested length stop) := by
  unfold Reader.string at h
  cases hbytes : place.bytes with
  | error e =>
    rw [hbytes] at h
    cases h
    rfl
  | ok result =>
    simp only [hbytes, bind, Except.bind] at h
    split at h <;> cases h

theorem bool_underrun {place : Reader} (h : place.bool = .error (.underrun requested length stop)) :
    place.raw 1 = .error (.underrun requested length stop) := by
  obtain ⟨offset, rest⟩ := place
  cases rest with
  | nil =>
    cases h
    rfl
  | cons octet rest =>
    simp only [Reader.bool] at h
    split at h
    · cases h
    · split at h <;> cases h

/-- A read that runs out of octets asked for a stretch that goes beyond the end of the buffer. -/
theorem asks_of_underrun (hc : c.offset ≤ c.buffer.length)
    (h : c.place.request request = .error (.underrun requested length stop)) :
    length = c.buffer.length ∧ ∃ start, request.Asks c start requested ∧ c.buffer.length < start + requested ∧
      stop = min (start + requested) (UInt64.size - 1) := by
  have here {n : Nat} (hasks : request.Asks c c.offset n)
      (hraw : c.place.raw n = .error (.underrun requested length stop)) :
      length = c.buffer.length ∧ ∃ start, request.Asks c start requested ∧ c.buffer.length < start + requested ∧
        stop = min (start + requested) (UInt64.size - 1) := by
    obtain ⟨rfl, hlength, hshort, hstop⟩ := eq_of_raw_underrun hc hraw
    exact ⟨hlength, c.offset, hasks, hshort, hstop⟩
  cases request with
  | peek =>
    rw [Reader.request, Except.map_eq_error_iff, Reader.peek, Except.map_eq_error_iff, Reader.uint_eq_map_raw,
      Except.map_eq_error_iff] at h
    exact here .peek h
  | entry kind =>
    cases hwidth : kind.width? with
    | some width =>
      by_cases hbool : kind = .primitive .bool
      · subst hbool
        cases hwidth
        exact here (.whole rfl) (bool_underrun (Except.map_eq_error_iff.mp h))
      · obtain ⟨view, hview⟩ := Reader.exists_view hwidth hbool
        rw [Reader.request, hview, Except.map_eq_error_iff] at h
        exact here (.whole hwidth) h
    | none =>
      have hbytes : c.place.bytes = .error (.underrun requested length stop) := by
        rcases Reader.eq_of_width?_eq_none hwidth with rfl | rfl
        · exact Except.map_eq_error_iff.mp h
        · exact string_underrun (Except.map_eq_error_iff.mp h)
      rcases bytes_underrun hc hbytes with hraw | ⟨n, hlt, hheader, hholds, hraw⟩
      · exact here (.length hwidth) hraw
      · obtain ⟨rfl, hlength, hshort, hstop⟩ := eq_of_raw_underrun hheader hraw
        exact ⟨hlength, _, .payload hwidth hheader hlt hholds, hshort, hstop⟩

/-! ## What a cursor is served -/

theorem run_serve (request : Request) {c : Cursor} (hc : c.offset ≤ c.buffer.length) :
    (serve request).run.run c = c.settle (c.place.request request) :=
  follows_serve request c hc

/-- What is served is told by the octets that are covered, of which as many are passed as are said. -/
theorem serve_ok {reading : Reading} {next : Cursor} (hc : c.offset ≤ c.buffer.length)
    (h : (serve request).run.run c = (.ok reading, next)) :
    next = { c with offset := c.offset + request.passed reading } ∧
    c.offset + request.covered reading ≤ c.buffer.length ∧
    ∀ d : Cursor, d.offset ≤ d.buffer.length →
      (d.buffer.drop d.offset).take (request.covered reading) =
        (c.buffer.drop c.offset).take (request.covered reading) →
      (serve request).run.run d = (.ok reading, { d with offset := d.offset + request.passed reading }) := by
  rw [run_serve request hc] at h
  cases hplace : c.place.request request with
  | error e =>
    rw [hplace] at h
    cases h
  | ok result =>
    obtain ⟨told, last⟩ := result
    rw [hplace] at h
    cases h
    obtain ⟨hoffset, octets, hlength, hprefix, hother⟩ := Reader.request_told hplace
    have htake := List.prefix_iff_eq_take.mp hprefix
    refine ⟨by rw [hoffset, offset_place], ?_, ?_⟩
    · have hle := hprefix.length_le
      rw [place, Reader.atOffset, List.length_drop] at hle
      omega
    · intro d hd hsame
      have hcovered : octets <+: d.place.rest := by
        rw [List.prefix_iff_eq_take, hlength]
        rw [hlength] at htake
        exact htake.trans hsame.symm
      obtain ⟨stop, hrequest, hstop⟩ := hother d.place hcovered
      rw [run_serve request hd, hrequest, settle, hstop, offset_place]

/-- What is not served leaves the cursor where it was. -/
theorem serve_error {e : WireError} {next : Cursor} (hc : c.offset ≤ c.buffer.length)
    (h : (serve request).run.run c = (.error e, next)) : next = c ∧ c.place.request request = .error e := by
  rw [run_serve request hc] at h
  cases hplace : c.place.request request with
  | error e =>
    rw [hplace] at h
    cases h
    exact ⟨rfl, rfl⟩
  | ok result =>
    rw [hplace] at h
    cases h

/-- One request keeps the buffer, and moves forwards in it. -/
theorem serve_inside (request : Request) (hc : c.offset ≤ c.buffer.length) :
    ((serve request).run.run c).2.buffer = c.buffer ∧ c.offset ≤ ((serve request).run.run c).2.offset ∧
      ((serve request).run.run c).2.offset ≤ c.buffer.length := by
  cases h : (serve request).run.run c with
  | mk result next =>
    cases result with
    | ok reading =>
      obtain ⟨rfl, hfits, _⟩ := serve_ok hc h
      have hpassed : request.passed reading ≤ request.covered reading := by
        cases request with
        | entry kind => exact Nat.le_refl _
        | peek => exact Nat.zero_le 4
      exact ⟨rfl, Nat.le_add_right .., by dsimp only; omega⟩
    | error e =>
      obtain ⟨rfl, _⟩ := serve_error hc h
      exact ⟨rfl, Nat.le_refl _, hc⟩

/-- So do any number of them, by induction on the requests. -/
theorem after_inside (requests : List Request) (hc : c.offset ≤ c.buffer.length) :
    (c.after requests).buffer = c.buffer ∧ c.offset ≤ (c.after requests).offset ∧
      (c.after requests).offset ≤ c.buffer.length := by
  induction requests generalizing c with
  | nil => exact ⟨rfl, Nat.le_refl _, hc⟩
  | cons request rest ih =>
    obtain ⟨hbuffer, hforward, hinside⟩ := serve_inside request hc
    obtain ⟨hbuffer', hforward', hinside'⟩ := ih (hbuffer ▸ hinside)
    exact ⟨hbuffer'.trans hbuffer, Nat.le_trans hforward hforward', hbuffer ▸ hinside'⟩

/-- Requests one after the other. -/
theorem after_append (c : Cursor) (requests more : List Request) :
    c.after (requests ++ more) = (c.after requests).after more :=
  List.foldl_append

/-- Whatever was asked of a buffer, served or not, the offset is inside of it and never moves back. What is served
next is told by the octets that are covered, and passes as many as are said. What is not served moves nothing, and if
it runs out of octets, it asked for a stretch that ends behind the buffer, and says so as far as 64 bits go. -/
theorem serve_after (buffer : Bytes) (requests : List Request) :
    let c := (ofBytes buffer).after requests
    (c.buffer = buffer ∧ c.offset ≤ buffer.length ∧
      ∀ more, c.offset ≤ ((ofBytes buffer).after (requests ++ more)).offset) ∧
    ∀ request next,
      (∀ reading, (serve request).run.run c = (.ok reading, next) →
        next = { c with offset := c.offset + request.passed reading } ∧
        c.offset + request.covered reading ≤ buffer.length ∧
        ∀ d : Cursor, d.offset ≤ d.buffer.length →
          (d.buffer.drop d.offset).take (request.covered reading) =
            (buffer.drop c.offset).take (request.covered reading) →
          (serve request).run.run d = (.ok reading, { d with offset := d.offset + request.passed reading })) ∧
      ∀ e, (serve request).run.run c = (.error e, next) → next = c ∧
        ∀ requested length stop, e = .underrun requested length stop →
          length = buffer.length ∧ (buffer.length < UInt64.size - 1 → buffer.length < stop) ∧
          ∃ start, request.Asks c start requested ∧ buffer.length < start + requested ∧
            (start + requested < UInt64.size → stop = start + requested) ∧
            (UInt64.size ≤ start + requested → stop = UInt64.size - 1) := by
  intro c
  obtain ⟨hsame, _, hinside⟩ := after_inside (c := ofBytes buffer) requests (Nat.zero_le _)
  have hbuffer : c.buffer = buffer := hsame
  have hc : c.offset ≤ c.buffer.length := hsame.symm ▸ hinside
  refine ⟨⟨hbuffer, hinside, fun more => ?_⟩, fun request next => ⟨fun reading h => ?_, fun e h => ?_⟩⟩
  · rw [after_append]
    exact (after_inside more hc).2.1
  · obtain ⟨hnext, hfits, hother⟩ := serve_ok hc h
    rw [hbuffer] at hfits hother
    exact ⟨hnext, hfits, hother⟩
  · obtain ⟨hnext, hplace⟩ := serve_error hc h
    refine ⟨hnext, ?_⟩
    rintro requested length stop rfl
    obtain ⟨hlength, start, hasks, hshort, hstop⟩ := asks_of_underrun hc hplace
    rw [hbuffer] at hlength hshort
    refine ⟨hlength, fun hmemory => ?_, start, hasks, hshort, fun hfits => ?_, fun hlarge => ?_⟩
    · omega
    · omega
    · omega

/-- A truth value, a payload that is no text, a number, and a length with too little behind it. -/
def frames : Bytes :=
  [1, 2, 0, 0, 0, 0xFF, 0xFE, 0, 0, 7, 0, 0, 0, 9, 0, 0, 0, 1]

/-- The payload is refused as a text, then served as octets, and so it is in another buffer. The last length asks for
ten octets behind it, of which there is one. -/
theorem serve_after_frames :
    (ofBytes frames).after [.entry (.primitive .bool), .entry (.primitive .string)] = ⟨frames, 1⟩ ∧
    (serve (.entry (.primitive .bytes))).run.run ⟨5 :: 5 :: frames.drop 1, 2⟩ =
      (.ok (.octets [0xFF, 0xFE]), ⟨5 :: 5 :: frames.drop 1, 10⟩) ∧
    (ofBytes frames).after [.entry (.raw 9), .entry (.primitive .uint), .peek] = ⟨frames, 13⟩ ∧
    (serve (.entry (.primitive .bytes))).run.run ⟨frames, 13⟩ = (.error (.underrun 10 18 27), ⟨frames, 13⟩) ∧
    ∃ start, Request.Asks ⟨frames, 13⟩ (.entry (.primitive .bytes)) start 10 ∧ 27 = start + 10 := by
  obtain ⟨_, hfirst⟩ := serve_after frames [.entry (.primitive .bool), .entry (.primitive .string)]
  obtain ⟨_, hsecond⟩ := serve_after frames [.entry (.raw 9), .entry (.primitive .uint), .peek]
  obtain ⟨_, _, hother⟩ := (hfirst (.entry (.primitive .bytes)) ⟨frames, 9⟩).1 (.octets [0xFF, 0xFE]) rfl
  obtain ⟨_, hshort⟩ := (hsecond (.entry (.primitive .bytes)) ⟨frames, 13⟩).2 (.underrun 10 18 27) rfl
  obtain ⟨_, _, start, hasks, _, hstop, hlarge⟩ := hshort 10 18 27 rfl
  refine ⟨rfl, hother ⟨5 :: 5 :: frames.drop 1, 2⟩ (by decide) rfl, rfl, rfl, start, hasks, hstop ?_⟩
  exact Nat.lt_of_not_le fun h => absurd (hlarge h) (by decide)

end Cursor

end SchemaWire
