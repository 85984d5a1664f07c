import Mathlib.Tactic.SplitIfs
import SchemaWire.Engine.Decode
import SchemaWire.Proofs.Utf8

/-!
# What a read passes

A read that succeeds passes some octets: `Passes` relates the place before them to the place after them.
Each read of the wire is pinned down by an equivalence that names the octets it passes and what it makes of
them, from which both follow: what succeeds anywhere came from such octets, and such octets are read alike
in every buffer.
-/

namespace SchemaWire

namespace Reader

/-- Whether the octets lie between the two places. -/
def Passes (place : Reader) (octets : Bytes) (next : Reader) : Prop :=
  place.rest = octets ++ next.rest ∧ next.offset = place.offset + octets.length

/-- The place at an offset of a buffer. -/
def atOffset (buffer : Bytes) (offset : Nat) : Reader :=
  ⟨offset, buffer.drop offset⟩

theorem passes_nil {place next : Reader} : place.Passes [] next ↔ next = place := by
  constructor
  · rintro ⟨hrest, hoffset⟩
    cases place
    cases next
    simp_all
  · rintro rfl
    simp [Passes]

theorem passes_append {place next : Reader} {octets more : Bytes} :
    place.Passes (octets ++ more) next ↔ ∃ mid, place.Passes octets mid ∧ mid.Passes more next := by
  constructor
  · rintro ⟨hrest, hoffset⟩
    refine ⟨⟨place.offset + octets.length, more ++ next.rest⟩, ⟨?_, rfl⟩, rfl, ?_⟩
    · simpa using hrest
    · rw [hoffset, List.length_append, Nat.add_assoc]
  · rintro ⟨mid, ⟨hrest, hoffset⟩, hrest', hoffset'⟩
    refine ⟨?_, ?_⟩
    · rw [hrest, hrest', List.append_assoc]
    · rw [List.length_append]
      omega

theorem passes_atOffset (before octets after : Bytes) :
    (atOffset (before ++ octets ++ after) before.length).Passes octets
      (atOffset (before ++ octets ++ after) (before.length + octets.length)) := by
  refine ⟨?_, rfl⟩
  simp [atOffset, List.append_assoc]

/-- What is passed in a buffer is a stretch of it. -/
theorem eq_of_passes_atOffset {buffer octets : Bytes} {offset : Nat} {next : Reader}
    (h : (atOffset buffer offset).Passes octets next) :
    next = atOffset buffer (offset + octets.length) ∧ octets = (buffer.drop offset).take octets.length := by
  obtain ⟨hrest, hoffset⟩ := h
  obtain ⟨stop, rest⟩ := next
  simp only [atOffset] at hrest hoffset
  refine ⟨?_, ?_⟩
  · rw [atOffset, ← List.drop_drop, hrest, List.drop_left, hoffset]
  · rw [hrest, List.take_left]

theorem le_length_of_passes_atOffset {buffer octets : Bytes} {offset : Nat} {next : Reader}
    (h : (atOffset buffer offset).Passes octets next) (hpos : 0 < octets.length) :
    offset + octets.length ≤ buffer.length := by
  have hlength := congrArg List.length (eq_of_passes_atOffset h).2
  rw [List.length_take, List.length_drop] at hlength
  omega

/-- One stretch of octets behind another. -/
theorem append_prefix_drop_iff {buffer octets more : Bytes} {offset : Nat} :
    octets ++ more <+: buffer.drop offset ↔
      octets <+: buffer.drop offset ∧ more <+: buffer.drop (offset + octets.length) := by
  constructor
  · rintro ⟨after, h⟩
    refine ⟨⟨more ++ after, by rw [← List.append_assoc, h]⟩, after, ?_⟩
    rw [← List.drop_drop, ← h, List.append_assoc, List.drop_left]
  · rintro ⟨⟨rest, hrest⟩, after, hafter⟩
    refine ⟨after, ?_⟩
    rw [← List.drop_drop, ← hrest, List.drop_left] at hafter
    rw [List.append_assoc, hafter, hrest]

theorem passes_of_prefix {buffer octets : Bytes} {offset : Nat} (h : octets <+: buffer.drop offset) :
    (atOffset buffer offset).Passes octets (atOffset buffer (offset + octets.length)) := by
  obtain ⟨after, h⟩ := h
  refine ⟨?_, rfl⟩
  show buffer.drop offset = octets ++ buffer.drop (offset + octets.length)
  rw [← List.drop_drop, ← h, List.drop_left]

theorem eq_of_atOffset_eq {buffer : Bytes} {start stop : Nat} (h : atOffset buffer start = atOffset buffer stop) :
    start = stop :=
  congrArg Reader.offset h

/-! ## Reads of the wire -/

variable {place next : Reader}

theorem raw_eq_ok_iff {n : Nat} {octets : Bytes} :
    place.raw n = .ok (octets, next) ↔ octets.length = n ∧ place.Passes octets next := by
  obtain ⟨offset, rest⟩ := place
  obtain ⟨offset', rest'⟩ := next
  simp only [raw, Passes]
  split_ifs with h
  · simp only [Except.ok.injEq, Prod.mk.injEq, Reader.mk.injEq]
    constructor
    · rintro ⟨rfl, rfl, rfl⟩
      simp [h]
    · rintro ⟨rfl, rfl, rfl⟩
      simp
  · simp only [false_iff, not_and]
    rintro rfl rfl
    simp at h

/-- A number is a view of its octets. -/
theorem map_raw_eq_ok_iff {α : Type} {width : Nat} (view : Bytes → α) {x : α} :
    ((place.raw width).map fun (octets, next) => (view octets, next)) = .ok (x, next) ↔
      ∃ octets, octets.length = width ∧ place.Passes octets next ∧ x = view octets := by
  simp only [Except.map_eq_ok_iff, Prod.exists, Prod.mk.injEq, raw_eq_ok_iff]
  constructor
  · rintro ⟨octets, mid, ⟨hlen, hpass⟩, rfl, rfl⟩
    exact ⟨octets, hlen, hpass, rfl⟩
  · rintro ⟨octets, hlen, hpass, rfl⟩
    exact ⟨octets, next, ⟨hlen, hpass⟩, rfl, rfl⟩

theorem word_eq_ok_iff {width n : Nat} :
    place.word width = .ok (n, next) ↔
      ∃ octets, octets.length = width ∧ place.Passes octets next ∧ n = Word.ofBytes octets :=
  map_raw_eq_ok_iff Word.ofBytes

theorem uint_eq_map_raw :
    place.uint = (place.raw 4).map fun (octets, next) => (UInt32.ofNat (Word.ofBytes octets), next) :=
  Except.map_map

theorem uint_eq_ok_iff {n : UInt32} :
    place.uint = .ok (n, next) ↔ place.Passes (Word.toBytes 4 n.toNat) next := by
  rw [uint_eq_map_raw]
  refine (map_raw_eq_ok_iff fun octets => UInt32.ofNat (Word.ofBytes octets)).trans ⟨?_, ?_⟩
  · rintro ⟨octets, hlen, hpass, rfl⟩
    have hlt := Word.ofBytes_lt octets
    have hback := Word.toBytes_ofBytes octets
    rw [hlen] at hlt hback
    rw [UInt32.toNat_ofNat_of_lt' hlt, hback]
    exact hpass
  · intro hpass
    refine ⟨_, Word.length_toBytes 4 _, hpass, ?_⟩
    rw [Word.ofBytes_toBytes n.toNat_lt, UInt32.ofNat_toNat]

/-- Looking ahead shows what reading would give. -/
theorem peek_eq_ok_iff {n : UInt32} :
    place.peek = .ok n ↔ ∃ next, place.Passes (Word.toBytes 4 n.toNat) next := by
  simp only [peek, Except.map_eq_ok_iff, Prod.exists, exists_and_right, exists_eq_right, uint_eq_ok_iff]

theorem bool_eq_ok_iff {b : Bool} :
    place.bool = .ok (b, next) ↔ place.Passes [if b then 1 else 0] next := by
  obtain ⟨offset, rest⟩ := place
  obtain ⟨offset', rest'⟩ := next
  simp only [bool, Passes]
  cases rest with
  | nil => simp
  | cons byte rest =>
    cases b <;> simp <;> split_ifs <;> simp_all [eq_comm, and_comm]

theorem bytes_eq_ok_iff {payload : Bytes} :
    place.bytes = .ok (payload, next) ↔
      ∃ pad, payload.length < UInt32.size ∧ pad.length = padding payload.length ∧
        place.Passes (Word.toBytes 4 payload.length ++ payload ++ pad) next := by
  simp only [bytes, Except.bind_eq_ok_iff, Prod.exists, word_eq_ok_iff, raw_eq_ok_iff]
  constructor
  · rintro ⟨n, mid, ⟨octets, hlen, hpass, rfl⟩, body, last, ⟨hbody, hpass'⟩, he⟩
    cases he
    have hn : Word.ofBytes octets < UInt32.size := by
      have := Word.ofBytes_lt octets
      rw [hlen] at this
      exact this
    have htake : (body.take (Word.ofBytes octets)).length = Word.ofBytes octets := by
      simp [hbody]
    refine ⟨body.drop (Word.ofBytes octets), ?_, ?_, ?_⟩
    · rw [htake]
      exact hn
    · rw [htake, List.length_drop, hbody]
      omega
    · have hword : Word.toBytes 4 (Word.ofBytes octets) = octets := by
        rw [← hlen]
        exact Word.toBytes_ofBytes octets
      rw [htake, hword, List.append_assoc, List.take_append_drop]
      exact passes_append.mpr ⟨mid, hpass, hpass'⟩
  · rintro ⟨pad, hsize, hpad, hpass⟩
    rw [List.append_assoc] at hpass
    obtain ⟨mid, hlength, hbody⟩ := passes_append.mp hpass
    have hword := @Word.ofBytes_toBytes 4 payload.length hsize
    refine ⟨_, mid, ⟨_, Word.length_toBytes 4 _, hlength, rfl⟩, payload ++ pad, next, ⟨?_, hbody⟩, ?_⟩
    · rw [hword, List.length_append, hpad]
    · rw [hword, List.take_left]
      rfl

theorem toString?_eq_ok_iff {payload : Bytes} {text : String} :
    Utf8.toString? payload = .ok text ↔ payload = Utf8.ofString text :=
  ⟨fun h => (Utf8.ofString_of_toString? h).symm, fun h => h ▸ Utf8.toString?_ofString text⟩

theorem string_eq_ok_iff {text : String} :
    place.string = .ok (text, next) ↔ place.bytes = .ok (Utf8.ofString text, next) := by
  simp only [string, Except.bind_eq_ok_iff, Prod.exists]
  constructor
  · rintro ⟨payload, mid, hbytes, h⟩
    split at h
    · rename_i found hfound
      cases h
      rw [← toString?_eq_ok_iff.mp hfound]
      exact hbytes
    · cases h
  · intro hbytes
    refine ⟨_, next, hbytes, ?_⟩
    rw [Utf8.toString?_ofString]
    rfl

end Reader

namespace Decoder

variable {α β : Type} {place next : Reader}

theorem run_bind_eq_ok_iff {d : Decoder α} {k : α → Decoder β} {y : β} :
    (d >>= k).run place = .ok (y, next) ↔ ∃ x mid, d.run place = .ok (x, mid) ∧ (k x).run mid = .ok (y, next) := by
  rw [StateT.run_bind, Except.bind_eq_ok_iff]
  simp

theorem run_pure_eq_ok_iff {x y : α} :
    (pure x : Decoder α).run place = .ok (y, next) ↔ y = x ∧ next = place := by
  show Except.ok (x, place) = Except.ok (y, next) ↔ _
  simp [eq_comm]

theorem run_read_eq_ok_iff {f : Reader → Except WireError (α × Reader)} {x : α} :
    (read f).run place = .ok (x, next) ↔ f place = .ok (x, next) :=
  Except.mapError_eq_ok_iff

theorem run_read_map_eq_ok_iff {f : Reader → Except WireError (α × Reader)} {g : α → β} {y : β} :
    (do return g (← read f) : Decoder β).run place = .ok (y, next) ↔ ∃ x, f place = .ok (x, next) ∧ y = g x := by
  simp only [run_bind_eq_ok_iff, run_read_eq_ok_iff, run_pure_eq_ok_iff]
  constructor
  · rintro ⟨x, mid, hread, rfl, rfl⟩
    exact ⟨x, hread, rfl⟩
  · rintro ⟨x, hread, rfl⟩
    exact ⟨x, next, hread, rfl, rfl⟩

theorem run_fail_eq_ok_iff {e : EngineError} {x : α} : (fail e).run place = .ok (x, next) ↔ False := by
  simp [fail, StateT.run]

end Decoder

end SchemaWire
