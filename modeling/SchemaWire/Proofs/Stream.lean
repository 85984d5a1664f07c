import SchemaWire.Proofs.Canonical

/-!
# Streams of entries

Entries that are written one after the other, some of which may be refused, are read back in their order from where
the first one began (`entries_putAll`). What an entry is on the wire, and what it is read back as, is said by
`Entry.IsWritten`.
-/

namespace SchemaWire

/-- What a read asks for. Octets without length and padding must be counted by who asks. -/
inductive EntryKind
  | primitive (type : Primitive)
  | raw (length : Nat)
  deriving DecidableEq, Repr

/-- What a read gives. -/
inductive Reading
  | integer (n : Int)
  | float (x : Single)
  | double (x : Double)
  | bool (b : Bool)
  | text (given : String)
  | octets (given : Bytes)
  deriving DecidableEq, Repr

/-- What must be asked for to read an entry. -/
def Entry.kind : Entry → EntryKind
  | .int _ => .primitive .int
  | .uint _ => .primitive .uint
  | .short _ => .primitive .short
  | .ushort _ => .primitive .ushort
  | .float _ => .primitive .float
  | .double _ => .primitive .double
  | .bool _ => .primitive .bool
  | .long _ => .primitive .long
  | .ulong _ => .primitive .ulong
  | .bytes _ => .primitive .bytes
  | .string _ => .primitive .string
  | .raw octets => .raw octets.length

namespace Reader

/-- The next entry of a kind. -/
def entry (place : Reader) : EntryKind → Except WireError (Reading × Reader)
  | .primitive .int => (place.signed 4).map fun (n, next) => (.integer n, next)
  | .primitive .uint => (place.word 4).map fun (n, next) => (.integer n, next)
  | .primitive .short => (place.signed 2).map fun (n, next) => (.integer n, next)
  | .primitive .ushort => (place.word 2).map fun (n, next) => (.integer n, next)
  | .primitive .float => place.float.map fun (x, next) => (.float x, next)
  | .primitive .double => place.double.map fun (x, next) => (.double x, next)
  | .primitive .bool => place.bool.map fun (b, next) => (.bool b, next)
  | .primitive .long => place.long.map fun (text, next) => (.text text, next)
  | .primitive .ulong => place.long.map fun (text, next) => (.text text, next)
  | .primitive .bytes => place.bytes.map fun (payload, next) => (.octets payload, next)
  | .primitive .string => place.string.map fun (text, next) => (.text text, next)
  | .raw length => (place.raw length).map fun (octets, next) => (.octets octets, next)

/-- The next entries of some kinds in turn. -/
def entries (place : Reader) : List EntryKind → Except WireError (List Reading × Reader)
  | [] => .ok ([], place)
  | kind :: rest => do
    let (reading, next) ← place.entry kind
    let (more, last) ← next.entries rest
    return (reading :: more, last)

end Reader

/-- Appends entries in turn, and tells how each of them went. -/
def Writer.putAll (w : Writer) : List Entry → List (Except WireError Unit) × Writer
  | [] => ([], w)
  | e :: rest =>
    let (results, last) := (w.put e).2.putAll rest
    ((w.put e).1 :: results, last)

/-- The entries that went well. -/
def succeeded (entries : List Entry) (results : List (Except WireError Unit)) : List Entry :=
  ((entries.zip results).filter fun (_, result) => result.isOk).map Prod.fst

/-! ## The wire format -/

/-- The lowest `count` digits of a number to the base 16, the highest first. -/
def hexDigits : (count n : Nat) → List Char
  | 0, _ => []
  | count + 1, n => hexDigits count (n / 16) ++ [Nat.digitChar (n % 16)]

theorem encode_reverse_toBytes (width n : Nat) :
    Hex.encode (Word.toBytes width n).reverse = hexDigits (2 * width) n := by
  induction width generalizing n with
  | zero => rfl
  | succ width ih =>
    have hhigh : n % 256 / 16 = n / 16 % 16 := by omega
    have hlow : n % 256 % 16 = n % 16 := by omega
    have hrest : n / 16 / 16 = n / 256 := by omega
    have hlast : Hex.octet (UInt8.ofNat n) = [Nat.digitChar (n / 16 % 16), Nat.digitChar (n % 16)] := by
      rw [Hex.octet, UInt8.toNat_ofNat', hhigh, hlow]
    rw [Word.toBytes, List.reverse_cons, Hex.encode, List.flatMap_append, List.flatMap_singleton, hlast]
    show Hex.encode (Word.toBytes width (n / 256)).reverse ++ _ = _
    rw [ih, Nat.mul_succ, hexDigits, hexDigits, hrest, List.append_assoc]
    rfl

theorem bitsText_eq (bits : UInt64) : bitsText bits = "0x" ++ String.ofList (hexDigits 16 bits.toNat) := by
  rw [bitsText, longText, encode_reverse_toBytes]

namespace Entry

/-- Whether an entry has octets: integers up to 32 bits are of the range of their width, numbers of 64 bits have bits,
and payloads have a length of 32 bits. -/
def IsWritable : Entry → Prop
  | .int n => -0x8000_0000 ≤ n ∧ n < 0x8000_0000
  | .uint n => 0 ≤ n ∧ n < 0x1_0000_0000
  | .short n => -0x8000 ≤ n ∧ n < 0x8000
  | .ushort n => 0 ≤ n ∧ n < 0x1_0000
  | .long input => ∃ bits, input.signedBits = .ok bits
  | .ulong input => ∃ bits, input.unsignedBits = .ok bits
  | .bytes payload => payload.length < 0x1_0000_0000
  | .string text => (Utf8.ofString text).length < 0x1_0000_0000
  | _ => True

/-- The octets of an entry, and what is read back from them. -/
inductive IsWritten : Entry → Bytes → Reading → Prop
  | int {n : Int} {octets : Bytes} (hlength : octets.length = 4) (h : Word.IsLittleEndian octets n) :
    IsWritten (.int n) octets (.integer n)
  | uint {n : Int} {octets : Bytes} (hlength : octets.length = 4) (h : Word.IsLittleEndian octets n) :
    IsWritten (.uint n) octets (.integer n)
  | short {n : Int} {octets : Bytes} (hlength : octets.length = 2) (h : Word.IsLittleEndian octets n) :
    IsWritten (.short n) octets (.integer n)
  | ushort {n : Int} {octets : Bytes} (hlength : octets.length = 2) (h : Word.IsLittleEndian octets n) :
    IsWritten (.ushort n) octets (.integer n)
  | float {x : Single} {octets : Bytes} (hlength : octets.length = 4) (h : Word.IsLittleEndian octets x.bits.toNat) :
    IsWritten (.float x) octets (.float x)
  | double {x : Double} {octets : Bytes} (hlength : octets.length = 8) (h : Word.IsLittleEndian octets x.bits.toNat) :
    IsWritten (.double x) octets (.double x)
  | bool {b : Bool} : IsWritten (.bool b) [if b then 1 else 0] (.bool b)
  | long {input : LongInput} {bits : UInt64} {octets : Bytes} (hbits : input.signedBits = .ok bits)
    (hlength : octets.length = 8) (h : Word.IsLittleEndian octets bits.toNat) :
    IsWritten (.long input) octets (.text ("0x" ++ String.ofList (hexDigits 16 bits.toNat)))
  | ulong {input : LongInput} {bits : UInt64} {octets : Bytes} (hbits : input.unsignedBits = .ok bits)
    (hlength : octets.length = 8) (h : Word.IsLittleEndian octets bits.toNat) :
    IsWritten (.ulong input) octets (.text ("0x" ++ String.ofList (hexDigits 16 bits.toNat)))
  | bytes {payload length : Bytes} (hlength : length.length = 4) (h : Word.IsLittleEndian length payload.length) :
    IsWritten (.bytes payload) (length ++ payload ++ List.replicate (payload.length % 4) 0) (.octets payload)
  | string {text : String} {octets : Bytes}
    (h : IsWritten (.bytes (Utf8.ofString text)) octets (.octets (Utf8.ofString text))) :
    IsWritten (.string text) octets (.text text)
  | raw {octets : Bytes} : IsWritten (.raw octets) octets (.octets octets)

/-! ## Writing -/

variable {e : Entry} {octets : Bytes}

/-- An entry is encoded exactly if it is writable. -/
theorem exists_encode_eq_ok_iff : (∃ octets, e.encode = .ok octets) ↔ e.IsWritable := by
  cases e with
  | int n =>
    simp only [encode, bounded_eq_ok_iff, IsWritable, exists_and_left, exists_eq, and_true]
    omega
  | uint n =>
    simp only [encode, bounded_eq_ok_iff, IsWritable, exists_and_left, exists_eq, and_true]
    omega
  | short n =>
    simp only [encode, bounded_eq_ok_iff, IsWritable, exists_and_left, exists_eq, and_true]
    omega
  | ushort n =>
    simp only [encode, bounded_eq_ok_iff, IsWritable, exists_and_left, exists_eq, and_true]
    omega
  | long input => simp [encode, Except.map_eq_ok_iff, IsWritable]
  | ulong input => simp [encode, Except.map_eq_ok_iff, IsWritable]
  | bytes payload => simp only [encode, framed_eq_ok_iff, IsWritable, exists_and_left, exists_eq, and_true]
  | string text => simp only [encode, framed_eq_ok_iff, IsWritable, exists_and_left, exists_eq, and_true]
  | float x => simp [encode, IsWritable]
  | double x => simp [encode, IsWritable]
  | bool b => simp [encode, IsWritable]
  | raw octets => simp [encode, IsWritable]

/-- What is written is the written form of the entry. -/
theorem isWritten_of_encode (h : e.encode = .ok octets) : ∃ reading, e.IsWritten octets reading := by
  have written {payload : Bytes} (h : framed payload = .ok octets) :
      (Entry.bytes payload).IsWritten octets (.octets payload) := by
    obtain ⟨_, rfl⟩ := framed_eq_ok_iff.mp h
    exact .bytes (Word.length_toBytes 4 _) (Word.isLittleEndian_toBytes 4 _)
  cases e with
  | int n =>
    obtain ⟨_, rfl⟩ := bounded_eq_ok_iff.mp h
    exact ⟨_, .int (Word.length_ofInt 4 n) (Word.isLittleEndian_ofInt 4 n)⟩
  | uint n =>
    obtain ⟨_, rfl⟩ := bounded_eq_ok_iff.mp h
    exact ⟨_, .uint (Word.length_ofInt 4 n) (Word.isLittleEndian_ofInt 4 n)⟩
  | short n =>
    obtain ⟨_, rfl⟩ := bounded_eq_ok_iff.mp h
    exact ⟨_, .short (Word.length_ofInt 2 n) (Word.isLittleEndian_ofInt 2 n)⟩
  | ushort n =>
    obtain ⟨_, rfl⟩ := bounded_eq_ok_iff.mp h
    exact ⟨_, .ushort (Word.length_ofInt 2 n) (Word.isLittleEndian_ofInt 2 n)⟩
  | float x =>
    cases h
    exact ⟨_, .float (Word.length_toBytes 4 _) (Word.isLittleEndian_toBytes 4 _)⟩
  | double x =>
    cases h
    exact ⟨_, .double (Word.length_toBytes 8 _) (Word.isLittleEndian_toBytes 8 _)⟩
  | bool b =>
    cases h
    exact ⟨_, .bool⟩
  | long input =>
    obtain ⟨bits, hbits, rfl⟩ := Except.map_eq_ok_iff.mp h
    exact ⟨_, .long hbits (Word.length_toBytes 8 _) (Word.isLittleEndian_toBytes 8 _)⟩
  | ulong input =>
    obtain ⟨bits, hbits, rfl⟩ := Except.map_eq_ok_iff.mp h
    exact ⟨_, .ulong hbits (Word.length_toBytes 8 _) (Word.isLittleEndian_toBytes 8 _)⟩
  | bytes payload => exact ⟨_, written h⟩
  | string text => exact ⟨_, .string (written h)⟩
  | raw given =>
    cases h
    exact ⟨_, .raw⟩

end Entry

/-- Appending an entry that is writable adds its written form. One that is not is refused and changes nothing. -/
theorem Writer.put_cases (w : Writer) (e : Entry) :
    (e.IsWritable ∧ ∃ octets reading, e.IsWritten octets reading ∧ w.put e = (.ok (), ⟨w.written ++ octets⟩)) ∨
    (¬e.IsWritable ∧ ∃ error, w.put e = (.error error, w)) := by
  unfold put
  cases h : e.encode with
  | ok octets =>
    obtain ⟨reading, hwritten⟩ := Entry.isWritten_of_encode h
    exact .inl ⟨Entry.exists_encode_eq_ok_iff.mp ⟨octets, h⟩, octets, reading, hwritten, rfl⟩
  | error error =>
    refine .inr ⟨fun hwritable => ?_, error, rfl⟩
    obtain ⟨octets, hok⟩ := Entry.exists_encode_eq_ok_iff.mpr hwritable
    rw [h] at hok
    cases hok

/-! ## Reading -/

section Reading

variable {place next : Reader} {e : Entry} {octets : Bytes} {reading : Reading} {width : Nat}

namespace Reader

theorem signed_of_isLittleEndian {n : Int} (hlength : octets.length = width) (h : Word.IsLittleEndian octets n)
    (hpass : place.Passes octets next) (hlow : -(Nat.pow 256 width : Nat) ≤ 2 * n)
    (hhigh : 2 * n < (Nat.pow 256 width : Nat)) : place.signed width = .ok (n, next) := by
  refine (map_raw_eq_ok_iff Word.signed).mpr ⟨octets, hlength, hpass, ?_⟩
  rw [Word.eq_ofInt_of_isLittleEndian h, hlength, Word.signed_ofInt hlow hhigh]

theorem word_of_isLittleEndian {n : Nat} (hlength : octets.length = width) (h : Word.IsLittleEndian octets n)
    (hpass : place.Passes octets next) (hlt : n < Nat.pow 256 width) : place.word width = .ok (n, next) := by
  refine word_eq_ok_iff.mpr ⟨octets, hlength, hpass, ?_⟩
  rw [Word.eq_toBytes_of_isLittleEndian h, hlength, Word.ofBytes_toBytes hlt]

theorem long_of_isLittleEndian {bits : UInt64} (hlength : octets.length = 8)
    (h : Word.IsLittleEndian octets bits.toNat) (hpass : place.Passes octets next) :
    place.long = .ok ("0x" ++ String.ofList (hexDigits 16 bits.toNat), next) := by
  refine (map_raw_eq_ok_iff longText).mpr ⟨octets, hlength, hpass, ?_⟩
  rw [← bitsText_eq, bitsText, ← hlength, ← Word.eq_toBytes_of_isLittleEndian h]

theorem bytes_of_isWritten {payload : Bytes} (h : (Entry.bytes payload).IsWritten octets reading)
    (hwritable : (Entry.bytes payload).IsWritable) (hpass : place.Passes octets next) :
    place.bytes = .ok (payload, next) := by
  cases h with
  | bytes hlength h =>
    rw [Word.eq_toBytes_of_isLittleEndian h, hlength] at hpass
    exact bytes_eq_ok_iff.mpr ⟨_, hwritable, List.length_replicate, hpass⟩

end Reader

/-- An entry is read off its written form, whatever comes behind it. -/
theorem Entry.IsWritten.read (h : e.IsWritten octets reading) (hwritable : e.IsWritable)
    (hpass : place.Passes octets next) : place.entry e.kind = .ok (reading, next) := by
  have hpow2 : Nat.pow 256 2 = 0x1_0000 := rfl
  have hpow4 : Nat.pow 256 4 = 0x1_0000_0000 := rfl
  unfold kind Reader.entry
  cases h with
  | int hlength h =>
    obtain ⟨hlow, hhigh⟩ := hwritable
    have hread := Reader.signed_of_isLittleEndian hlength h hpass (by omega) (by omega)
    simp only [hread, Except.map]
  | uint hlength h =>
    obtain ⟨hlow, hhigh⟩ := hwritable
    obtain ⟨n, rfl⟩ := Int.eq_ofNat_of_zero_le hlow
    have hread := Reader.word_of_isLittleEndian hlength h hpass (by omega)
    simp only [hread, Except.map]
  | short hlength h =>
    obtain ⟨hlow, hhigh⟩ := hwritable
    have hread := Reader.signed_of_isLittleEndian hlength h hpass (by omega) (by omega)
    simp only [hread, Except.map]
  | ushort hlength h =>
    obtain ⟨hlow, hhigh⟩ := hwritable
    obtain ⟨n, rfl⟩ := Int.eq_ofNat_of_zero_le hlow
    have hread := Reader.word_of_isLittleEndian hlength h hpass (by omega)
    simp only [hread, Except.map]
  | @float x _ hlength h =>
    have hread := Reader.word_of_isLittleEndian hlength h hpass x.bits.toNat_lt
    simp only [Reader.float, hread, Except.map, UInt32.ofNat_toNat]
  | @double x _ hlength h =>
    have hread := Reader.word_of_isLittleEndian hlength h hpass x.bits.toNat_lt
    simp only [Reader.double, hread, Except.map, UInt64.ofNat_toNat]
  | bool => simp only [Reader.bool_eq_ok_iff.mpr hpass, Except.map]
  | long _ hlength h => simp only [Reader.long_of_isLittleEndian hlength h hpass, Except.map]
  | ulong _ hlength h => simp only [Reader.long_of_isLittleEndian hlength h hpass, Except.map]
  | bytes hlength h => simp only [Reader.bytes_of_isWritten (.bytes hlength h) hwritable hpass, Except.map]
  | string h =>
    have hread := Reader.string_eq_ok_iff.mpr (Reader.bytes_of_isWritten h hwritable hpass)
    simp only [hread, Except.map]
  | raw => simp only [Reader.raw_eq_ok_iff.mpr ⟨rfl, hpass⟩, Except.map]

end Reading

/-! ## Streams -/

/-- The octets and the readings of entries. -/
abbrev IsWrittenAs (entries : List Entry) (pieces : List (Bytes × Reading)) : Prop :=
  List.Forall₂ (fun e piece => e.IsWritable ∧ e.IsWritten piece.1 piece.2) entries pieces

/-- Entries are read off their written forms in turn. By induction on them: each is read whatever comes behind it. -/
theorem Reader.entries_of_isWrittenAs {entries : List Entry} {pieces : List (Bytes × Reading)}
    (h : IsWrittenAs entries pieces) {place next : Reader} (hpass : place.Passes (pieces.flatMap Prod.fst) next) :
    place.entries (entries.map Entry.kind) = .ok (pieces.map Prod.snd, next) := by
  induction h generalizing place with
  | nil =>
    rw [Reader.passes_nil.mp hpass]
    rfl
  | cons hfirst hrest ih =>
    rw [List.flatMap_cons] at hpass
    obtain ⟨mid, hpass, hpass'⟩ := Reader.passes_append.mp hpass
    have hread := hfirst.2.read hfirst.1 hpass
    have hmore := ih hpass'
    simp only [List.map_cons, Reader.entries, hread, hmore, bind, Except.bind]
    rfl

theorem Writer.exists_isWrittenAs (w : Writer) (entries : List Entry) :
    List.Forall₂ (fun e result => result.isOk = true ↔ e.IsWritable) entries (w.putAll entries).1 ∧
    ∃ pieces, IsWrittenAs (succeeded entries (w.putAll entries).1) pieces ∧
      (w.putAll entries).2.written = w.written ++ pieces.flatMap Prod.fst := by
  induction entries generalizing w with
  | nil => exact ⟨.nil, [], .nil, (List.append_nil _).symm⟩
  | cons e rest ih =>
    rw [putAll]
    rcases w.put_cases e with ⟨hwritable, octets, reading, hwritten, hput⟩ | ⟨hrefused, error, hput⟩
    · rw [hput]
      obtain ⟨hresults, pieces, hpieces, hlast⟩ := ih ⟨w.written ++ octets⟩
      refine ⟨.cons (iff_of_true rfl hwritable) hresults, (octets, reading) :: pieces, ?_, ?_⟩
      · exact .cons ⟨hwritable, hwritten⟩ hpieces
      · rw [hlast, List.flatMap_cons, List.append_assoc]
    · rw [hput]
      obtain ⟨hresults, pieces, hpieces, hlast⟩ := ih w
      exact ⟨.cons (iff_of_false nofun hrefused) hresults, pieces, hpieces, hlast⟩

/-- Entries that are appended one after the other, whatever was written before. Each of them either is writable and
adds its written form, or is refused and changes nothing. Those that went well are read back in turn from where the
first of them begins, and the last of them ends where the buffer does. -/
theorem entries_putAll :
    (∀ (w : Writer) (e : Entry),
      (e.IsWritable ∧ ∃ octets reading, e.IsWritten octets reading ∧ w.put e = (.ok (), ⟨w.written ++ octets⟩)) ∨
      (¬e.IsWritable ∧ ∃ error, w.put e = (.error error, w))) ∧
    ∀ (w : Writer) (entries : List Entry), ∃ results last pieces, w.putAll entries = (results, last) ∧
      List.Forall₂ (fun e result => result.isOk = true ↔ e.IsWritable) entries results ∧
      IsWrittenAs (succeeded entries results) pieces ∧
      last.written = w.written ++ pieces.flatMap Prod.fst ∧
      (Reader.atOffset last.written w.written.length).entries ((succeeded entries results).map Entry.kind) =
        .ok (pieces.map Prod.snd, .atOffset last.written last.written.length) := by
  refine ⟨Writer.put_cases, ?_⟩
  intro w entries
  obtain ⟨hresults, pieces, hpieces, hlast⟩ := w.exists_isWrittenAs entries
  refine ⟨_, _, pieces, rfl, hresults, hpieces, hlast, Reader.entries_of_isWrittenAs hpieces ?_⟩
  have hpass := Reader.passes_atOffset w.written (pieces.flatMap Prod.fst) []
  rwa [List.append_nil, ← List.length_append, ← hlast] at hpass

/-- A number that does not fit leaves no trace between the entries around it. -/
example : (Writer.putAll ⟨[9]⟩ [.short (-2), .uint (-1), .string "é"]).2 =
    ⟨[9, 0xFE, 0xFF, 2, 0, 0, 0, 0xC3, 0xA9, 0, 0]⟩ := rfl

end SchemaWire
