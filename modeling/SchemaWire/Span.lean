import SchemaWire.Text.Utf8

/-!
# Places in a source text

A place is a byte offset into the UTF-8 form of the source, and a `Span` the range between two of them.
Lines and columns are counted from one, a column in characters and not in bytes.
-/

namespace SchemaWire

/-- The range of a source text from byte offset `start` up to byte offset `stop`. -/
structure Span where
  start : Nat
  stop : Nat
  deriving DecidableEq, Repr, Inhabited

namespace Text

/-- The texts before and after byte offset `n`, or `none` if no character begins or ends there. -/
def splitAtByte? : List Char → Nat → Option (List Char × List Char)
  | cs, 0 => some ([], cs)
  | [], _ + 1 => none
  | c :: cs, n + 1 =>
    if c.utf8Size ≤ n + 1 then
      (splitAtByte? cs (n + 1 - c.utf8Size)).map fun (before, after) => (c :: before, after)
    else none

/-- The characters after the last line feed. -/
def lastLine (cs : List Char) : List Char :=
  (cs.reverse.takeWhile (· ≠ '\n')).reverse

theorem splitAtByte?_append (as bs : List Char) : splitAtByte? (as ++ bs) (Utf8.size as) = some (as, bs) := by
  induction as with
  | nil => simp [splitAtByte?]
  | cons c cs ih =>
    have hpos := c.utf8Size_pos
    obtain ⟨n, hn⟩ : ∃ n, c.utf8Size + Utf8.size cs = n + 1 := ⟨c.utf8Size + Utf8.size cs - 1, by omega⟩
    have hsub : n + 1 - c.utf8Size = Utf8.size cs := by omega
    simp only [List.cons_append, Utf8.size_cons, hn, splitAtByte?, hsub, ih]
    simp only [Option.map_some]
    rw [if_pos (by omega)]

theorem append_of_splitAtByte? {cs before after : List Char} {n : Nat}
    (h : splitAtByte? cs n = some (before, after)) : cs = before ++ after ∧ Utf8.size before = n := by
  induction cs generalizing n before with
  | nil =>
    cases n with
    | zero =>
      simp only [splitAtByte?, Option.some.injEq, Prod.mk.injEq] at h
      obtain ⟨rfl, rfl⟩ := h
      simp
    | succ n => simp [splitAtByte?] at h
  | cons c cs ih =>
    cases n with
    | zero =>
      simp only [splitAtByte?, Option.some.injEq, Prod.mk.injEq] at h
      obtain ⟨rfl, rfl⟩ := h
      simp
    | succ n =>
      simp only [splitAtByte?] at h
      split at h
      · rename_i hle
        obtain ⟨⟨b, a⟩, hs, he⟩ := Option.map_eq_some_iff.mp h
        simp only [Prod.mk.injEq] at he
        obtain ⟨rfl, rfl⟩ := he
        obtain ⟨rfl, hsize⟩ := ih hs
        exact ⟨rfl, by simp only [Utf8.size_cons]; omega⟩
      · simp at h

end Text

namespace Span

/-- Whether the range holds nothing. -/
def isEmpty (s : Span) : Bool :=
  s.stop ≤ s.start

/-- The number of bytes in the range, none for a range that ends before it starts. -/
def length (s : Span) : Nat :=
  s.stop - s.start

/-- The smallest range around both. -/
def merge (s t : Span) : Span :=
  ⟨min s.start t.start, max s.stop t.stop⟩

/-- The range that begins `n` bytes later. -/
def shift (s : Span) (n : Nat) : Span :=
  ⟨s.start + n, s.stop + n⟩

/-- The part of the source before the range. A range that begins inside a character is taken to begin at
the end of the source, and so is one that begins beyond the end. -/
def textBefore (source : List Char) (s : Span) : List Char :=
  match Text.splitAtByte? source (min s.start (Utf8.size source)) with
  | some (before, _) => before
  | none => source

/-- The line of the range's start, counted from one. -/
def line (source : List Char) (s : Span) : Nat :=
  (s.textBefore source).count '\n' + 1

/-- The column of the range's start, counted in characters from one. -/
def column (source : List Char) (s : Span) : Nat :=
  (Text.lastLine (s.textBefore source)).length + 1

/-- The text in the range, if both its ends are between characters of the source. -/
def snippet? (source : List Char) (s : Span) : Option (List Char) :=
  if s.start ≤ s.stop then do
    let (_, after) ← Text.splitAtByte? source s.start
    let (text, _) ← Text.splitAtByte? after (s.stop - s.start)
    some text
  else none

end Span

end SchemaWire
