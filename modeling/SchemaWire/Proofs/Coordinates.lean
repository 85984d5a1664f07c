import Mathlib.Data.Prod.Lex
import SchemaWire.Proofs.Diagnostics

/-!
# Lines and columns order a source

The places between the characters of a source come in the order of their lines, and within a line in the order of their
columns. A line and a column lead back to the place that they were counted for: past as many line feeds as there are
lines before it, and then as many characters on as there are columns before it (`Span.coordinates_faithful`).
-/

namespace SchemaWire

namespace Text

/-! ## From an offset to its line and column -/

/-- Whether byte offset `n` of the text is its start, its end, or between two of its characters. -/
def IsBoundary (cs : List Char) (n : Nat) : Prop :=
  ∃ before after, cs = before ++ after ∧ Utf8.size before = n

theorem lastLine_append_of_not_mem (cs : List Char) {more : List Char} (h : '\n' ∉ more) :
    lastLine (cs ++ more) = lastLine cs ++ more := by
  have hmore : ∀ c ∈ more.reverse, decide (c ≠ '\n') = true :=
    fun c hc => decide_eq_true fun e => h (e ▸ List.mem_reverse.mp hc)
  rw [lastLine, List.reverse_append, List.takeWhile_append_of_pos hmore, List.reverse_append, List.reverse_reverse]
  rfl

/-- What is read on either adds a line, or stays in the line and adds columns. -/
theorem count_lt_or_lastLine_lt (cs : List Char) {more : List Char} (hne : more ≠ []) :
    cs.count '\n' < (cs ++ more).count '\n' ∨
      cs.count '\n' = (cs ++ more).count '\n' ∧ (lastLine cs).length < (lastLine (cs ++ more)).length := by
  rw [List.count_append]
  by_cases hmem : '\n' ∈ more
  · left
    have := List.count_pos_iff.mpr hmem
    omega
  · right
    have := List.length_pos_iff.mpr hne
    rw [List.count_eq_zero.mpr hmem, lastLine_append_of_not_mem cs hmem, List.length_append]
    omega

/-! ## From a line and a column to their offset -/

/-- The byte offset `chars` characters behind the line feed with number `newlines`, which is the start of the text for
none. -/
def offset? : (newlines chars : Nat) → List Char → Option Nat
  | 0, 0, _ => some 0
  | 0, chars + 1, c :: cs => (offset? 0 chars cs).map (c.utf8Size + ·)
  | newlines + 1, chars, c :: cs =>
    (offset? (if c = '\n' then newlines else newlines + 1) chars cs).map (c.utf8Size + ·)
  | _, _, [] => none

/-- Where lines have ended, the counting of characters begins. -/
theorem offset?_append_of_areEnded {done : List Char} (h : AreEnded done) (chars : Nat) (more : List Char) :
    offset? (done.count '\n') chars (done ++ more) = (offset? 0 chars more).map (Utf8.size done + ·) := by
  induction done with
  | nil =>
    simp only [List.count_nil, List.nil_append, Utf8.size_nil, Nat.zero_add]
    exact Option.map_id'.symm
  | cons c done ih =>
    have hmem : '\n' ∈ c :: done := by
      rcases h with h | h
      · cases h
      · exact List.mem_of_getLast? h
    obtain ⟨newlines, hcount⟩ := Nat.exists_eq_succ_of_ne_zero (List.count_pos_iff.mpr hmem).ne'
    have hrest : (if c = '\n' then newlines else newlines + 1) = done.count '\n' := by
      split
      · rename_i hc
        rw [hc, List.count_cons_self] at hcount
        exact (Nat.succ.inj hcount).symm
      · rename_i hc
        rw [List.count_cons_of_ne hc] at hcount
        exact hcount.symm
    rw [hcount, List.cons_append, offset?, hrest, ih h.tail, Option.map_map]
    congr 1
    funext n
    simp [Nat.add_assoc]

theorem offset?_zero_length (lead more : List Char) : offset? 0 lead.length (lead ++ more) = some (Utf8.size lead) := by
  induction lead with
  | nil => simp [offset?]
  | cons c lead ih =>
    rw [List.length_cons, List.cons_append, offset?, ih]
    rfl

/-- The lines and columns before a place lead to it. -/
theorem offset?_lastLine (before after : List Char) :
    offset? (before.count '\n') (lastLine before).length (before ++ after) = some (Utf8.size before) := by
  obtain ⟨done, hbefore, hlead, hdone⟩ := exists_lastLine before
  generalize lastLine before = lead at hbefore hlead ⊢
  subst hbefore
  rw [List.count_append, List.count_eq_zero.mpr hlead, Nat.add_zero, List.append_assoc,
    offset?_append_of_areEnded hdone, offset?_zero_length, Option.map_some, Utf8.size_append]

end Text

namespace Span

variable {source : List Char} {s t : Span}

/-- The line and the column of a place between characters are counted in the text before it. -/
theorem coordinates_eq {before : List Char} (after : List Char) (h : s.start = Utf8.size before) :
    s.line (before ++ after) = before.count '\n' + 1 ∧
      s.column (before ++ after) = (Text.lastLine before).length + 1 := by
  obtain ⟨start, stop⟩ := s
  cases h
  rw [line, column, textBefore_append]
  exact ⟨rfl, rfl⟩

theorem coordinates_lt (hs : Text.IsBoundary source s.start) (ht : Text.IsBoundary source t.start)
    (h : s.start < t.start) : toLex (s.line source, s.column source) < toLex (t.line source, t.column source) := by
  obtain ⟨before, after, rfl, hbefore⟩ := hs
  obtain ⟨before', after', hsource, hbefore'⟩ := ht
  obtain ⟨more, rfl⟩ : before <+: before' :=
    Utf8.prefix_of_size_le ⟨after, rfl⟩ ⟨after', hsource.symm⟩ (by omega)
  have hne : more ≠ [] := by
    rintro rfl
    rw [List.append_nil] at hbefore'
    omega
  obtain ⟨hline, hcolumn⟩ := coordinates_eq after hbefore.symm
  obtain ⟨hline', hcolumn'⟩ := coordinates_eq after' hbefore'.symm
  rw [← hsource] at hline' hcolumn'
  have hmore := Text.count_lt_or_lastLine_lt before hne
  rw [Prod.Lex.toLex_lt_toLex, hline, hcolumn, hline', hcolumn']
  omega

/-- Places between characters are in the order of their lines and columns, which are counted from one, and each is where
its line and column lead to: behind the line feed that begins its line, as many characters on as there are columns before
it. -/
theorem coordinates_faithful (source : List Char) :
    (∀ s t : Span, Text.IsBoundary source s.start → Text.IsBoundary source t.start →
      (s.start < t.start ↔ toLex (s.line source, s.column source) < toLex (t.line source, t.column source))) ∧
    ∀ s : Span, Text.IsBoundary source s.start → 1 ≤ s.line source ∧ 1 ≤ s.column source ∧
      Text.offset? (s.line source - 1) (s.column source - 1) source = some s.start := by
  constructor
  · intro s t hs ht
    refine ⟨coordinates_lt hs ht, fun h => ?_⟩
    rcases Nat.lt_trichotomy s.start t.start with hlt | heq | hgt
    · exact hlt
    · -- only the start of a place counts
      have hline : s.line source = t.line source := by rw [line, line, textBefore, textBefore, heq]
      have hcolumn : s.column source = t.column source := by rw [column, column, textBefore, textBefore, heq]
      rw [hline, hcolumn] at h
      exact absurd h (lt_irrefl _)
    · exact absurd h (lt_asymm (coordinates_lt ht hs hgt))
  · rintro s ⟨before, after, rfl, hbefore⟩
    obtain ⟨hline, hcolumn⟩ := coordinates_eq after hbefore.symm
    rw [hline, hcolumn, Nat.add_sub_cancel, Nat.add_sub_cancel, Text.offset?_lastLine, hbefore]
    exact ⟨Nat.le_add_left .., Nat.le_add_left .., rfl⟩

/-- The end of a line, after a letter of two bytes, and the end of the source, which is the start of the next line. -/
theorem coordinates_faithful_lineEnd :
    Text.IsBoundary ['é', '\n'] 2 ∧ Text.IsBoundary ['é', '\n'] 3 ∧
      toLex ((Span.mk 2 3).line ['é', '\n'], (Span.mk 2 3).column ['é', '\n']) <
        toLex ((Span.mk 3 3).line ['é', '\n'], (Span.mk 3 3).column ['é', '\n']) ∧
      Text.offset? 0 1 ['é', '\n'] = some 2 ∧ Text.offset? 1 0 ['é', '\n'] = some 3 := by
  have hfirst : Text.IsBoundary ['é', '\n'] 2 := ⟨['é'], ['\n'], rfl, rfl⟩
  have hsecond : Text.IsBoundary ['é', '\n'] 3 := ⟨['é', '\n'], [], rfl, rfl⟩
  obtain ⟨horder, hback⟩ := coordinates_faithful ['é', '\n']
  exact ⟨hfirst, hsecond, (horder ⟨2, 3⟩ ⟨3, 3⟩ hfirst hsecond).mp (by decide), (hback ⟨2, 3⟩ hfirst).2.2,
    (hback ⟨3, 3⟩ hsecond).2.2⟩

end Span

end SchemaWire
