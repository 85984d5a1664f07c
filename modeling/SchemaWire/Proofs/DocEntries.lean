import Mathlib.Data.List.Forall2
import Mathlib.Data.List.TakeWhile
import SchemaWire.Lowering.Docs

/-!
# Documentation line by line

What a comment says is the lines of its text. The lines of a text are given here by what ends them (`IsLines`), a line
without its margin by how the two differ (`Strips`), and the entries of a comment are the lines that are not blank
without their margin (`entries_are_lines`).

Only a line feed ends a line for `Text.lines`, with the carriage return before it, so the lines are these as long as no
carriage return stands alone (`ReturnsPaired`). One that does makes the comment one of several lines, and stays inside
its entry.
-/

namespace SchemaWire

namespace Text

/-! ## Lines by their terminators -/

/-- The text ends no line. -/
def Unbroken (cs : List Char) : Prop :=
  '\n' ∉ cs ∧ '\r' ∉ cs

/-- The text is these lines, each with a terminator after it: a line feed, a carriage return, or the two in this order.
The last line can do without when it is not empty. -/
inductive IsLines : List Char → List (List Char) → Prop
  | nil : IsLines [] []
  | last {line : List Char} : line ≠ [] → Unbroken line → IsLines line [line]
  | feed {line cs : List Char} {lines : List (List Char)} :
    Unbroken line → IsLines cs lines → IsLines (line ++ '\n' :: cs) (line :: lines)
  | both {line cs : List Char} {lines : List (List Char)} :
    Unbroken line → IsLines cs lines → IsLines (line ++ '\r' :: '\n' :: cs) (line :: lines)
  | carriage {line cs : List Char} {lines : List (List Char)} :
    Unbroken line → cs.head? ≠ some '\n' → IsLines cs lines → IsLines (line ++ '\r' :: cs) (line :: lines)

/-- Every carriage return of the text has a line feed directly after it. -/
def ReturnsPaired (cs : List Char) : Prop :=
  ∀ i : Nat, cs[i]? = some '\r' → cs[i + 1]? = some '\n'

theorem ReturnsPaired.of_cons {c : Char} {cs : List Char} (h : ReturnsPaired (c :: cs)) : ReturnsPaired cs :=
  fun i => h (i + 1)

theorem unbroken_nil : Unbroken [] :=
  ⟨List.not_mem_nil, List.not_mem_nil⟩

theorem unbroken_cons {c : Char} {cs : List Char} (hn : c ≠ '\n') (hr : c ≠ '\r') (h : Unbroken cs) :
    Unbroken (c :: cs) :=
  ⟨fun hmem => (List.mem_cons.mp hmem).elim (fun e => hn e.symm) h.1,
    fun hmem => (List.mem_cons.mp hmem).elim (fun e => hr e.symm) h.2⟩

/-- A character that is no terminator lengthens the first line. -/
theorem IsLines.cons {c : Char} {cs first : List Char} {rest : List (List Char)} (hn : c ≠ '\n') (hr : c ≠ '\r')
    (h : IsLines cs (first :: rest)) : IsLines (c :: cs) ((c :: first) :: rest) := by
  cases h with
  | last _ hline => exact .last (List.cons_ne_nil c _) (unbroken_cons hn hr hline)
  | feed hline htail => exact .feed (unbroken_cons hn hr hline) htail
  | both hline htail => exact .both (unbroken_cons hn hr hline) htail
  | carriage hline hhead htail => exact .carriage (unbroken_cons hn hr hline) hhead htail

theorem isLines_lines {cs : List Char} (paired : ReturnsPaired cs) : IsLines cs (lines cs) := by
  fun_induction lines cs with
  | case1 => exact .nil
  | case2 cs ih => exact .feed unbroken_nil (ih paired.of_cons)
  | case3 cs ih => exact .both unbroken_nil (ih paired.of_cons.of_cons)
  | case4 c cs hn hr hcs ih =>
    obtain rfl : cs = [] := lines_eq_nil_iff.mp hcs
    have hc : c ≠ '\r' := by
      rintro rfl
      simpa using paired 0 rfl
    exact .last (List.cons_ne_nil c []) (unbroken_cons hn hc unbroken_nil)
  | case5 c cs hn hr first rest hcs ih =>
    have hc : c ≠ '\r' := by
      rintro rfl
      obtain ⟨after, rfl⟩ : ∃ after, cs = '\n' :: after := by
        cases cs with
        | nil => simp at hcs
        | cons d after => exact ⟨after, by simpa using paired 0 rfl⟩
      exact hr after rfl rfl
    rw [hcs] at ih
    exact (ih paired.of_cons).cons hn hc

theorem IsLines.unbroken {cs : List Char} {lines : List (List Char)} (h : IsLines cs lines) :
    ∀ line ∈ lines, Unbroken line := by
  induction h with
  | nil => simp
  | last _ hline => simpa using hline
  | feed hline _ ih | both hline _ ih | carriage hline _ _ ih => exact List.forall_mem_cons.mpr ⟨hline, ih⟩

end Text

namespace Docs

/-! ## Margins -/

/-- `kept` is `line` without its leading blanks, one star after them, and one space after that. -/
def Strips (line kept : List Char) : Prop :=
  ∃ indent star space, line = indent ++ (star ++ (space ++ kept)) ∧
    (∀ c ∈ indent, Text.isBlank c = true) ∧ (∀ c, (star ++ (space ++ kept)).head? = some c → Text.isBlank c = false) ∧
    (star = ['*'] ∨ star = [] ∧ (space ++ kept).head? ≠ some '*') ∧
    (space = [' '] ∨ space = [] ∧ kept.head? ≠ some ' ')

theorem dropOne_cases (c : Char) (cs : List Char) :
    ∃ front, cs = front ++ Text.dropOne c cs ∧
      (front = [c] ∨ front = [] ∧ (Text.dropOne c cs).head? ≠ some c) := by
  cases cs with
  | nil => exact ⟨[], rfl, .inr ⟨rfl, by simp [Text.dropOne]⟩⟩
  | cons d cs =>
    by_cases hd : d = c
    · exact ⟨[c], by simp [Text.dropOne, hd], .inl rfl⟩
    · exact ⟨[], by simp [Text.dropOne, hd], .inr ⟨rfl, by simp [Text.dropOne, hd]⟩⟩

theorem strips_stripMargin (line : List Char) : Strips line (stripMargin line) := by
  obtain ⟨star, hstar, hone⟩ := dropOne_cases '*' (Text.trimStart line)
  obtain ⟨space, hspace, hnext⟩ := dropOne_cases ' ' (Text.dropOne '*' (Text.trimStart line))
  have htrim : star ++ (space ++ stripMargin line) = Text.trimStart line := by
    rw [stripMargin, ← hspace, ← hstar]
  refine ⟨line.takeWhile Text.isBlank, star, space, ?_, ?_, ?_, ?_, hnext⟩
  · rw [htrim, Text.trimStart, List.takeWhile_append_dropWhile]
  · exact fun c hc => List.mem_takeWhile_imp hc
  · intro c hc
    rw [htrim, Text.trimStart] at hc
    simpa [hc] using List.head?_dropWhile_not Text.isBlank line
  · rw [stripMargin, ← hspace]
    exact hone

theorem Strips.subset {line kept : List Char} (h : Strips line kept) : kept ⊆ line := by
  obtain ⟨indent, star, space, rfl, -⟩ := h
  intro c hc
  simp [hc]

/-! ## Entries -/

theorem hasBreak_eq_false_iff {comment : List Char} : hasBreak comment = false ↔ Text.Unbroken comment := by
  simp [hasBreak, Text.Unbroken]

/-- A text without line breaks is its own entry. -/
theorem entries_of_unbroken {comment : String} (h : Text.Unbroken comment.toList) : entries comment = [comment] := by
  simp [entries, hasBreak_eq_false_iff.mpr h]

theorem exists_line_of_mem_lineEntries {comment entry : List Char} (h : entry ∈ lineEntries comment) :
    ∃ line ∈ Text.lines comment, Strips line entry := by
  obtain ⟨line, hline, rfl⟩ := List.mem_map.mp (List.mem_filter.mp h).1
  exact ⟨line, hline, strips_stripMargin line⟩

/-- No entry holds a line feed, whatever the comment. -/
theorem newline_not_mem_of_mem_entries {comment entry : String} (h : entry ∈ entries comment) :
    '\n' ∉ entry.toList := by
  rw [entries] at h
  split at h
  · obtain ⟨kept, hkept, rfl⟩ := List.mem_map.mp h
    obtain ⟨line, hline, hstrips⟩ := exists_line_of_mem_lineEntries hkept
    rw [String.toList_ofList]
    exact fun hmem => Text.newline_not_mem_of_mem_lines hline (hstrips.subset hmem)
  case isFalse hbreak =>
    obtain rfl := List.mem_singleton.mp h
    exact (hasBreak_eq_false_iff.mp (by simpa using hbreak)).1

theorem unbroken_of_mem_entries {comment entry : String} (paired : Text.ReturnsPaired comment.toList)
    (h : entry ∈ entries comment) : Text.Unbroken entry.toList := by
  rw [entries] at h
  split at h
  · obtain ⟨kept, hkept, rfl⟩ := List.mem_map.mp h
    obtain ⟨line, hline, hstrips⟩ := exists_line_of_mem_lineEntries hkept
    have hunbroken := (Text.isLines_lines paired).unbroken line hline
    rw [String.toList_ofList]
    exact ⟨fun hmem => hunbroken.1 (hstrips.subset hmem), fun hmem => hunbroken.2 (hstrips.subset hmem)⟩
  case isFalse hbreak =>
    obtain rfl := List.mem_singleton.mp h
    exact hasBreak_eq_false_iff.mp (by simpa using hbreak)

/-- The entries of a comment that is one line are its text. The entries of a comment of several lines are the lines that
are not blank without their margin, in order. Every entry is one line, and its own only entry. No entry holds a line
feed even where a carriage return stands alone. -/
theorem entries_are_lines (comment : String) :
    (Text.Unbroken comment.toList → entries comment = [comment]) ∧
      (∀ entry ∈ entries comment, '\n' ∉ entry.toList) ∧
      (Text.ReturnsPaired comment.toList →
        (¬Text.Unbroken comment.toList → ∃ lines kept, Text.IsLines comment.toList lines ∧
          List.Forall₂ Strips lines kept ∧
          entries comment = (kept.filter fun line => !line.all Text.isBlank).map String.ofList) ∧
        ∀ entry ∈ entries comment, Text.Unbroken entry.toList ∧ entries entry = [entry]) := by
  refine ⟨entries_of_unbroken, fun _ => newline_not_mem_of_mem_entries, fun paired => ⟨fun hbroken => ?_, ?_⟩⟩
  · have hbreak : hasBreak comment.toList = true := by
      rw [← Bool.not_eq_false, hasBreak_eq_false_iff]
      exact hbroken
    refine ⟨Text.lines comment.toList, (Text.lines comment.toList).map stripMargin, Text.isLines_lines paired, ?_, ?_⟩
    · rw [List.forall₂_map_right_iff]
      exact List.forall₂_same.mpr fun line _ => strips_stripMargin line
    · rw [entries, if_pos hbreak, lineEntries]
  · intro entry hentry
    have hunbroken := unbroken_of_mem_entries paired hentry
    exact ⟨hunbroken, entries_of_unbroken hunbroken⟩

/-- The case of a comment with both terminators, a star in the text, and a line that is blank but for its star. -/
theorem entries_are_lines_stars :
    Text.ReturnsPaired "*\r\n\u00a0** a \n * ".toList ∧ entries "*\r\n\u00a0** a \n * " = ["* a "] ∧
      ∀ entry ∈ entries "*\r\n\u00a0** a \n * ", entries entry = [entry] := by
  have hall : ∀ i < "*\r\n\u00a0** a \n * ".toList.length, "*\r\n\u00a0** a \n * ".toList[i]? = some '\r' →
      "*\r\n\u00a0** a \n * ".toList[i + 1]? = some '\n' := by
    decide +kernel
  have paired : Text.ReturnsPaired "*\r\n\u00a0** a \n * ".toList :=
    fun i hreturn => hall i (List.getElem?_eq_some_iff.mp hreturn).1 hreturn
  exact ⟨paired, by decide +kernel, fun entry hentry => (((entries_are_lines _).2.2 paired).2 entry hentry).2⟩

end Docs

end SchemaWire
