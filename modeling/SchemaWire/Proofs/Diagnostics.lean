import SchemaWire.Proofs.Sites

/-!
# Errors are shown where they are

Every error that a source is refused for stands in the source, and so do the places of its notes
(`lands_of_compile_error`). A place in the source is shown with the line that it begins in, and with carets below what it
holds of this line (`Lands.isShown`).
-/

namespace SchemaWire

/-! ## Lines -/

namespace Text

theorem lines_cons {c : Char} {cs : List Char} (hnewline : c ≠ '\n') (hreturn : c = '\r' → cs.head? ≠ some '\n') :
    lines (c :: cs) =
      match lines cs with
      | [] => [[c]]
      | line :: rest => (c :: line) :: rest := by
  conv_lhs => unfold lines
  split
  · rename_i heq
    cases heq
  · rename_i heq
    exact absurd (List.cons.inj heq).1 hnewline
  · rename_i heq
    obtain ⟨hc, rfl⟩ := List.cons.inj heq
    exact absurd rfl (hreturn hc)
  · rename_i heq
    obtain ⟨rfl, rfl⟩ := List.cons.inj heq
    rfl

/-- Lines that have all ended. -/
def AreEnded (cs : List Char) : Prop :=
  cs = [] ∨ cs.getLast? = some '\n'

theorem AreEnded.tail {c : Char} {cs : List Char} (h : AreEnded (c :: cs)) : AreEnded cs := by
  cases cs with
  | nil => exact .inl rfl
  | cons d cs => exact .inr (by simpa [AreEnded] using h)

/-- Lines that have ended are the first lines of what they begin. -/
theorem lines_append {done : List Char} (h : AreEnded done) (more : List Char) :
    lines (done ++ more) = lines done ++ lines more ∧ (lines done).length = done.count '\n' := by
  fun_induction lines done with
  | case1 => exact ⟨rfl, rfl⟩
  | case2 cs ih =>
    obtain ⟨happend, hlength⟩ := ih h.tail
    simp [lines, happend, hlength]
  | case3 cs ih =>
    obtain ⟨happend, hlength⟩ := ih h.tail.tail
    simp [lines, happend, hlength]
  | case4 c cs hn hr hcs ih =>
    obtain rfl := lines_eq_nil_iff.mp hcs
    exact absurd (by simpa [AreEnded] using h) hn
  | case5 c cs hn hr line rest hcs ih =>
    obtain ⟨happend, hlength⟩ := ih h.tail
    have hne : cs ≠ [] := by
      rintro rfl
      cases hcs
    obtain ⟨d, cs, rfl⟩ := List.exists_cons_of_ne_nil hne
    have hnext : c = '\r' → (d :: cs ++ more).head? ≠ some '\n' :=
      fun hc hd => hr cs hc (congrArg (· :: cs) (Option.some.inj hd))
    rw [hcs] at happend hlength
    rw [List.cons_append, lines_cons hn hnext, happend, List.count_cons_of_ne hn]
    exact ⟨rfl, hlength⟩

/-- The line that a piece of a line begins. -/
theorem lines_lead {lead : List Char} (hlead : '\n' ∉ lead) {more : List Char} (hmore : more.head? ≠ some '\n') :
    lines (lead ++ more) = [] ∧ lead = [] ∧ more = [] ∨ ∃ tail rest, lines (lead ++ more) = (lead ++ tail) :: rest := by
  induction lead with
  | nil =>
    cases hlines : lines more with
    | nil => exact .inl ⟨hlines, rfl, lines_eq_nil_iff.mp hlines⟩
    | cons line rest => exact .inr ⟨line, rest, hlines⟩
  | cons c lead ih =>
    have hc : c ≠ '\n' := fun h => hlead (h ▸ List.mem_cons_self ..)
    have hrest : '\n' ∉ lead := fun h => hlead (List.mem_cons_of_mem _ h)
    have hnext : (lead ++ more).head? ≠ some '\n' := by
      cases lead with
      | nil => exact hmore
      | cons d lead =>
        intro hd
        exact hrest (Option.some.inj hd ▸ List.mem_cons_self ..)
    right
    rw [List.cons_append, lines_cons hc fun _ => hnext]
    rcases ih hrest with ⟨hlines, rfl, rfl⟩ | ⟨tail, rest, hlines⟩
    · exact ⟨[], [], rfl⟩
    · rw [hlines]
      exact ⟨tail, rest, rfl⟩

theorem exists_lastLine (cs : List Char) :
    ∃ done, cs = done ++ lastLine cs ∧ '\n' ∉ lastLine cs ∧ AreEnded done := by
  refine ⟨(cs.reverse.dropWhile (· ≠ '\n')).reverse, ?_, ?_, ?_⟩
  · rw [lastLine, ← List.reverse_append, List.takeWhile_append_dropWhile, List.reverse_reverse]
  · intro h
    have hne := List.all_eq_true.mp List.all_takeWhile _ (List.mem_reverse.mp h)
    simp at hne
  · rw [AreEnded, List.getLast?_reverse]
    have hstop := List.head?_dropWhile_not (· ≠ '\n') cs.reverse
    cases hrest : cs.reverse.dropWhile (· ≠ '\n') with
    | nil => exact .inl rfl
    | cons c rest =>
      rw [hrest] at hstop
      have hc : c = '\n' := by simpa using hstop
      exact .inr (congrArg some hc)

end Text

/-! ## Reports -/

namespace Span

variable {source : List Char} {s : Span}

theorem textBefore_append (before more : List Char) (stop : Nat) :
    (Span.mk (Utf8.size before) stop).textBefore (before ++ more) = before := by
  have hmin : min (Utf8.size before) (Utf8.size (before ++ more)) = Utf8.size before := by
    rw [Utf8.size_append]
    omega
  rw [textBefore, hmin, Text.splitAtByte?_append]

/-- How a place of a source is shown. It lies between characters and is empty only at the end. The line that it begins
in is counted by the line breaks before it, and the column by the characters that stand before it in this line. Where
the line is shown, it begins with these characters, and the carets under it are as many as the first line of the place
has characters, and at least one. The line is not shown where nothing is left of it. -/
def IsShown (source : List Char) (s : Span) : Prop :=
  ∃ before text after done lead, source = before ++ text ++ after ∧
    s = ⟨Utf8.size before, Utf8.size (before ++ text)⟩ ∧ (text = [] → after = []) ∧
    before = done ++ lead ∧ Text.AreEnded done ∧ '\n' ∉ lead ∧
    let line := (toString (before.count '\n' + 1)).toList
    let gutter := Report.blanks line.length
    let head := gutter ++ " --> ".toList ++ line ++ [':'] ++ (toString (lead.length + 1)).toList ++ ['\n']
    lead ++ text = [] ∧ Report.placeText source s = head ∨
      ∃ tail, (Text.lines source)[before.count '\n']? = some (lead ++ tail) ∧
        Report.placeText source s =
          head ++ gutter ++ " |\n".toList ++ line ++ " | ".toList ++ (lead ++ tail) ++ ['\n'] ++
            gutter ++ " | ".toList ++ Report.blanks lead.length ++
            List.replicate (max ((Text.lines text).headD []).length 1) '^' ++ ['\n']

theorem caretCount_append (before text after : List Char) :
    Report.caretCount (before ++ text ++ after) ⟨Utf8.size before, Utf8.size (before ++ text)⟩ =
      max ((Text.lines text).headD []).length 1 := by
  rw [Report.caretCount, snippet?_append]
  simp only
  cases Text.lines text <;> rfl

/-- The line that a place begins in, if anything of it is left. -/
theorem lines_of_pieces {before done lead more : List Char} (hbefore : before = done ++ lead) (hdone : Text.AreEnded done)
    (hlead : '\n' ∉ lead) (hmore : more.head? ≠ some '\n') :
    lead ++ more = [] ∧ (Text.lines (before ++ more))[before.count '\n']? = none ∨
      ∃ tail, (Text.lines (before ++ more))[before.count '\n']? = some (lead ++ tail) := by
  obtain ⟨happend, hlength⟩ := Text.lines_append hdone (lead ++ more)
  have hcount : before.count '\n' = (Text.lines done).length := by
    rw [hbefore, List.count_append, List.count_eq_zero.mpr hlead, hlength, Nat.add_zero]
  rw [hcount, hbefore, List.append_assoc, happend, List.getElem?_append_right (Nat.le_refl _), Nat.sub_self]
  rcases Text.lines_lead hlead hmore with ⟨hlines, rfl, rfl⟩ | ⟨tail, rest, hlines⟩
  · exact .inl ⟨rfl, by rw [hlines]; rfl⟩
  · exact .inr ⟨tail, by rw [hlines]; rfl⟩

theorem isShown_of_pieces {before text after : List Char} (hend : text = [] → after = [])
    (hstart : (text ++ after).head? ≠ some '\n') :
    IsShown (before ++ text ++ after) ⟨Utf8.size before, Utf8.size (before ++ text)⟩ := by
  obtain ⟨done, hbefore, hlead, hdone⟩ := Text.exists_lastLine before
  refine ⟨before, text, after, done, _, rfl, rfl, hend, hbefore, hdone, hlead, ?_⟩
  have htext : textBefore (before ++ text ++ after) ⟨Utf8.size before, Utf8.size (before ++ text)⟩ = before := by
    rw [List.append_assoc, textBefore_append]
  unfold Report.placeText
  rw [line, column, htext, caretCount_append]
  simp only [Nat.add_sub_cancel]
  rcases lines_of_pieces hbefore hdone hlead hstart with ⟨hnothing, hline⟩ | ⟨tail, hline⟩
  · rw [← List.append_assoc] at hnothing
    exact .inl ⟨(List.append_eq_nil_iff.mp hnothing).1, by rw [List.append_assoc, hline]⟩
  · refine .inr ⟨tail, ?_, ?_⟩
    · rw [List.append_assoc, hline]
    · rw [List.append_assoc before, hline]

theorem Lands.isShown (h : s.Lands source) : s.IsShown source := by
  rcases h with ⟨before, c, tail, after, rfl, hskip, rfl⟩ | rfl
  · refine isShown_of_pieces (fun h => by cases h) fun hc => ?_
    obtain rfl : c = '\n' := Option.some.inj hc
    cases hskip
  · have hend : IsShown (source ++ [] ++ []) ⟨Utf8.size source, Utf8.size (source ++ [])⟩ :=
      isShown_of_pieces (fun _ => rfl) (by simp)
    simpa using hend

end Span

/-- A report of a place shows it below the message, and then each note with its place. -/
theorem Report.render_of_place {source : List Char} {r : Report} {s : Span} (h : r.place = some s) :
    r.render source = "error: ".toList ++ r.message.toList ++ ['\n'] ++ (placeText source s ++
      r.notes.flatMap fun note => "note: ".toList ++ note.2.toList ++ ['\n'] ++ placeText source note.1) := by
  have hnote : noteText source =
      fun note => "note: ".toList ++ note.2.toList ++ ['\n'] ++ placeText source note.1 := rfl
  unfold render
  simp only [h, hnote]

/-! ## Sources -/

/-- A source without a tree is refused at one place. -/
theorem lands_of_ofSource_error {source : List Char} {e : SourceError} (h : Schema.ofSource source = .error e) :
    ∃ s, e.place = some s ∧ s.Lands source ∧ e.notes = [] := by
  unfold Schema.ofSource at h
  cases hlex : lex source with
  | error fault =>
    rw [hlex] at h
    cases h
    exact ⟨fault.span, rfl, .inl (Lexer.isSite_of_lex_error hlex), rfl⟩
  | ok tokens =>
    rw [hlex] at h
    cases hparse : Schema.ofTokens tokens with
    | ok tree =>
      have hok : (Schema.ofTokens tokens).mapError SourceError.grammatical = .error e := h
      rw [hparse] at hok
      cases hok
    | error fault =>
      have herror : (Schema.ofTokens tokens).mapError SourceError.grammatical = .error e := h
      rw [hparse] at herror
      cases herror
      exact ⟨fault.span, rfl, lands_of_ofTokens_error hlex hparse, rfl⟩

/-- Every error that a source is refused for stands in the source, and so do the places of its notes. -/
theorem lands_of_compile_error {session : Session} {source : List Char} {e : SourceError}
    (h : (session.compile source).1 = .error e) :
    ∃ s, e.place = some s ∧ s.Lands source ∧ ∀ note ∈ e.notes, note.1.Lands source := by
  unfold Session.compile at h
  cases hsource : Schema.ofSource source with
  | error fault =>
    rw [hsource] at h
    cases h
    obtain ⟨s, hplace, hs, hnotes⟩ := lands_of_ofSource_error hsource
    exact ⟨s, hplace, hs, by simp [hnotes]⟩
  | ok tree =>
    rw [hsource] at h
    obtain ⟨tokens, hlex, hparse⟩ := Except.bind_eq_ok_iff.mp hsource
    have hsites := isSite_of_ofTokens (Except.mapError_eq_ok_iff.mp hlex) (Except.mapError_eq_ok_iff.mp hparse)
    simp only [Session.lower_eq] at h
    cases hlower : tree.lower.result with
    | ok containers =>
      rw [hlower] at h
      cases h
    | error fault =>
      rw [hlower] at h
      cases h
      obtain ⟨hplace, hnotes⟩ := Schema.stands_lower hsites fault hlower
      exact ⟨fault.place, rfl, .inl hplace, fun note hnote => .inl (hnotes note hnote)⟩

/-- Every error that a source is refused for is shown where it is, and so are its notes. -/
theorem compile_error_isShown {session : Session} {source : List Char} {e : SourceError}
    (h : (session.compile source).1 = .error e) :
    ∃ s, e.place = some s ∧ s.IsShown source ∧ (∀ note ∈ e.notes, note.1.IsShown source) ∧
      e.report.render source =
        "error: ".toList ++ e.message.toList ++ ['\n'] ++ (Report.placeText source s ++
          e.notes.flatMap fun note =>
            "note: ".toList ++ note.2.toList ++ ['\n'] ++ Report.placeText source note.1) := by
  obtain ⟨s, hplace, hs, hnotes⟩ := lands_of_compile_error h
  refine ⟨s, hplace, hs.isShown, fun note hnote => (hnotes note hnote).isShown, ?_⟩
  exact Report.render_of_place hplace

/-- A character that begins no token, on the line after a letter of two bytes and a line break of two characters. -/
theorem compile_error_isShown_secondLine :
    ∃ e s, (Session.initial.compile ['é', '\r', '\n', ' ', '#']).1 = .error e ∧ e.place = some s ∧
      s.line ['é', '\r', '\n', ' ', '#'] = 2 ∧ s.column ['é', '\r', '\n', ' ', '#'] = 2 ∧
      s.IsShown ['é', '\r', '\n', ' ', '#'] := by
  let fault : LexError := ⟨.invalidToken, ⟨5, 6⟩, "#"⟩
  have hlex : lex ['é', '\r', '\n', ' ', '#'] = .error fault := by
    have hletter : Lexer.scan 'é' ['\r', '\n', ' ', '#'] = ⟨.ok (.ident "é"), ['é'], ['\r', '\n', ' ', '#']⟩ := rfl
    have hhash : (Lexer.scan '#' []).outcome = .error .invalidToken := rfl
    rw [lex, Lexer.lexFrom_of_ok (by decide) (by rw [hletter]), hletter, Lexer.lexFrom_skipped rfl,
      Lexer.lexFrom_skipped rfl, Lexer.lexFrom_skipped rfl, Lexer.lexFrom_of_error (by decide) hhash]
    rfl
  have hcompile : (Session.initial.compile ['é', '\r', '\n', ' ', '#']).1 = .error (.lexical fault) := by
    rw [Session.compile, Schema.ofSource, hlex]
    rfl
  obtain ⟨s, hplace, hs, -⟩ := compile_error_isShown hcompile
  cases hplace
  exact ⟨_, _, hcompile, rfl, rfl, rfl, hs⟩

end SchemaWire
