import SchemaWire.Proofs.Snippets
import SchemaWire.Proofs.Written

/-!
# Identifiers

The lexer reads identifiers by a pattern. A text is read as one exactly if its first character and its other characters
are such that `isIdentifierStart` and `isIdentifierPart` hold of them, and it is no reserved word. In a longer source an
identifier takes all that it can: no character that it could go on with stands right behind it (`lex_identifiers`).

An identifier may be spelled like a reserved word in one place only, in front of a separator outside ASCII. There is one
character outside ASCII that identifiers lack and that separates nothing either: U+0085 begins no token
(`isSkipped_iff_of_beyondAscii`).
-/

namespace SchemaWire

namespace Lexer

/-! ## Characters -/

/-- Outside ASCII, what no identifier holds separates tokens, but for one character. -/
theorem isSkipped_iff_of_beyondAscii {c : Char} (hbeyond : isBeyondAscii c = true) (hne : c ≠ '\u0085') :
    isSkipped c = true ↔ isIdentifierPart c = false := by
  have hbig : 127 < c.toNat := by simpa [isBeyondAscii] using hbeyond
  have hnext : c.toNat ≠ 0x85 := fun e => hne (Char.toNat_inj.mp e)
  have hdigit : c.isDigit = true ↔ 48 ≤ c.toNat ∧ c.toNat ≤ 57 := Text.isDigit_iff_range
  rw [isSkipped, CharClass.contains_separators_iff, Bool.eq_false_iff, isIdentifierPart, Ne, Bool.or_eq_true,
    isIdentifierStart_iff, CharClass.contains_nameStart_iff, CharClass.contains_beyondAscii_iff,
    Text.isBlank_eq_false_iff, hdigit]
  constructor <;> intro <;> omega

/-- A source does not go on with the one that is neither. -/
theorem head?_ne_of_lexFrom {pos : Nat} {text : List Char} {tokens : List Located} (h : lexFrom pos text = .ok tokens) :
    text.head? ≠ some '\u0085' := by
  intro hhead
  obtain ⟨rest, rfl⟩ := List.head?_eq_some_iff.mp hhead
  have hkind : (scan '\u0085' rest).outcome = .error .invalidToken := rfl
  rw [lexFrom_of_error (by decide) hkind] at h
  cases h

/-! ## What is read as an identifier -/

theorem eq_of_word_eq_ident {text text' : String} {rest : List Char} (h : word text rest = .ident text') :
    text' = text ∧ (reserved? text ≠ none → rest.head?.any isBeyondAscii = true) := by
  unfold word at h
  split at h
  · rename_i hbeyond
    cases h
    exact ⟨rfl, fun _ => hbeyond⟩
  · cases hreserved : reserved? text with
    | none =>
      rw [hreserved] at h
      cases h
      exact ⟨rfl, fun hne => absurd rfl hne⟩
    | some token =>
      rw [hreserved] at h
      obtain rfl : token = .ident text' := h
      unfold reserved? at hreserved
      split at hreserved <;> cases hreserved

/-- An identifier is read off as many characters as can be. -/
theorem isIdentifier_of_scan {c : Char} {cs lexeme rest : List Char} {text : String}
    (h : scan c cs = ⟨.ok (.ident text), lexeme, rest⟩) :
    text.toList = lexeme ∧ IsIdentifier lexeme ∧ (∀ d ∈ rest.head?, isIdentifierPart d = false) ∧
      (reserved? text ≠ none → rest.head?.any isBeyondAscii = true) := by
  rcases scan_cases c with ⟨hstart, hword⟩ | ⟨-, hnameless⟩
  · rw [hword] at h
    simp only [Step.mk.injEq, Except.ok.injEq] at h
    obtain ⟨htext, rfl, rfl⟩ := h
    obtain ⟨rfl, hreserved⟩ := eq_of_word_eq_ident htext
    refine ⟨String.toList_ofList, ⟨c, _, rfl, hstart, List.all_eq_true.mp List.all_takeWhile⟩, ?_, hreserved⟩
    intro d hd
    have hstop := List.head?_dropWhile_not isIdentifierPart cs
    rw [Option.mem_def.mp hd] at hstop
    simpa using hstop
  · have hident : (scan c cs).outcome = .ok (.ident text) := by rw [h]
    exact absurd (hnameless hident).1 (by simp [Token.name?])

/-- The first token of a text is read off the text where it begins, and the others behind it. -/
theorem exists_scan_of_lexFrom_cons {text : List Char} {t : Located} {more : List Located} (hne : t.token ≠ .eof)
    (h : lexFrom t.span.start text = .ok (t :: more)) :
    ∃ c tail rest, text = c :: tail ++ rest ∧ scan c (tail ++ rest) = ⟨.ok t.token, c :: tail, rest⟩ ∧
      t.span.stop = t.span.start + Utf8.size (c :: tail) ∧ lexFrom t.span.stop rest = .ok more := by
  have hfirst : lexFrom t.span.start text = .ok ([] ++ t :: more) := h
  cases text with
  | nil => exact absurd hfirst (lexFrom_nil_ne hne)
  | cons c cs =>
    by_cases hskip : isSkipped c = true
    · -- then the token would begin further on
      rw [lexFrom_skipped hskip] at hfirst
      obtain ⟨before, -, -, hstart, -⟩ := lexFrom_from hfirst hne
      have := c.utf8Size_pos
      omega
    · cases houtcome : (scan c cs).outcome with
      | error kind =>
        rw [lexFrom_of_error hskip houtcome] at h
        cases h
      | ok token =>
        rw [lexFrom_of_ok hskip houtcome] at h
        obtain ⟨others, hothers, heq⟩ := Except.map_eq_ok_iff.mp h
        obtain ⟨ht, rfl⟩ := List.cons.inj heq
        obtain ⟨happend, hlexeme⟩ := scan_lexeme c cs
        obtain ⟨d, tail, htail⟩ := List.exists_cons_of_ne_nil hlexeme
        rw [htail, List.cons_append] at happend
        obtain ⟨rfl, hcs⟩ := List.cons.inj happend
        rw [← ht]
        refine ⟨d, tail, (scan d cs).rest, happend.symm, ?_, by rw [htail], hothers⟩
        rw [hcs, ← htail]
        exact scan_eq houtcome

/-- What is read back from a text wherever it ends is read off the whole text. -/
theorem lex_of_readsBack {text : List Char} {token : Token} (h : ReadsBack text token) :
    lex text = .ok [⟨token, ⟨0, Utf8.size text⟩⟩, ⟨.eof, ⟨Utf8.size text, Utf8.size text⟩⟩] := by
  obtain ⟨c, cs, rfl, hskip, hscan⟩ := h
  have hall := hscan [] (by simp [IsParted])
  rw [List.append_nil] at hall
  rw [lex, lexFrom_of_ok (by simp [hskip]) (by rw [hall]), hall, lexFrom_nil, Nat.zero_add]
  rfl

/-- The identifiers of a source are pieces of it that can be read as such and go as far as they can. -/
theorem isIdentifier_of_mem {source : List Char} {tokens : List Located} {t : Located} {text : String}
    (h : lex source = .ok tokens) (ht : t ∈ tokens) (htext : t.token = .ident text) :
    ∃ before after, source = before ++ text.toList ++ after ∧
      t.span = ⟨Utf8.size before, Utf8.size (before ++ text.toList)⟩ ∧ IsIdentifier text.toList ∧
      (∀ c ∈ after.head?, isIdentifierPart c = false) ∧
      (reserved? text ≠ none → ∃ c rest, after = c :: rest ∧ isBeyondAscii c = true ∧ isSkipped c = true) := by
  obtain ⟨init, more, rfl⟩ := List.append_of_mem ht
  have hne : t.token ≠ .eof := by
    rw [htext]
    exact nofun
  obtain ⟨before, behind, rfl, hstart, hread⟩ := lexFrom_from h hne
  obtain ⟨c, tail, after, rfl, hscan, hstop, hafter⟩ := exists_scan_of_lexFrom_cons hne hread
  rw [htext] at hscan
  obtain ⟨hlexeme, hidentifier, hmaximal, hreserved⟩ := isIdentifier_of_scan hscan
  rw [Nat.zero_add] at hstart
  rw [hstart, ← Utf8.size_append] at hstop
  rw [hlexeme]
  refine ⟨before, after, (List.append_assoc ..).symm, ?_, hidentifier, hmaximal, fun hword => ?_⟩
  · rw [← hstart, ← hstop]
  · have hbeyond := hreserved hword
    cases after with
    | nil => cases hbeyond
    | cons d rest =>
      have hpart := hmaximal d rfl
      have hknown : d ≠ '\u0085' := fun e => head?_ne_of_lexFrom hafter (congrArg some e)
      exact ⟨d, rest, rfl, hbeyond, (isSkipped_iff_of_beyondAscii hbeyond hknown).mpr hpart⟩

end Lexer

/-- A text is read as one identifier exactly if it begins with a character that may begin one, goes on with such that may
continue one, and is no reserved word; the reserved words are read as their tokens. In every source, the identifiers are
such texts, and the character right behind one is never such that may continue it. Only in front of a separator outside
ASCII is what is spelled like a reserved word an identifier as well. -/
theorem lex_identifiers (source : List Char) :
    (lex source = .ok [⟨.ident (String.ofList source), ⟨0, Utf8.size source⟩⟩,
        ⟨.eof, ⟨Utf8.size source, Utf8.size source⟩⟩] ↔
      Lexer.IsIdentifier source ∧ Lexer.reserved? (String.ofList source) = none) ∧
    (∀ token, Lexer.reserved? (String.ofList source) = some token →
      lex source = .ok [⟨token, ⟨0, Utf8.size source⟩⟩, ⟨.eof, ⟨Utf8.size source, Utf8.size source⟩⟩]) ∧
    ∀ tokens, lex source = .ok tokens → ∀ t ∈ tokens, ∀ text, t.token = .ident text →
      ∃ before after, source = before ++ text.toList ++ after ∧
        t.span = ⟨Utf8.size before, Utf8.size (before ++ text.toList)⟩ ∧ Lexer.IsIdentifier text.toList ∧
        (∀ c ∈ after.head?, Lexer.isIdentifierPart c = false) ∧
        (Lexer.reserved? text ≠ none →
          ∃ c rest, after = c :: rest ∧ Lexer.isBeyondAscii c = true ∧ Lexer.isSkipped c = true) := by
  have htext : (String.ofList source).toList = source := String.toList_ofList
  refine ⟨⟨fun h => ?_, fun ⟨hidentifier, hreserved⟩ => ?_⟩, fun token htoken => ?_, fun tokens h t ht text htext => ?_⟩
  · obtain ⟨before, after, hsource, -, hidentifier, -, hreserved⟩ :=
      Lexer.isIdentifier_of_mem h List.mem_cons_self rfl
    rw [htext] at hsource hidentifier
    refine ⟨hidentifier, Classical.byContradiction fun hword => ?_⟩
    obtain ⟨c, rest, rfl, -⟩ := hreserved hword
    have hlength := congrArg List.length hsource
    rw [List.length_append, List.length_append, List.length_cons] at hlength
    omega
  · rw [← htext] at hidentifier
    have hread := Lexer.readsBack_word hidentifier
    rw [hreserved, htext] at hread
    exact Lexer.lex_of_readsBack hread
  · have hread := Lexer.readsBack_of_reserved? htoken
    rw [htext] at hread
    exact Lexer.lex_of_readsBack hread
  · exact Lexer.isIdentifier_of_mem h ht htext

/-- A word with a letter of two bytes and a digit, a reserved word, and the same before a separator of three bytes, where
it is an identifier. -/
theorem lex_identifiers_beforeSeparator :
    lex ['é', '1'] = .ok [⟨.ident "é1", ⟨0, 3⟩⟩, ⟨.eof, ⟨3, 3⟩⟩] ∧
      lex ['n', 'u', 'l', 'l'] = .ok [⟨.null, ⟨0, 4⟩⟩, ⟨.eof, ⟨4, 4⟩⟩] ∧
      lex ['n', 'u', 'l', 'l', '\u3000'] = .ok [⟨.ident "null", ⟨0, 4⟩⟩, ⟨.eof, ⟨7, 7⟩⟩] ∧
      ∃ before after, ['n', 'u', 'l', 'l', '\u3000'] = before ++ "null".toList ++ after ∧
        Span.mk 0 4 = ⟨Utf8.size before, Utf8.size (before ++ "null".toList)⟩ ∧
        (∀ c ∈ after.head?, Lexer.isIdentifierPart c = false) ∧
        ∃ c rest, after = c :: rest ∧ Lexer.isBeyondAscii c = true ∧ Lexer.isSkipped c = true := by
  have hword : Lexer.IsIdentifier ['é', '1'] := ⟨'é', ['1'], rfl, rfl, List.forall_mem_singleton.mpr rfl⟩
  have hseparated : lex ['n', 'u', 'l', 'l', '\u3000'] = .ok [⟨.ident "null", ⟨0, 4⟩⟩, ⟨.eof, ⟨7, 7⟩⟩] := by
    have hscan : Lexer.scan 'n' ['u', 'l', 'l', '\u3000'] =
        ⟨.ok (.ident "null"), ['n', 'u', 'l', 'l'], ['\u3000']⟩ := rfl
    have htoken : (Lexer.scan 'n' ['u', 'l', 'l', '\u3000']).outcome = .ok (.ident "null") := by rw [hscan]
    rw [lex, Lexer.lexFrom_of_ok (by decide) htoken, hscan, Lexer.lexFrom_skipped (by decide), Lexer.lexFrom_nil]
    rfl
  obtain ⟨before, after, hsource, hspan, -, hmaximal, hseparator⟩ :=
    (lex_identifiers ['n', 'u', 'l', 'l', '\u3000']).2.2 _ hseparated ⟨.ident "null", ⟨0, 4⟩⟩ List.mem_cons_self
      "null" rfl
  exact ⟨(lex_identifiers ['é', '1']).1.mpr ⟨hword, rfl⟩, (lex_identifiers ['n', 'u', 'l', 'l']).2.1 .null rfl,
    hseparated, before, after, hsource, hspan, hmaximal, hseparator (by decide)⟩

end SchemaWire
