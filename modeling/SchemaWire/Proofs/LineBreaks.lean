import SchemaWire.Proofs.Relocation
import SchemaWire.Proofs.Tiling

/-!
# Reading goes on behind a line break

No token reaches over a line break behind it: whatever is read at the end of a text is read as well where a line break
and anything else come after (`scan_extend`). As reading has no memory, a text behind a text that can be read gives its
own tokens, or its own error, at its place (`lex_newline`).
-/

namespace SchemaWire

namespace Lexer

/-! ## Where a line break follows -/

section Extending

variable {p : Char → Bool} (cs b : List Char)

/-- A line break ends a run of characters that it does not belong to. -/
theorem takeWhile_newline (hp : p '\n' = false) : (cs ++ '\n' :: b).takeWhile p = cs.takeWhile p := by
  rw [List.takeWhile_append]
  split
  · rename_i h
    rw [List.takeWhile_cons_of_neg (by simp [hp]), List.append_nil]
    exact ((List.takeWhile_prefix p).eq_of_length h).symm
  · rfl

theorem dropWhile_newline (hp : p '\n' = false) : (cs ++ '\n' :: b).dropWhile p = cs.dropWhile p ++ '\n' :: b := by
  rw [List.dropWhile_append]
  split
  · rename_i h
    rw [List.isEmpty_iff.mp h, List.dropWhile_cons_of_neg (by simp [hp]), List.nil_append]
  · rfl

end Extending

/-- A reader that reads the same piece where a line break and anything else come behind the text. -/
def Extends (read : List Char → Step) : Prop :=
  ∀ {cs rest lexeme : List Char} {token : Token} (b : List Char), read cs = ⟨.ok token, lexeme, rest⟩ →
    read (cs ++ '\n' :: b) = ⟨.ok token, lexeme, rest ++ '\n' :: b⟩

theorem extends_scanString (quote : Char) : Extends (scanString quote) := by
  intro cs rest lexeme token b h
  unfold scanString at h ⊢
  cases hrest : cs.dropWhile (· ≠ quote) with
  | nil =>
    rw [hrest] at h
    cases h
  | cons closing after =>
    rw [hrest] at h
    cases h
    have hlength : (cs.takeWhile (· ≠ quote)).length ≠ cs.length := by
      intro h
      have hall := (List.takeWhile_prefix (· ≠ quote)).eq_of_length h
      have happend := List.takeWhile_append_dropWhile (p := (· ≠ quote)) (l := cs)
      rw [hrest, hall] at happend
      simp at happend
    rw [List.dropWhile_append, List.takeWhile_append, hrest, if_neg hlength]
    rfl

theorem splitComment?_append {cs text rest : List Char} (h : splitComment? cs = some (text, rest)) (more : List Char) :
    splitComment? (cs ++ more) = some (text, rest ++ more) := by
  fun_induction splitComment? cs generalizing text with
  | case1 => cases h
  | case2 after =>
    cases h
    rfl
  | case3 c cs hnot ih =>
    obtain ⟨⟨text', rest'⟩, hrest, heq⟩ := Option.map_eq_some_iff.mp h
    cases heq
    have hopen : ∀ after, c = '*' → cs ++ more = '/' :: after → False := by
      intro after hc hslash
      cases cs with
      | nil => cases hrest
      | cons d cs =>
        obtain ⟨rfl, -⟩ := List.cons.inj hslash
        exact hnot cs hc rfl
    rw [List.cons_append, splitComment?]
    · rw [ih hrest]
      rfl
    · exact hopen

theorem extends_scanSlash : Extends scanSlash := by
  intro cs rest lexeme token b h
  unfold scanSlash at h
  split at h
  · rename_i cs
    cases h
    rw [List.cons_append, scanSlash, takeWhile_newline cs b rfl, dropWhile_newline cs b rfl]
  · rename_i cs
    split at h
    · rename_i text after hsplit
      cases h
      simp only [List.cons_append, scanSlash, splitComment?_append hsplit]
    · cases h
  · cases h

theorem extends_scanMark (c : Char) : Extends (scanMark c) := by
  intro cs rest lexeme token b h
  unfold scanMark at h
  split at h
  · rename_i mark hmark
    cases h
    simp [scanMark, hmark]
  · split at h <;> cases h <;> rfl

/-! ### Numbers -/

section Numbers

variable {c d : Char} {cs rest lexeme : List Char} {token : Token} (b : List Char)

theorem head?_any_newline {p : Char → Bool} (hp : p '\n' = false) (cs b : List Char) :
    (cs ++ '\n' :: b).head?.any p = cs.head?.any p := by
  cases cs <;> simp [hp]

theorem extend_hexadecimal (h : scanNumber '0' ('x' :: cs) = ⟨.ok token, lexeme, rest⟩) :
    scanNumber '0' ('x' :: cs ++ '\n' :: b) = ⟨.ok token, lexeme, rest ++ '\n' :: b⟩ := by
  rw [scanNumber] at h
  rw [List.cons_append, scanNumber]
  simp only [takeWhile_newline cs b (p := Text.isHexDigit) rfl, dropWhile_newline cs b (p := Text.isHexDigit) rfl,
    head?_any_newline (p := isIdentifierStart) rfl]
  simp only [Step.mk.injEq] at h ⊢
  obtain ⟨hvalue, rfl, rfl⟩ := h
  exact ⟨hvalue, rfl, rfl⟩

theorem extends_scanNumber (c : Char) : Extends (scanNumber c) := by
  intro cs rest lexeme token b h
  by_cases hhex : ∃ more, c = '0' ∧ cs = 'x' :: more
  · obtain ⟨more, rfl, rfl⟩ := hhex
    exact extend_hexadecimal b h
  have hhex' : ∀ more, c = '0' → cs ++ '\n' :: b = 'x' :: more → False := by
    intro more hc hcs
    cases cs with
    | nil => simp at hcs
    | cons x more' =>
      obtain ⟨rfl, -⟩ := List.cons.inj hcs
      exact hhex ⟨more', hc, rfl⟩
  replace hhex : ∀ more, c = '0' → cs = 'x' :: more → False := fun more hc hcs => hhex ⟨more, hc, hcs⟩
  have htake : (cs ++ '\n' :: b).takeWhile Char.isDigit = cs.takeWhile Char.isDigit := takeWhile_newline cs b rfl
  have hdrop : (cs ++ '\n' :: b).dropWhile Char.isDigit = cs.dropWhile Char.isDigit ++ '\n' :: b :=
    dropWhile_newline cs b rfl
  by_cases hrest : ∃ d rest, cs.dropWhile Char.isDigit = '.' :: d :: rest ∧ d.isDigit = true
  · obtain ⟨d, after, hd, hdigit⟩ := hrest
    rw [hd, List.cons_append, List.cons_append] at hdrop
    rw [scanNumber_of_fraction hhex hd hdigit] at h
    rw [scanNumber_of_fraction hhex' hdrop hdigit, htake, takeWhile_newline after b (p := Char.isDigit) rfl,
      dropWhile_newline after b (p := Char.isDigit) rfl]
    simp only [Step.mk.injEq] at h ⊢
    obtain ⟨hvalue, rfl, rfl⟩ := h
    exact ⟨hvalue, rfl, rfl⟩
  · have hwhole : ∀ d rest, cs.dropWhile Char.isDigit = '.' :: d :: rest → d.isDigit = false :=
      fun d rest hd => Bool.eq_false_iff.mpr fun hdigit => hrest ⟨d, rest, hd, hdigit⟩
    have hwhole' : ∀ d rest, (cs ++ '\n' :: b).dropWhile Char.isDigit = '.' :: d :: rest → d.isDigit = false := by
      intro d after hd
      rw [hdrop] at hd
      match hcs : cs.dropWhile Char.isDigit with
      | [] => simp [hcs] at hd
      | [x] =>
        simp only [hcs, List.cons_append, List.nil_append, List.cons.injEq] at hd
        rw [← hd.2.1]
        rfl
      | x :: y :: more =>
        simp only [hcs, List.cons_append, List.cons.injEq] at hd
        obtain ⟨rfl, rfl, -⟩ := hd
        exact hwhole y more hcs
    rw [scanNumber_of_whole hhex hwhole] at h
    rw [scanNumber_of_whole hhex' hwhole', htake, hdrop]
    simp only [Step.mk.injEq] at h ⊢
    obtain ⟨hvalue, rfl, rfl⟩ := h
    exact ⟨hvalue, rfl, rfl⟩

end Numbers

/-! ### Steps -/

/-- What is read off a text is read off it as well where a line break and anything else come after it. -/
theorem scan_extend {c : Char} {cs rest lexeme : List Char} {token : Token} (b : List Char)
    (h : scan c cs = ⟨.ok token, lexeme, rest⟩) :
    scan c (cs ++ '\n' :: b) = ⟨.ok token, lexeme, rest ++ '\n' :: b⟩ := by
  rw [scan_eq_ite] at h ⊢
  split at h
  · rename_i hdigit
    rw [if_pos hdigit]
    exact extends_scanNumber c b h
  rename_i hdigit
  rw [if_neg hdigit]
  split at h
  · rename_i hquote
    rw [if_pos hquote]
    exact extends_scanString c b h
  rename_i hquote
  rw [if_neg hquote]
  split at h
  · rename_i hslash
    rw [if_pos hslash]
    exact extends_scanSlash b h
  rename_i hslash
  rw [if_neg hslash]
  split at h
  · rename_i hstart
    rw [if_pos hstart, takeWhile_newline cs b (p := isIdentifierPart) rfl,
      dropWhile_newline cs b (p := isIdentifierPart) rfl]
    simp only [Step.mk.injEq] at h ⊢
    obtain ⟨hword, rfl, rfl⟩ := h
    refine ⟨?_, rfl, rfl⟩
    unfold word at hword ⊢
    rw [head?_any_newline (p := isBeyondAscii) rfl]
    exact hword
  · rename_i hstart
    rw [if_neg hstart]
    exact extends_scanMark c b h

/-! ## Reading -/

/-- The end of the source is the last token, and no other token is one. -/
theorem eq_beforeEof_append {pos : Nat} {text : List Char} {tokens : List Located} (h : lexFrom pos text = .ok tokens) :
    tokens = Located.beforeEof tokens ++ [⟨.eof, ⟨pos + Utf8.size text, pos + Utf8.size text⟩⟩] := by
  induction pos, text using lexFrom.induct generalizing tokens with
  | case1 pos =>
    rw [lexFrom_nil] at h
    cases h
    rfl
  | case2 pos c cs hskip ih =>
    rw [lexFrom_skipped hskip] at h
    rw [Utf8.size_cons, ← Nat.add_assoc]
    exact ih h
  | case3 pos c cs hskip step kind =>
    rename_i hkind
    rw [lexFrom_of_error hskip hkind] at h
    cases h
  | case4 pos c cs hskip step span token =>
    rename_i htoken ih
    rw [lexFrom_of_ok hskip htoken] at h
    obtain ⟨more, hmore, rfl⟩ := Except.map_eq_ok_iff.mp h
    have hsize : span.stop + Utf8.size step.rest = pos + Utf8.size (c :: cs) := by
      rw [← (scan_lexeme c cs).1, Utf8.size_append, ← Nat.add_assoc]
    rw [Located.beforeEof_cons (alone_of_scan (scan_eq htoken)).1, List.cons_append, ← hsize]
    exact congrArg _ (ih hmore)

/-- The outcome of reading a text, where it stands `n` bytes later. -/
def shifted (n : Nat) (outcome : Except LexError (List Located)) : Except LexError (List Located) :=
  (outcome.map (List.map (Located.relocated (· + n)))).mapError fun e => { e with span := e.span.shift n }

/-- Reading has no memory: a text is read alike wherever it stands. -/
theorem lexFrom_add (pos n : Nat) (text : List Char) : lexFrom (pos + n) text = shifted n (lexFrom pos text) := by
  induction pos, text using lexFrom.induct with
  | case1 pos =>
    rw [lexFrom_nil, lexFrom_nil]
    rfl
  | case2 pos c cs hskip ih =>
    rw [lexFrom_skipped hskip, lexFrom_skipped hskip, ← ih, Nat.add_right_comm]
  | case3 pos c cs hskip step kind =>
    rename_i hkind
    rw [lexFrom_of_error hskip hkind, lexFrom_of_error hskip hkind, Nat.add_right_comm]
    rfl
  | case4 pos c cs hskip step span token =>
    rename_i htoken ih
    have hstop : pos + n + Utf8.size step.lexeme = span.stop + n := Nat.add_right_comm ..
    rw [lexFrom_of_ok hskip htoken, lexFrom_of_ok hskip htoken, hstop, ih]
    cases lexFrom span.stop step.rest <;> rfl

/-- Behind a text that can be read and a line break, reading goes on where the line break ends. -/
theorem lexFrom_newline {pos : Nat} {a : List Char} {tokens : List Located} (h : lexFrom pos a = .ok tokens)
    (b : List Char) :
    lexFrom pos (a ++ '\n' :: b) = (lexFrom (pos + Utf8.size a + 1) b).map (Located.beforeEof tokens ++ ·) := by
  induction pos, a using lexFrom.induct generalizing tokens with
  | case1 pos =>
    rw [lexFrom_nil] at h
    cases h
    have hsize : pos + Char.utf8Size '\n' = pos + Utf8.size [] + 1 := rfl
    rw [List.nil_append, lexFrom_skipped rfl, hsize]
    cases lexFrom (pos + Utf8.size [] + 1) b <;> rfl
  | case2 pos c cs hskip ih =>
    rw [lexFrom_skipped hskip] at h
    rw [List.cons_append, lexFrom_skipped hskip, ih h, Utf8.size_cons, Nat.add_assoc pos]
  | case3 pos c cs hskip step kind =>
    rename_i hkind
    rw [lexFrom_of_error hskip hkind] at h
    cases h
  | case4 pos c cs hskip step span token =>
    rename_i htoken ih
    rw [lexFrom_of_ok hskip htoken] at h
    obtain ⟨more, hmore, rfl⟩ := Except.map_eq_ok_iff.mp h
    have hscan := scan_extend b (scan_eq htoken)
    have hread : (scan c (cs ++ '\n' :: b)).outcome = .ok token := by rw [hscan]
    have hsize : span.stop + Utf8.size step.rest = pos + Utf8.size (c :: cs) := by
      rw [← (scan_lexeme c cs).1, Utf8.size_append, ← Nat.add_assoc]
    rw [List.cons_append, lexFrom_of_ok hskip hread, hscan]
    simp only
    rw [ih hmore, hsize, Except.map_map, Located.beforeEof_cons (alone_of_scan (scan_eq htoken)).1]
    rfl

theorem lex_newline_eq {a : List Char} {tokens : List Located} (h : lex a = .ok tokens) (b : List Char) :
    lex (a ++ '\n' :: b) = (shifted (Utf8.size a + 1) (lex b)).map (Located.beforeEof tokens ++ ·) := by
  have hread := lexFrom_newline h b
  rw [Nat.add_assoc, lexFrom_add] at hread
  exact hread

end Lexer

/-- Reading a text behind a text that can be read and a line break gives the tokens of both, without the end of the
first, or the error of the second. What the second text gives stands as many bytes later as come before it. -/
theorem lex_newline {a : List Char} {tokens : List Located} (h : lex a = .ok tokens) (b : List Char) :
    ∃ read, tokens = read ++ [⟨.eof, ⟨Utf8.size a, Utf8.size a⟩⟩] ∧
      lex (a ++ '\n' :: b) =
        match lex b with
        | .ok more => .ok (read ++ more.map (Located.relocated (· + (Utf8.size a + 1))))
        | .error e => .error { e with span := e.span.shift (Utf8.size a + 1) } := by
  have hend := Lexer.eq_beforeEof_append h
  rw [Nat.zero_add] at hend
  refine ⟨Located.beforeEof tokens, hend, ?_⟩
  rw [Lexer.lex_newline_eq h]
  cases lex b <;> rfl

/-- A line comment at the end of a text does not take what comes behind the line break. -/
theorem lex_newline_comment :
    lex ['/', '/'] = .ok [⟨.comment "", ⟨0, 2⟩⟩, ⟨.eof, ⟨2, 2⟩⟩] ∧
      lex ['/', '/', '\n', ';'] =
        .ok [⟨.comment "", ⟨0, 2⟩⟩, ⟨.mark .semicolon, ⟨3, 4⟩⟩, ⟨.eof, ⟨4, 4⟩⟩] := by
  have hcomment : lex ['/', '/'] = .ok [⟨.comment "", ⟨0, 2⟩⟩, ⟨.eof, ⟨2, 2⟩⟩] := by
    have hscan : Lexer.scan '/' ['/'] = ⟨.ok (.comment ""), ['/', '/'], []⟩ := rfl
    rw [lex, Lexer.lexFrom_of_ok (by decide) (by rw [hscan]), hscan, Lexer.lexFrom_nil]
    rfl
  have hmark : lex [';'] = .ok [⟨.mark .semicolon, ⟨0, 1⟩⟩, ⟨.eof, ⟨1, 1⟩⟩] := by
    have hscan : Lexer.scan ';' [] = ⟨.ok (.mark .semicolon), [';'], []⟩ := rfl
    rw [lex, Lexer.lexFrom_of_ok (by decide) (by rw [hscan]), hscan, Lexer.lexFrom_nil]
    rfl
  obtain ⟨read, hread, hlex⟩ := lex_newline hcomment [';']
  obtain rfl : [⟨.comment "", ⟨0, 2⟩⟩] = read := List.append_cancel_right hread
  rw [hmark] at hlex
  exact ⟨hcomment, hlex⟩

end SchemaWire
