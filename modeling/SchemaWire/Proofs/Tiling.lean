import SchemaWire.Proofs.Outcome
import SchemaWire.Token.Lexer

/-!
# Tokens tile their source

What `scan` reads off a text stays readable when the text is cut off anywhere behind it (`scan_cut`). So the
pieces of a source can be read alone, and where reading stops, all before it can be read.
-/

namespace SchemaWire

/-- The token that the text of a token gives where nothing follows: a word that is spelled like a reserved
word then is one. -/
def Token.alone : Token → Token
  | .ident text => (Lexer.reserved? text).getD (.ident text)
  | token => token

/-- Only identifiers can be another token alone. -/
theorem Token.alone_of_name? {t : Token} (h : t.name? = none) : t.alone = t := by
  cases t with
  | ident => cases h
  | _ => rfl

namespace Lexer

/-! ## Cutting a text -/

theorem takeWhile_cut {p : Char → Bool} {cs pre post : List Char} (h : cs.dropWhile p = pre ++ post) :
    (cs.takeWhile p ++ pre).takeWhile p = cs.takeWhile p ∧ (cs.takeWhile p ++ pre).dropWhile p = pre := by
  have hall : ∀ c ∈ cs.takeWhile p, p c = true := fun c hc => List.all_eq_true.mp List.all_takeWhile c hc
  have hstop : pre.takeWhile p = [] ∧ pre.dropWhile p = pre := by
    cases pre with
    | nil => simp
    | cons c rest =>
      have hc : p c = false := by
        have := List.head?_dropWhile_not p cs
        rw [h] at this
        simpa using this
      simp [hc]
  rw [List.takeWhile_append_of_pos hall, List.dropWhile_append_of_pos hall, hstop.1, hstop.2]
  simp

/-- A reader of the text after `c` that reads the same piece when the text is cut off behind it. -/
def Cuts (c : Char) (read : List Char → Step) : Prop :=
  ∀ {cs pre post lexeme : List Char} {token : Token}, read cs = ⟨.ok token, lexeme, pre ++ post⟩ →
    ∃ tail, lexeme = c :: tail ∧ read (tail ++ pre) = ⟨.ok token, lexeme, pre⟩

theorem cuts_scanString (quote : Char) : Cuts quote (scanString quote) := by
  intro cs pre post lexeme token h
  unfold scanString at h
  split at h
  · cases h
  · rename_i closing rest hrest
    simp only [Step.mk.injEq, Except.ok.injEq] at h
    obtain ⟨rfl, rfl, rfl⟩ := h
    have hclosing : cs.dropWhile (· ≠ quote) = (closing :: pre) ++ post := hrest
    obtain ⟨htake, hdrop⟩ := takeWhile_cut hclosing
    refine ⟨cs.takeWhile (· ≠ quote) ++ [closing], by simp, ?_⟩
    unfold scanString
    simp only [List.append_assoc, List.singleton_append, htake, hdrop]

theorem splitComment?_cut {cs text pre post : List Char} (h : splitComment? cs = some (text, pre ++ post)) :
    splitComment? (text ++ '*' :: '/' :: pre) = some (text, pre) := by
  fun_induction splitComment? cs generalizing text with
  | case1 => cases h
  | case2 rest =>
    simp only [Option.some.injEq, Prod.mk.injEq] at h
    obtain ⟨rfl, rfl⟩ := h
    rfl
  | case3 c cs hnot ih =>
    obtain ⟨⟨rest, after⟩, hrest, heq⟩ := Option.map_eq_some_iff.mp h
    simp only [Prod.mk.injEq] at heq
    obtain ⟨rfl, rfl⟩ := heq
    have hmore := ih hrest
    have hopen : ∀ more, c = '*' → rest ++ '*' :: '/' :: pre = '/' :: more → False := by
      intro more hc hslash
      have hcs := append_of_splitComment? hrest
      cases rest with
      | nil => simp at hslash
      | cons d rest =>
        obtain ⟨rfl, _⟩ := List.cons.inj hslash
        exact hnot _ hc hcs.symm
    rw [List.cons_append, splitComment?]
    · rw [hmore]
      rfl
    · exact hopen

theorem cuts_scanSlash : Cuts '/' scanSlash := by
  intro cs pre post lexeme token h
  unfold scanSlash at h
  split at h
  · rename_i cs
    simp only [Step.mk.injEq, Except.ok.injEq] at h
    obtain ⟨rfl, rfl, hrest⟩ := h
    obtain ⟨htake, hdrop⟩ := takeWhile_cut hrest
    refine ⟨'/' :: cs.takeWhile (!endsLineComment ·), rfl, ?_⟩
    rw [List.cons_append, scanSlash]
    simp only [htake, hdrop]
  · rename_i cs
    split at h
    · rename_i text rest hsplit
      simp only [Step.mk.injEq, Except.ok.injEq] at h
      obtain ⟨rfl, rfl, rfl⟩ := h
      refine ⟨'*' :: text ++ ['*', '/'], rfl, ?_⟩
      simp only [List.cons_append, List.append_assoc, List.nil_append, scanSlash, splitComment?_cut hsplit]
    · cases h
  · cases h

theorem cuts_scanMark (c : Char) : Cuts c (scanMark c) := by
  intro cs pre post lexeme token h
  unfold scanMark at h
  split at h
  · rename_i mark hmark
    simp only [Step.mk.injEq, Except.ok.injEq] at h
    obtain ⟨rfl, rfl, rfl⟩ := h
    exact ⟨[], rfl, by simp [scanMark, hmark]⟩
  · split at h
    · cases h
      exact ⟨['>'], rfl, rfl⟩
    · cases h
      exact ⟨['-', '-'], rfl, rfl⟩
    · cases h
      exact ⟨['/'], rfl, rfl⟩
    · cases h

/-! ### Numbers -/

section Numbers

variable {c d : Char} {cs rest pre post lexeme : List Char} {token : Token}

theorem cut_hexadecimal (h : scanNumber '0' ('x' :: cs) = ⟨.ok token, lexeme, pre ++ post⟩) :
    ∃ tail, lexeme = '0' :: tail ∧ scanNumber '0' (tail ++ pre) = ⟨.ok token, lexeme, pre⟩ := by
  rw [scanNumber] at h
  simp only [Step.mk.injEq] at h
  obtain ⟨hvalue, rfl, hpre⟩ := h
  obtain ⟨htake, hdrop⟩ := takeWhile_cut hpre
  refine ⟨'x' :: cs.takeWhile Text.isHexDigit, rfl, ?_⟩
  split at hvalue
  · cases hvalue
  · rename_i hgood
    have hgood' : ¬(((cs.takeWhile Text.isHexDigit).isEmpty || pre.head?.any isIdentifierStart) = true) := by
      rw [hpre] at hgood
      cases pre with
      | nil => simp_all
      | cons d rest => exact hgood
    rw [List.cons_append, scanNumber]
    simp only [htake, hdrop, if_neg hgood', hvalue]

/-- A literal that is not hexadecimal, where a fraction follows its first digits. -/
theorem scanNumber_of_fraction (hhex : ∀ more, c = '0' → cs = 'x' :: more → False)
    (hrest : cs.dropWhile Char.isDigit = '.' :: d :: rest) (hdigit : d.isDigit = true) :
    scanNumber c cs =
      ⟨.ok (.float (Double.ofRatio false
          (Text.numeral 10 (c :: cs.takeWhile Char.isDigit ++ d :: rest.takeWhile Char.isDigit))
          (Nat.pow 10 (d :: rest.takeWhile Char.isDigit).length))),
        c :: cs.takeWhile Char.isDigit ++ '.' :: d :: rest.takeWhile Char.isDigit, rest.dropWhile Char.isDigit⟩ := by
  rw [scanNumber]
  · simp only [hrest, if_pos hdigit]
  · exact hhex

/-- A literal that is not hexadecimal, where no fraction follows its first digits. -/
theorem scanNumber_of_whole (hhex : ∀ more, c = '0' → cs = 'x' :: more → False)
    (hrest : ∀ d rest, cs.dropWhile Char.isDigit = '.' :: d :: rest → d.isDigit = false) :
    scanNumber c cs =
      ⟨integer (Text.numeral 10 (c :: cs.takeWhile Char.isDigit)) .invalidToken, c :: cs.takeWhile Char.isDigit,
        cs.dropWhile Char.isDigit⟩ := by
  rw [scanNumber]
  · split
    · rename_i d rest hd
      rw [if_neg (by simp [hrest d rest hd]), hd]
    · rfl
  · exact hhex

theorem not_hexadecimal_of_append (post : List Char) (hhex : ∀ more, c = '0' → cs ++ post = 'x' :: more → False) :
    ∀ more, c = '0' → cs = 'x' :: more → False := by
  intro more hc hcs
  exact hhex (more ++ post) hc (by rw [hcs]; rfl)

theorem cut_fraction (hhex : ∀ more, c = '0' → cs = 'x' :: more → False)
    (hrest : cs.dropWhile Char.isDigit = '.' :: d :: rest) (hdigit : d.isDigit = true)
    (h : scanNumber c cs = ⟨.ok token, lexeme, pre ++ post⟩) :
    ∃ tail, lexeme = c :: tail ∧ scanNumber c (tail ++ pre) = ⟨.ok token, lexeme, pre⟩ := by
  rw [scanNumber_of_fraction hhex hrest hdigit] at h
  simp only [Step.mk.injEq, Except.ok.injEq] at h
  obtain ⟨hvalue, rfl, hpre⟩ := h
  obtain ⟨htake, hdrop⟩ := takeWhile_cut hpre
  have hfraction : cs.dropWhile Char.isDigit = ('.' :: d :: (rest.takeWhile Char.isDigit ++ pre)) ++ post := by
    rw [hrest, List.cons_append, List.cons_append, List.append_assoc, ← hpre, List.takeWhile_append_dropWhile]
  obtain ⟨htake', hdrop'⟩ := takeWhile_cut hfraction
  refine ⟨cs.takeWhile Char.isDigit ++ '.' :: d :: rest.takeWhile Char.isDigit, rfl, ?_⟩
  rw [List.append_assoc, List.cons_append, List.cons_append, scanNumber_of_fraction _ hdrop' hdigit, htake, hdrop,
    htake', hvalue]
  apply not_hexadecimal_of_append post
  rwa [List.append_assoc, ← hfraction, List.takeWhile_append_dropWhile]

theorem cut_whole (hhex : ∀ more, c = '0' → cs = 'x' :: more → False)
    (hrest : ∀ d rest, cs.dropWhile Char.isDigit = '.' :: d :: rest → d.isDigit = false)
    (h : scanNumber c cs = ⟨.ok token, lexeme, pre ++ post⟩) :
    ∃ tail, lexeme = c :: tail ∧ scanNumber c (tail ++ pre) = ⟨.ok token, lexeme, pre⟩ := by
  rw [scanNumber_of_whole hhex hrest] at h
  simp only [Step.mk.injEq] at h
  obtain ⟨hvalue, rfl, hpre⟩ := h
  obtain ⟨htake, hdrop⟩ := takeWhile_cut hpre
  refine ⟨cs.takeWhile Char.isDigit, rfl, ?_⟩
  rw [scanNumber_of_whole, htake, hdrop, hvalue]
  · apply not_hexadecimal_of_append post
    rwa [List.append_assoc, ← hpre, List.takeWhile_append_dropWhile]
  · rw [hdrop]
    intro d rest hd
    exact hrest d (rest ++ post) (by rw [hpre, hd]; rfl)

theorem cuts_scanNumber (c : Char) : Cuts c (scanNumber c) := by
  intro cs pre post lexeme token h
  by_cases hhex : ∃ more, c = '0' ∧ cs = 'x' :: more
  · obtain ⟨more, rfl, rfl⟩ := hhex
    exact cut_hexadecimal h
  replace hhex : ∀ more, c = '0' → cs = 'x' :: more → False := fun more hc hcs => hhex ⟨more, hc, hcs⟩
  by_cases hrest : ∃ d rest, cs.dropWhile Char.isDigit = '.' :: d :: rest ∧ d.isDigit = true
  · obtain ⟨d, rest, hd, hdigit⟩ := hrest
    exact cut_fraction hhex hd hdigit h
  · refine cut_whole hhex ?_ h
    intro d rest hd
    exact Bool.eq_false_iff.mpr fun hdigit => hrest ⟨d, rest, hd, hdigit⟩

end Numbers

/-! ### Steps -/

theorem alone_of_reserved? {text : String} {token : Token} (h : reserved? text = some token) :
    token.alone = token ∧ token ≠ .eof := by
  unfold reserved? at h
  split at h <;> simp at h <;> subst h <;> exact ⟨rfl, nofun⟩

/-- A word is what it is alone, unless a character outside ASCII follows it. -/
theorem alone_word (text : String) (rest : List Char) :
    (word text rest).alone = word text [] ∧ word text rest ≠ .eof ∧
      ((word text rest).alone ≠ word text rest → rest.head?.any isBeyondAscii = true) := by
  unfold word
  split
  · rename_i hbeyond
    exact ⟨rfl, nofun, fun _ => hbeyond⟩
  · cases h : reserved? text with
    | none => simp [Token.alone, h]
    | some token => simp [alone_of_reserved? h]

/-- No other token is a name. -/
theorem nameless_of_integer {value : Nat} {orElse : LexError.Kind} {token : Token}
    (h : integer value orElse = .ok token) :
    token.name? = none ∧ token ≠ .eof := by
  unfold integer at h
  split at h
  · cases h
    exact ⟨rfl, nofun⟩
  · cases h

theorem nameless_of_scanNumber {c : Char} {cs : List Char} {token : Token} (h : (scanNumber c cs).outcome = .ok token) :
    token.name? = none ∧ token ≠ .eof := by
  unfold scanNumber at h
  split at h
  · dsimp only at h
    split at h
    · cases h
    · exact nameless_of_integer h
  · split at h
    · split at h
      · cases h
        exact ⟨rfl, nofun⟩
      · exact nameless_of_integer h
    · exact nameless_of_integer h

theorem nameless_of_scanString {quote : Char} {cs : List Char} {token : Token}
    (h : (scanString quote cs).outcome = .ok token) : token.name? = none ∧ token ≠ .eof := by
  unfold scanString at h
  cases hrest : cs.dropWhile (· ≠ quote) with
  | nil =>
    rw [hrest] at h
    cases h
  | cons closing rest =>
    rw [hrest] at h
    cases h
    exact ⟨rfl, nofun⟩

theorem nameless_of_scanSlash {cs : List Char} {token : Token} (h : (scanSlash cs).outcome = .ok token) :
    token.name? = none ∧ token ≠ .eof := by
  unfold scanSlash at h
  split at h
  · cases h
    exact ⟨rfl, nofun⟩
  · split at h
    · cases h
      exact ⟨rfl, nofun⟩
    · cases h
  · cases h

theorem nameless_of_scanMark {c : Char} {cs : List Char} {token : Token} (h : (scanMark c cs).outcome = .ok token) :
    token.name? = none ∧ token ≠ .eof := by
  unfold scanMark at h
  split at h
  · cases h
    exact ⟨rfl, nofun⟩
  · split at h <;> cases h <;> exact ⟨rfl, nofun⟩

/-- A text is read as a word, or by a reader that reads no names. -/
theorem scan_cases (c : Char) :
    (isIdentifierStart c = true ∧ ∀ cs, scan c cs =
      ⟨.ok (word (String.ofList (c :: cs.takeWhile isIdentifierPart)) (cs.dropWhile isIdentifierPart)),
      c :: cs.takeWhile isIdentifierPart, cs.dropWhile isIdentifierPart⟩) ∨
    Cuts c (scan c) ∧ ∀ {cs token}, (scan c cs).outcome = .ok token → token.name? = none ∧ token ≠ .eof := by
  by_cases hdigit : c.isDigit
  · have hread : scan c = scanNumber c := by
      funext cs
      rw [scan_eq_ite, if_pos hdigit]
    rw [hread]
    exact .inr ⟨cuts_scanNumber c, nameless_of_scanNumber⟩
  by_cases hquote : c = '"' ∨ c = '\''
  · have hread : scan c = scanString c := by
      funext cs
      rw [scan_eq_ite, if_neg hdigit, if_pos hquote]
    rw [hread]
    exact .inr ⟨cuts_scanString c, nameless_of_scanString⟩
  by_cases hslash : c = '/'
  · have hread : scan c = scanSlash := by
      funext cs
      rw [scan_eq_ite, if_neg hdigit, if_neg hquote, if_pos hslash]
    rw [hread, hslash]
    exact .inr ⟨cuts_scanSlash, nameless_of_scanSlash⟩
  by_cases hstart : isIdentifierStart c
  · refine .inl ⟨hstart, fun cs => ?_⟩
    rw [scan_eq_ite, if_neg hdigit, if_neg hquote, if_neg hslash, if_pos hstart]
  · have hread : scan c = scanMark c := by
      funext cs
      rw [scan_eq_ite, if_neg hdigit, if_neg hquote, if_neg hslash, if_neg hstart]
    rw [hread]
    exact .inr ⟨cuts_scanMark c, nameless_of_scanMark⟩

/-- A token is what it is alone, unless a character outside ASCII follows it. -/
theorem alone_of_scan {c : Char} {cs lexeme rest : List Char} {token : Token}
    (h : scan c cs = ⟨.ok token, lexeme, rest⟩) :
    token ≠ .eof ∧ (token.alone ≠ token → rest.head?.any isBeyondAscii = true) := by
  rcases scan_cases c with ⟨_, hword⟩ | ⟨_, hnameless⟩
  · rw [hword] at h
    cases h
    exact (alone_word _ _).2
  · have htoken : (scan c cs).outcome = .ok token := by rw [h]
    obtain ⟨hname, hne⟩ := hnameless htoken
    exact ⟨hne, fun h => absurd (Token.alone_of_name? hname) h⟩

/-- What is read off a text is read off it as well when the text is cut off behind it. Only the token of a word may
change. -/
theorem scan_cut {c : Char} {cs pre post lexeme : List Char} {token : Token}
    (h : scan c cs = ⟨.ok token, lexeme, pre ++ post⟩) :
    ∃ tail token', lexeme = c :: tail ∧ scan c (tail ++ pre) = ⟨.ok token', lexeme, pre⟩ ∧
      (pre = [] → token' = token.alone) := by
  rcases scan_cases c with ⟨_, hword⟩ | ⟨hcuts, hnameless⟩
  · rw [hword] at h
    simp only [Step.mk.injEq, Except.ok.injEq] at h
    obtain ⟨rfl, rfl, hpre⟩ := h
    obtain ⟨htake, hdrop⟩ := takeWhile_cut hpre
    refine ⟨cs.takeWhile isIdentifierPart, _, rfl, by rw [hword, htake, hdrop], ?_⟩
    rintro rfl
    exact (alone_word _ _).1.symm
  · obtain ⟨tail, hlexeme, hcut⟩ := hcuts h
    have htoken : (scan c cs).outcome = .ok token := by rw [h]
    obtain ⟨hname, _⟩ := hnameless htoken
    exact ⟨tail, token, hlexeme, hcut, fun _ => (Token.alone_of_name? hname).symm⟩

end Lexer

/-! ## Tilings -/

namespace Span

/-- A piece of a source lies between the sizes of what comes before it and of what reaches to its end. -/
theorem snippet?_append (before text after : List Char) :
    (Span.mk (Utf8.size before) (Utf8.size (before ++ text))).snippet? (before ++ text ++ after) = some text := by
  have hsize : Utf8.size (before ++ text) - Utf8.size before = Utf8.size text := by
    rw [Utf8.size_append]
    omega
  have hle : Utf8.size before ≤ Utf8.size (before ++ text) := by
    rw [Utf8.size_append]
    omega
  simp only [snippet?, if_pos hle, List.append_assoc, Text.splitAtByte?_append, hsize, bind, Option.bind]

end Span

/-- Tokens that tile a source from a byte offset on: each lies between characters and is not empty, only skipped
characters are between one and the next, and the end-of-source token stands at the end. -/
inductive Tiles (source : List Char) : Nat → List Located → Prop
  | eof {start : Nat} {gap : List Char} (hgap : (Span.mk start (Utf8.size source)).snippet? source = some gap)
    (hskipped : ∀ c ∈ gap, Lexer.isSkipped c = true) :
    Tiles source start [⟨.eof, ⟨Utf8.size source, Utf8.size source⟩⟩]
  | token {start : Nat} {t : Located} {rest : List Located} {gap lexeme : List Char} (htoken : t.token ≠ .eof)
    (hgap : (Span.mk start t.span.start).snippet? source = some gap) (hskipped : ∀ c ∈ gap, Lexer.isSkipped c = true)
    (hlexeme : t.span.snippet? source = some lexeme) (hne : lexeme ≠ []) (hrest : Tiles source t.span.stop rest) :
    Tiles source start (t :: rest)

namespace Tiles

variable {source : List Char} {start : Nat} {tokens : List Located}

theorem start_le (h : Tiles source start tokens) : ∀ t ∈ tokens, start ≤ t.span.start := by
  have hle {s : Span} {text : List Char} (h : s.snippet? source = some text) : s.start ≤ s.stop := by
    unfold Span.snippet? at h
    split at h
    · assumption
    · cases h
  induction h with
  | eof hgap _ =>
    intro t ht
    rw [List.mem_singleton.mp ht]
    exact hle hgap
  | token _ hgap _ hlexeme _ _ ih =>
    intro u hu
    rcases List.mem_cons.mp hu with rfl | hu
    · exact hle hgap
    · exact Nat.le_trans (hle hgap) (Nat.le_trans (hle hlexeme) (ih u hu))

/-- Tokens that tile a source do not overlap, and stand in order. -/
theorem pairwise (h : Tiles source start tokens) : tokens.Pairwise fun t u => t.span.stop ≤ u.span.start := by
  induction h with
  | eof => exact List.pairwise_singleton _ _
  | token _ _ _ _ _ hrest ih => exact List.pairwise_cons.mpr ⟨hrest.start_le, ih⟩

end Tiles

namespace Lexer

section Run

variable {pos : Nat} {c : Char} {cs : List Char} {token : Token}

theorem lexFrom_nil : lexFrom pos [] = .ok [⟨.eof, ⟨pos, pos⟩⟩] := by
  rw [lexFrom]

theorem lexFrom_skipped (h : isSkipped c = true) : lexFrom pos (c :: cs) = lexFrom (pos + c.utf8Size) cs := by
  rw [lexFrom, if_pos h]

theorem lexFrom_of_ok (h : ¬isSkipped c = true) (htoken : (scan c cs).outcome = .ok token) :
    lexFrom pos (c :: cs) =
      (lexFrom (pos + Utf8.size (scan c cs).lexeme) (scan c cs).rest).map
        (⟨token, ⟨pos, pos + Utf8.size (scan c cs).lexeme⟩⟩ :: ·) := by
  rw [lexFrom, if_neg h]
  simp only [htoken]

theorem lexFrom_of_error {kind : LexError.Kind} (h : ¬isSkipped c = true) (hkind : (scan c cs).outcome = .error kind) :
    lexFrom pos (c :: cs) =
      .error ⟨kind, ⟨pos, pos + Utf8.size (scan c cs).lexeme⟩, String.ofList (scan c cs).lexeme⟩ := by
  rw [lexFrom, if_neg h]
  simp only [hkind]

theorem scan_eq (htoken : (scan c cs).outcome = .ok token) :
    scan c cs = ⟨.ok token, (scan c cs).lexeme, (scan c cs).rest⟩ := by
  rw [← htoken]

end Run

/-- The tokens of a text tile the source that it ends. By induction on the text: `done` is what the tokens before it
tile, and `gap` what was skipped since. -/
theorem tiles_of_lexFrom {done gap text : List Char} {tokens : List Located} (hskipped : ∀ c ∈ gap, isSkipped c = true)
    (h : lexFrom (Utf8.size (done ++ gap)) text = .ok tokens) :
    Tiles (done ++ gap ++ text) (Utf8.size done) tokens := by
  generalize hpos : Utf8.size (done ++ gap) = pos at h
  induction pos, text using lexFrom.induct generalizing done gap tokens with
  | case1 pos =>
    rw [lexFrom_nil] at h
    cases h
    have hgap := Span.snippet?_append done gap []
    rw [List.append_nil] at hgap ⊢
    rw [← hpos]
    exact .eof hgap hskipped
  | case2 pos c cs hskip ih =>
    rw [lexFrom_skipped hskip] at h
    have htiles : Tiles (done ++ (gap ++ [c]) ++ cs) (Utf8.size done) tokens :=
      ih (by simpa [or_imp, forall_and] using ⟨hskipped, hskip⟩) (by rw [← hpos]; simp [Nat.add_assoc]) h
    simpa using htiles
  | case3 pos c cs hskip step kind =>
    rename_i hkind
    rw [lexFrom_of_error hskip hkind] at h
    cases h
  | case4 pos c cs hskip step span token =>
    rename_i htoken ih
    rw [lexFrom_of_ok hskip htoken] at h
    obtain ⟨more, hmore, rfl⟩ := Except.map_eq_ok_iff.mp h
    obtain ⟨happend, hne⟩ := scan_lexeme c cs
    have hstop : Utf8.size (done ++ gap ++ (scan c cs).lexeme) = pos + Utf8.size (scan c cs).lexeme := by
      rw [Utf8.size_append, hpos]
    have htiles : Tiles (done ++ gap ++ (scan c cs).lexeme ++ [] ++ (scan c cs).rest)
        (Utf8.size (done ++ gap ++ (scan c cs).lexeme)) more :=
      ih (by simp) (by simpa using hstop) hmore
    have hsource : done ++ gap ++ c :: cs = done ++ gap ++ (scan c cs).lexeme ++ (scan c cs).rest := by
      rw [List.append_assoc _ (scan c cs).lexeme, happend]
    have hgap := Span.snippet?_append done gap (c :: cs)
    have hlexeme := Span.snippet?_append (done ++ gap) (scan c cs).lexeme (scan c cs).rest
    rw [← hsource, hstop, hpos] at hlexeme
    rw [hpos] at hgap
    refine .token (alone_of_scan (scan_eq htoken)).1 hgap hskipped hlexeme hne ?_
    rw [List.append_nil, ← hsource, hstop] at htiles
    exact htiles

/-- Each token is read off a piece of the text. -/
theorem exists_scan_of_mem {text : List Char} {tokens : List Located} {t : Located}
    (h : lexFrom pos text = .ok tokens) (ht : t ∈ tokens) (hne : t.token ≠ .eof) :
    ∃ before c tail rest, text = before ++ c :: tail ++ rest ∧
      t.span = ⟨pos + Utf8.size before, pos + Utf8.size (before ++ c :: tail)⟩ ∧ isSkipped c = false ∧
      scan c (tail ++ rest) = ⟨.ok t.token, c :: tail, rest⟩ := by
  induction pos, text using lexFrom.induct generalizing tokens with
  | case1 pos =>
    rw [lexFrom_nil] at h
    cases h
    rw [List.mem_singleton.mp ht] at hne
    exact absurd rfl hne
  | case2 pos c cs hskip ih =>
    rw [lexFrom_skipped hskip] at h
    obtain ⟨before, d, tail, rest, rfl, hspan, hd, hscan⟩ := ih h ht
    refine ⟨c :: before, d, tail, rest, rfl, ?_, hd, hscan⟩
    simpa [Nat.add_assoc] using hspan
  | case3 pos c cs hskip step kind =>
    rename_i hkind
    rw [lexFrom_of_error hskip hkind] at h
    cases h
  | case4 pos c cs hskip step span token =>
    rename_i htoken ih
    rw [lexFrom_of_ok hskip htoken] at h
    obtain ⟨more, hmore, rfl⟩ := Except.map_eq_ok_iff.mp h
    obtain ⟨happend, _⟩ := scan_lexeme c cs
    rcases List.mem_cons.mp ht with rfl | ht
    · have hscan := scan_eq htoken
      have hall : scan c cs = ⟨.ok token, (scan c cs).lexeme, (scan c cs).rest ++ []⟩ := by simpa using hscan
      obtain ⟨tail, _, hlexeme, _⟩ := scan_cut hall
      rw [hlexeme, List.cons_append, List.cons.injEq] at happend
      refine ⟨[], c, tail, (scan c cs).rest, by simp [happend], ?_, by simpa using hskip, ?_⟩
      · simp [hlexeme]
      · rw [← hlexeme, happend.2]
        exact hscan
    · obtain ⟨before, d, tail, rest, hrest, hspan, hd, hscan⟩ := ih hmore ht
      have htext : c :: cs = (scan c cs).lexeme ++ before ++ d :: tail ++ rest := by
        rw [← happend, List.append_assoc, List.append_assoc, ← List.append_assoc before]
        exact congrArg _ hrest
      refine ⟨(scan c cs).lexeme ++ before, d, tail, rest, htext, ?_, hd, hscan⟩
      rw [hspan]
      simp only [span, step, List.append_assoc, Utf8.size_append, Nat.add_assoc]

/-- Where reading stops at a piece of the text, what comes before it is read. -/
theorem exists_tokens_of_error {text : List Char} {e : LexError} (h : lexFrom pos text = .error e) :
    ∃ before lexeme rest tokens, text = before ++ lexeme ++ rest ∧ lexeme ≠ [] ∧
      e.span = ⟨pos + Utf8.size before, pos + Utf8.size (before ++ lexeme)⟩ ∧ lexFrom pos before = .ok tokens := by
  induction pos, text using lexFrom.induct generalizing e with
  | case1 pos =>
    rw [lexFrom_nil] at h
    cases h
  | case2 pos c cs hskip ih =>
    rw [lexFrom_skipped hskip] at h
    obtain ⟨before, lexeme, rest, tokens, rfl, hne, hspan, htokens⟩ := ih h
    refine ⟨c :: before, lexeme, rest, tokens, rfl, hne, ?_, ?_⟩
    · simpa [Nat.add_assoc] using hspan
    · rw [lexFrom_skipped hskip, htokens]
  | case3 pos c cs hskip step kind =>
    rename_i hkind
    rw [lexFrom_of_error hskip hkind] at h
    cases h
    obtain ⟨happend, hne⟩ := scan_lexeme c cs
    exact ⟨[], (scan c cs).lexeme, (scan c cs).rest, _, by simp [happend], hne, by simp, lexFrom_nil⟩
  | case4 pos c cs hskip step span token =>
    rename_i htoken ih
    rw [lexFrom_of_ok hskip htoken] at h
    obtain ⟨before, lexeme, rest, tokens, hrest, hne, hspan, htokens⟩ := ih (Except.map_eq_error_iff.mp h)
    -- the token is read off the text before the fault as well
    have hscan := scan_eq htoken
    have hcut : (scan c cs).rest = before ++ (lexeme ++ rest) := by rw [← List.append_assoc]; exact hrest
    rw [hcut] at hscan
    obtain ⟨tail, token', hlexeme, hshort, _⟩ := scan_cut hscan
    have htext : c :: cs = c :: tail ++ before ++ lexeme ++ rest := by
      rw [← (scan_lexeme c cs).1, hcut, hlexeme]
      simp
    refine ⟨c :: tail ++ before, lexeme, rest, ⟨token', pos, pos + Utf8.size (c :: tail)⟩ :: tokens, htext, hne, ?_, ?_⟩
    · rw [hspan]
      simp only [span, step, hlexeme, List.append_assoc, Utf8.size_append, Nat.add_assoc]
    · have hread : lexFrom (pos + Utf8.size (c :: tail)) before = .ok tokens := hlexeme ▸ htokens
      have htoken' : (scan c (tail ++ before)).outcome = .ok token' := by rw [hshort]
      rw [List.cons_append, lexFrom_of_ok hskip htoken', hshort, hlexeme]
      simp only [hread, Except.map]

end Lexer

/-! ## Sources -/

/-- The tokens of a source tile it. Each of them is read off its own piece of the source alone, too, unless it is a
word that is spelled like a reserved word and stands right before a character outside ASCII: there it is an identifier,
and alone it is the reserved word. Where reading stops instead, it stops at a piece of the source that is not empty,
and the source up to that piece is read. -/
theorem lex_tiles (source : List Char) :
    match lex source with
    | .ok tokens =>
      Tiles source 0 tokens ∧ (tokens.Pairwise fun t u => t.span.stop ≤ u.span.start) ∧
        ∀ t ∈ tokens, t.token ≠ .eof → ∃ before lexeme after, source = before ++ lexeme ++ after ∧
          t.span = ⟨Utf8.size before, Utf8.size (before ++ lexeme)⟩ ∧
          lex lexeme = .ok [⟨t.token.alone, ⟨0, Utf8.size lexeme⟩⟩, ⟨.eof, ⟨Utf8.size lexeme, Utf8.size lexeme⟩⟩] ∧
          (t.token.alone ≠ t.token → ∃ c rest, after = c :: rest ∧ Lexer.isBeyondAscii c = true)
    | .error e =>
      ∃ before lexeme after tokens, source = before ++ lexeme ++ after ∧ lexeme ≠ [] ∧
        e.span = ⟨Utf8.size before, Utf8.size (before ++ lexeme)⟩ ∧ lex before = .ok tokens := by
  split
  · rename_i tokens h
    have hread : Lexer.lexFrom (Utf8.size ([] ++ [])) source = .ok tokens := h
    have htiles : Tiles source 0 tokens := Lexer.tiles_of_lexFrom (List.forall_mem_nil _) hread
    refine ⟨htiles, htiles.pairwise, ?_⟩
    intro t ht hne
    obtain ⟨before, c, tail, rest, rfl, hspan, hskip, hscan⟩ := Lexer.exists_scan_of_mem h ht hne
    refine ⟨before, c :: tail, rest, rfl, by simpa using hspan, ?_, ?_⟩
    · have hall : Lexer.scan c (tail ++ rest) = ⟨.ok t.token, c :: tail, [] ++ rest⟩ := hscan
      obtain ⟨_, token', heq, halone, htoken⟩ := Lexer.scan_cut hall
      obtain ⟨_, rfl⟩ := List.cons.inj heq
      rw [List.append_nil] at halone
      have hread : (Lexer.scan c tail).outcome = .ok t.token.alone := by rw [halone, htoken rfl]
      rw [lex, Lexer.lexFrom_of_ok (by simp [hskip]) hread, halone]
      simp only [Lexer.lexFrom_nil, Nat.zero_add]
      rfl
    · intro halone
      have hbeyond := (Lexer.alone_of_scan hscan).2 halone
      cases rest with
      | nil => simp at hbeyond
      | cons d rest => exact ⟨d, rest, rfl, hbeyond⟩
  · rename_i e h
    obtain ⟨before, lexeme, rest, tokens, hsource, hne, hspan, htokens⟩ := Lexer.exists_tokens_of_error h
    exact ⟨before, lexeme, rest, tokens, hsource, hne, by simpa using hspan, htokens⟩

/-- A reserved word before a no-break space is an identifier there, and the reserved word alone. -/
theorem lex_tiles_beforeBlank :
    lex ['t', 'y', 'p', 'e', '\u00a0'] = .ok [⟨.ident "type", ⟨0, 4⟩⟩, ⟨.eof, ⟨6, 6⟩⟩] ∧
      ∃ before lexeme after, ['t', 'y', 'p', 'e', '\u00a0'] = before ++ lexeme ++ after ∧
        Span.mk 0 4 = ⟨Utf8.size before, Utf8.size (before ++ lexeme)⟩ ∧
        lex lexeme =
          .ok [⟨.keyword .typeWord, ⟨0, Utf8.size lexeme⟩⟩, ⟨.eof, ⟨Utf8.size lexeme, Utf8.size lexeme⟩⟩] := by
  have hlex : lex ['t', 'y', 'p', 'e', '\u00a0'] = .ok [⟨.ident "type", ⟨0, 4⟩⟩, ⟨.eof, ⟨6, 6⟩⟩] := by
    have hscan : Lexer.scan 't' ['y', 'p', 'e', '\u00a0'] =
        ⟨.ok (.ident "type"), ['t', 'y', 'p', 'e'], ['\u00a0']⟩ := rfl
    have htoken : (Lexer.scan 't' ['y', 'p', 'e', '\u00a0']).outcome = .ok (.ident "type") := by rw [hscan]
    rw [lex, Lexer.lexFrom_of_ok (by decide) htoken, hscan, Lexer.lexFrom_skipped (by decide), Lexer.lexFrom_nil]
    rfl
  have htiles := lex_tiles ['t', 'y', 'p', 'e', '\u00a0']
  rw [hlex] at htiles
  obtain ⟨before, lexeme, after, hsource, hspan, halone, _⟩ := htiles.2.2 ⟨.ident "type", ⟨0, 4⟩⟩ (by simp) (by simp)
  exact ⟨hlex, before, lexeme, after, hsource, hspan, halone⟩

end SchemaWire
