import Mathlib.Data.List.Forall2
import SchemaWire.Proofs.Numerals
import SchemaWire.Proofs.Tiling

/-!
# Tokens written down and read back

A token is read back from the text that spells it, where nothing or a space follows (`Lexer.readsBack_of_spells`). So the
tokens of a list can all be written, with a space between one and the next, and are read back from what was written
(`lex_of_spells`).

Neither numbers with a fraction nor the end of the source are written, and identifiers only when their text can be read
as one: the first of its characters may begin an identifier.
-/

namespace SchemaWire

/-- The text begins with a character that may begin an identifier, and goes on with such that may continue it. -/
def Lexer.IsIdentifier (text : List Char) : Prop :=
  ∃ c cs, text = c :: cs ∧ isIdentifierStart c = true ∧ ∀ d ∈ cs, isIdentifierPart d = true

namespace Token

/-- Tokens that a text can spell. -/
def IsSpellable : Token → Prop
  | .ident text => Lexer.IsIdentifier text.toList ∧ Lexer.reserved? text = none
  | .string text => '"' ∉ text.toList ∨ '\'' ∉ text.toList
  | .comment text => ¬['*', '/'] <:+: text.toList
  | .float _ => False
  | .eof => False
  | _ => True

/-- The texts that spell a token: words and marks by themselves, integers by decimal digits, strings in a quote that
they lack, and comments as block comments. -/
inductive Spells : List Char → Token → Prop
  | keyword (word : Keyword) : Spells word.text.toList (.keyword word)
  | true : Spells "true".toList (.boolean Bool.true)
  | false : Spells "false".toList (.boolean Bool.false)
  | null : Spells "null".toList .null
  | integer {digits : List Char} {value : UInt64} (hne : digits ≠ []) (hdigits : Text.Writes 10 digits value.toNat) :
    Spells digits (.integer value)
  | string {quote : Char} {text : String} (hquote : quote = '"' ∨ quote = '\'') (hlacks : quote ∉ text.toList) :
    Spells (quote :: (text.toList ++ [quote])) (.string text)
  | ident (text : String) : Spells text.toList (.ident text)
  | comment (text : String) : Spells ('/' :: '*' :: (text.toList ++ ['*', '/'])) (.comment text)
  | mark (mark : Mark) : Spells mark.text.toList (.mark mark)

/-- A text spells every token that one can spell. -/
theorem exists_spells {token : Token} (h : token.IsSpellable) : ∃ text, Spells text token := by
  cases token with
  | keyword word => exact ⟨_, .keyword word⟩
  | boolean value =>
    cases value with
    | true => exact ⟨_, .true⟩
    | false => exact ⟨_, .false⟩
  | null => exact ⟨_, .null⟩
  | integer value => exact ⟨_, .integer (Nat.toDigits_ne_nil) (Text.writes_toDigits (by decide) (by decide) value.toNat)⟩
  | float => exact h.elim
  | string text =>
    rcases h with h | h
    · exact ⟨_, .string (.inl rfl) h⟩
    · exact ⟨_, .string (.inr rfl) h⟩
  | ident text => exact ⟨_, .ident text⟩
  | comment text => exact ⟨_, .comment text⟩
  | mark m => exact ⟨_, .mark m⟩
  | eof => exact h.elim

end Token

namespace Lexer

/-! ## One token -/

/-- Nothing follows, or a space does. -/
def IsParted (rest : List Char) : Prop :=
  ∀ c, rest.head? = some c → c = ' '

/-- The token is read back from the text, wherever nothing or a space follows it. -/
def ReadsBack (text : List Char) (token : Token) : Prop :=
  ∃ c cs, text = c :: cs ∧ isSkipped c = false ∧
    ∀ rest, IsParted rest → scan c (cs ++ rest) = ⟨.ok token, text, rest⟩

/-- A run of characters of a class ends before a space outside it. -/
theorem span_parted {p : Char → Bool} {cs rest : List Char} (hspace : p ' ' = false) (hcs : ∀ c ∈ cs, p c = true)
    (hrest : IsParted rest) : (cs ++ rest).takeWhile p = cs ∧ (cs ++ rest).dropWhile p = rest := by
  have hstop : rest.takeWhile p = [] ∧ rest.dropWhile p = rest := by
    cases rest with
    | nil => exact ⟨rfl, rfl⟩
    | cons c rest =>
      obtain rfl := hrest c rfl
      simp [hspace]
  rw [List.takeWhile_append_of_pos hcs, List.dropWhile_append_of_pos hcs, hstop.1, hstop.2, List.append_nil]
  exact ⟨rfl, rfl⟩

/-! ### Words -/

theorem isDigit_eq_false_of_start {c : Char} (h : isIdentifierStart c = true) : c.isDigit = false := by
  rw [isIdentifierStart_iff, CharClass.contains_nameStart_iff, CharClass.contains_beyondAscii_iff] at h
  rw [Bool.eq_false_iff]
  intro hdigit
  have hrange : 48 ≤ c.toNat ∧ c.toNat ≤ 57 := Text.isDigit_iff_range.mp hdigit
  omega

theorem isSkipped_eq_false_of_start {c : Char} (h : isIdentifierStart c = true) : isSkipped c = false := by
  rw [isIdentifierStart_iff, CharClass.contains_nameStart_iff, CharClass.contains_beyondAscii_iff,
    Text.isBlank_eq_false_iff] at h
  rw [Bool.eq_false_iff]
  intro hskip
  rw [isSkipped, CharClass.contains_separators_iff] at hskip
  omega

theorem scan_of_start {c : Char} (h : isIdentifierStart c = true) (cs : List Char) :
    scan c cs = ⟨.ok (word (String.ofList (c :: cs.takeWhile isIdentifierPart)) (cs.dropWhile isIdentifierPart)),
      c :: cs.takeWhile isIdentifierPart, cs.dropWhile isIdentifierPart⟩ := by
  have hquote : ¬(c = '"' ∨ c = '\'') := by
    rintro (rfl | rfl) <;> exact absurd h (by decide)
  have hslash : c ≠ '/' := by
    rintro rfl
    exact absurd h (by decide)
  rw [scan_eq_ite, if_neg (by simp [isDigit_eq_false_of_start h]), if_neg hquote, if_neg hslash, if_pos h]

theorem word_parted (text : String) {rest : List Char} (h : IsParted rest) :
    word text rest = (reserved? text).getD (.ident text) := by
  have hascii : rest.head?.any isBeyondAscii = false := by
    cases hhead : rest.head? with
    | none => rfl
    | some c =>
      rw [h c hhead]
      rfl
  rw [word, hascii]
  exact if_neg Bool.false_ne_true

theorem readsBack_word {text : String} (h : IsIdentifier text.toList) :
    ReadsBack text.toList ((reserved? text).getD (.ident text)) := by
  obtain ⟨c, cs, htext, hstart, hcs⟩ := h
  refine ⟨c, cs, htext, isSkipped_eq_false_of_start hstart, fun rest hrest => ?_⟩
  obtain ⟨htake, hdrop⟩ := span_parted rfl hcs hrest
  rw [scan_of_start hstart, htake, hdrop, word_parted _ hrest, ← htext, String.ofList_toList]

theorem isIdentifier_of_reserved? {text : String} {token : Token} (h : reserved? text = some token) :
    IsIdentifier text.toList := by
  unfold reserved? at h
  split at h <;> cases h <;> exact ⟨_, _, String.toList_ofList, rfl, List.all_eq_true.mp rfl⟩

theorem readsBack_of_reserved? {text : String} {token : Token} (h : reserved? text = some token) :
    ReadsBack text.toList token := by
  have hword := readsBack_word (isIdentifier_of_reserved? h)
  rwa [h, Option.getD_some] at hword

/-! ### Literals -/

theorem readsBack_integer {digits : List Char} {value : UInt64} (hne : digits ≠ [])
    (hdigits : Text.Writes 10 digits value.toNat) : ReadsBack digits (.integer value) := by
  obtain ⟨hall, hvalue⟩ := Text.writes_iff.mp hdigits
  have hdigit : ∀ c ∈ digits, c.isDigit = true := fun c hc => Text.isDigit_iff.mpr (hall c hc)
  obtain ⟨c, cs, rfl⟩ := List.exists_cons_of_ne_nil hne
  obtain ⟨hc, hcs⟩ := List.forall_mem_cons.mp hdigit
  refine ⟨c, cs, rfl, ?_, fun rest hrest => ?_⟩
  · have hrange : 48 ≤ c.toNat ∧ c.toNat ≤ 57 := Text.isDigit_iff_range.mp hc
    rw [Bool.eq_false_iff]
    intro hskip
    rw [isSkipped, CharClass.contains_separators_iff] at hskip
    omega
  · obtain ⟨htake, hdrop⟩ := span_parted (p := Char.isDigit) rfl hcs hrest
    rw [scan_eq_ite, if_pos hc, scanNumber_of_whole, htake, hdrop, integer, ← hvalue, if_pos value.toNat_lt,
      UInt64.ofNat_toNat]
    · intro more _ hmore
      -- neither a digit nor a space is the mark of a hexadecimal literal
      cases cs with
      | nil => exact absurd (hrest 'x' (by rw [← List.nil_append rest, hmore]; rfl)) (by decide)
      | cons d cs =>
        obtain ⟨rfl, -⟩ := List.cons.inj hmore
        exact absurd (hcs 'x' List.mem_cons_self) (by decide)
    · intro d more hmore
      rw [hdrop] at hmore
      exact absurd (hrest '.' (by rw [hmore]; rfl)) (by decide)

theorem readsBack_string {quote : Char} {text : String} (hquote : quote = '"' ∨ quote = '\'')
    (hlacks : quote ∉ text.toList) : ReadsBack (quote :: (text.toList ++ [quote])) (.string text) := by
  have hdigit : quote.isDigit = false := by rcases hquote with rfl | rfl <;> decide
  have hinside : ∀ c ∈ text.toList, decide (c ≠ quote) = true :=
    fun c hc => decide_eq_true fun e => hlacks (e ▸ hc)
  refine ⟨quote, text.toList ++ [quote], rfl, ?_, fun rest _ => ?_⟩
  · rcases hquote with rfl | rfl <;> decide
  · rw [scan_eq_ite, if_neg (by simp [hdigit]), if_pos hquote, scanString, List.append_assoc, List.singleton_append,
      List.takeWhile_append_of_pos hinside, List.dropWhile_append_of_pos hinside]
    simp

/-- A text that lacks the closing of a comment ends at the first one behind it. -/
theorem splitComment?_of_lacks {text : List Char} (h : ¬['*', '/'] <:+: text) (rest : List Char) :
    splitComment? (text ++ '*' :: '/' :: rest) = some (text, rest) := by
  induction text with
  | nil => rfl
  | cons c cs ih =>
    have hopen : ∀ more, c = '*' → cs ++ '*' :: '/' :: rest = '/' :: more → False := by
      rintro more rfl hmore
      cases cs with
      | nil => simp at hmore
      | cons d cs =>
        obtain ⟨rfl, -⟩ := List.cons.inj hmore
        exact h ⟨[], cs, rfl⟩
    rw [List.cons_append, splitComment?]
    · rw [ih fun hwithin => h (hwithin.trans (List.suffix_cons c cs).isInfix)]
      rfl
    · exact hopen

theorem readsBack_comment {text : String} (h : ¬['*', '/'] <:+: text.toList) :
    ReadsBack ('/' :: '*' :: (text.toList ++ ['*', '/'])) (.comment text) := by
  refine ⟨'/', '*' :: (text.toList ++ ['*', '/']), rfl, by decide, fun rest _ => ?_⟩
  rw [scan_eq_ite, if_neg (by decide), if_neg (by decide), if_pos rfl, List.cons_append, List.append_assoc,
    List.cons_append, List.singleton_append, scanSlash, splitComment?_of_lacks h]
  simp

/-! ### All tokens -/

theorem readsBack_mark (mark : Mark) : ReadsBack mark.text.toList (.mark mark) := by
  cases mark <;> exact ⟨_, _, rfl, by decide, fun rest _ => rfl⟩

theorem readsBack_of_spells {token : Token} {text : List Char} (h : token.IsSpellable) (hspells : token.Spells text) :
    ReadsBack text token := by
  cases hspells with
  | keyword word => exact readsBack_of_reserved? (by cases word <;> rfl)
  | true => exact readsBack_of_reserved? rfl
  | false => exact readsBack_of_reserved? rfl
  | null => exact readsBack_of_reserved? rfl
  | integer hne hdigits => exact readsBack_integer hne hdigits
  | string hquote hlacks => exact readsBack_string hquote hlacks
  | ident text =>
    have hword := readsBack_word h.1
    rwa [h.2, Option.getD_none] at hword
  | comment text => exact readsBack_comment h
  | mark mark => exact readsBack_mark mark

/-! ## Lists of tokens -/

/-- What follows the first of the texts when they are written with a space between one and the next. -/
theorem intercalate_cons (text : List Char) (texts : List (List Char)) :
    ∃ rest, [' '].intercalate (text :: texts) = text ++ rest ∧
      (texts = [] ∧ rest = [] ∨ rest = ' ' :: [' '].intercalate texts) := by
  cases texts with
  | nil => exact ⟨[], by simp, .inl ⟨rfl, rfl⟩⟩
  | cons next texts => exact ⟨' ' :: [' '].intercalate (next :: texts), by simp [List.intercalate], .inr rfl⟩

theorem exists_lexFrom_of_readsBack {tokens : List Token} {texts : List (List Char)}
    (hreads : List.Forall₂ ReadsBack texts tokens) (pos : Nat) :
    ∃ located, lexFrom pos ([' '].intercalate texts) = .ok located ∧
      located.map Located.token = tokens ++ [.eof] := by
  induction hreads generalizing pos with
  | nil => exact ⟨[⟨.eof, ⟨pos, pos⟩⟩], by simp [lexFrom_nil], rfl⟩
  | @cons text token texts tokens hread _ ih =>
    obtain ⟨c, cs, rfl, hskip, hscan⟩ := hread
    obtain ⟨rest, hwritten, hrest⟩ := intercalate_cons (c :: cs) texts
    have hparted : IsParted rest := by
      intro d hd
      rcases hrest with ⟨-, rfl⟩ | rfl
      · cases hd
      · exact (Option.some.inj hd).symm
    have hstep := hscan rest hparted
    have htoken : (scan c (cs ++ rest)).outcome = .ok token := by rw [hstep]
    -- the space is skipped, and what follows it is read at its place
    obtain ⟨located, hmore, hmap⟩ : ∃ located, lexFrom (pos + Utf8.size (c :: cs)) rest = .ok located ∧
        located.map Located.token = tokens ++ [.eof] := by
      rcases hrest with ⟨rfl, rfl⟩ | rfl
      · simpa using ih (pos + Utf8.size (c :: cs))
      · rw [lexFrom_skipped (by decide)]
        exact ih _
    refine ⟨⟨token, ⟨pos, pos + Utf8.size (c :: cs)⟩⟩ :: located, ?_, by rw [List.map_cons, hmap]; rfl⟩
    rw [hwritten, List.cons_append, lexFrom_of_ok (by simp [hskip]) htoken, hstep]
    simp only [hmore, Except.map]

end Lexer

/-- Tokens that can be spelled are read back from what spells them, with a space between one and the next and the end of
the source behind them. -/
theorem lex_of_spells {tokens : List Token} (h : ∀ t ∈ tokens, t.IsSpellable) :
    (∃ texts, List.Forall₂ Token.Spells texts tokens) ∧
      ∀ texts, List.Forall₂ Token.Spells texts tokens → ∃ located, lex ([' '].intercalate texts) = .ok located ∧
        located.map Located.token = tokens ++ [.eof] := by
  constructor
  · induction tokens with
    | nil => exact ⟨[], .nil⟩
    | cons token tokens ih =>
      obtain ⟨htoken, hrest⟩ := List.forall_mem_cons.mp h
      obtain ⟨text, htext⟩ := Token.exists_spells htoken
      obtain ⟨texts, htexts⟩ := ih hrest
      exact ⟨text :: texts, .cons htext htexts⟩
  · intro texts hspells
    have hreads : List.Forall₂ Lexer.ReadsBack texts tokens := by
      induction hspells with
      | nil => exact .nil
      | cons htext _ ih =>
        obtain ⟨htoken, hrest⟩ := List.forall_mem_cons.mp h
        exact .cons (Lexer.readsBack_of_spells htoken htext) (ih hrest)
    exact Lexer.exists_lexFrom_of_readsBack hreads 0

/-- The case of a comment that ends in a star, a string that holds the opening of one, the largest integer, and marks
that begin alike. -/
theorem lex_of_spells_comment :
    (∀ t ∈ [Token.comment "/**", .string "it's /*", .integer 18446744073709551615, .mark .tripleDash, .mark .arrow],
        t.IsSpellable) ∧
      ∃ located, lex "/*/***/ \"it's /*\" 18446744073709551615 --- ->".toList = .ok located ∧
        located.map Located.token = [.comment "/**", .string "it's /*", .integer 18446744073709551615,
          .mark .tripleDash, .mark .arrow, .eof] := by
  have hcomment : ¬['*', '/'] <:+: "/**".toList := by decide
  have hstring : '"' ∉ "it's /*".toList := by decide
  have hspellable : ∀ t ∈ [Token.comment "/**", .string "it's /*", .integer 18446744073709551615, .mark .tripleDash,
      .mark .arrow], t.IsSpellable := by
    simp only [List.forall_mem_cons]
    exact ⟨hcomment, .inl hstring, trivial, trivial, trivial, List.forall_mem_nil _⟩
  have hinteger : Token.Spells "18446744073709551615".toList (.integer 18446744073709551615) :=
    .integer (by decide) (Text.decimal?_eq_some_iff.mp (by decide)).2
  have hspells := List.Forall₂.cons (.comment "/**") <| .cons (.string (.inl rfl) hstring) <| .cons hinteger <|
    .cons (.mark .tripleDash) <| .cons (.mark .arrow) .nil
  exact ⟨hspellable, (lex_of_spells hspellable).2 _ hspells⟩

/-- An identifier that begins with a digit is a text of characters that identifiers go on with and no reserved word, but
what spells it is read as a number. -/
theorem lex_of_spells_digit :
    "1" ≠ "" ∧ (∀ c ∈ "1".toList, Lexer.isIdentifierPart c = true) ∧ Lexer.reserved? "1" = none ∧
      List.Forall₂ Token.Spells ["1".toList] [.ident "1"] ∧
      lex ([' '].intercalate ["1".toList]) = .ok [⟨.integer 1, ⟨0, 1⟩⟩, ⟨.eof, ⟨1, 1⟩⟩] := by
  refine ⟨by decide, List.all_eq_true.mp rfl, rfl, .cons (.ident "1") .nil, ?_⟩
  have hwritten : [' '].intercalate ["1".toList] = ['1'] := rfl
  have hscan : Lexer.scan '1' [] = ⟨.ok (.integer 1), ['1'], []⟩ := rfl
  have htoken : (Lexer.scan '1' []).outcome = .ok (.integer 1) := by rw [hscan]
  rw [hwritten, lex, Lexer.lexFrom_of_ok (by decide) htoken, hscan, Lexer.lexFrom_nil]
  rfl

end SchemaWire
