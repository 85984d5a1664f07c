import SchemaWire.Text.Blank
import SchemaWire.Text.Numeral
import SchemaWire.Token
import SchemaWire.Token.Pattern

/-!
# From text to tokens

`scan` reads the one token that a text begins with, and always the longest one; `lex` reads a whole
source, passing over skipped characters between tokens, and adds the end-of-source token. Reading stops
at the first piece of text that is no token. Two tokens depend on the character right after them: a
hexadecimal literal may not run into a name (`scanNumber`), and a reserved word is one only where no
character outside ASCII follows (`word`).

Identifiers are read by their pattern. Whether a literal runs into one is asked of a function about single characters
instead, and `begins_identifier` and `continues_identifier` say that the two agree.

`scan_lexeme` says that a step only divides the text: the piece it read and what it left make up the text
again.
-/

namespace SchemaWire

/-- What is wrong with a piece of source text. -/
inductive LexError.Kind
  /-- It begins no token. -/
  | invalidToken
  /-- A block comment that is not closed. -/
  | unterminatedComment
  /-- A string that is not closed. -/
  | unterminatedString
  /-- A hexadecimal literal without digits, too large, or running into a name. -/
  | malformedHexLiteral
  deriving DecidableEq, Repr

/-- A piece of source text that is no token. -/
structure LexError where
  kind : LexError.Kind
  span : Span
  text : String
  deriving DecidableEq, Repr

/-- The wording of a lexical error. -/
def LexError.message (e : LexError) : String :=
  match e.kind with
  | .invalidToken => s!"unexpected token at {e.span.start} (token: {e.text})"
  | .unterminatedComment => s!"unterminated block comment starting at {e.span.start}"
  | .unterminatedString => s!"unterminated string literal starting at {e.span.start}"
  | .malformedHexLiteral => s!"malformed hex literal at {e.span.start} (token: {e.text})"

namespace Lexer

/-- Characters that separate tokens. Not every blank is among them, and U+180E and U+FEFF, which are no
blanks, are. -/
def isSkipped (c : Char) : Bool :=
  CharClass.separators.contains c

/-- Whether `c` is outside ASCII. -/
def isBeyondAscii (c : Char) : Bool :=
  0x7F < c.toNat

/-- Whether `c` may begin an identifier. -/
def isIdentifierStart (c : Char) : Bool :=
  c == '$' || c == '_' || c.isAlpha || c == '\\' ||
    (isBeyondAscii c && !(Text.isBlank c || c == '\u180E' || c == '\uFEFF'))

/-- Whether `c` may continue an identifier. -/
def isIdentifierPart (c : Char) : Bool :=
  isIdentifierStart c || c.isDigit

/-- Whether `c` ends a line comment. -/
def endsLineComment (c : Char) : Bool :=
  c == '\n' || c == '\r' || c == '\u2028' || c == '\u2029'

/-- The token of a reserved word. -/
def reserved? : String → Option Token
  | "namespace" => some (.keyword .namespaceWord)
  | "type" => some (.keyword .typeWord)
  | "alias" => some (.keyword .aliasWord)
  | "trait" => some (.keyword .traitWord)
  | "implements" => some (.keyword .implementsWord)
  | "true" => some (.boolean true)
  | "false" => some (.boolean false)
  | "null" => some .null
  | _ => none

/-- The token of a word before `rest`. A character outside ASCII directly after a word makes it an identifier
even if it is spelled like a reserved word, and even though the character is a separator. -/
def word (text : String) (rest : List Char) : Token :=
  if rest.head?.any isBeyondAscii then .ident text else (reserved? text).getD (.ident text)

/-- The text up to the first `*/`, and the text after that. -/
def splitComment? : List Char → Option (List Char × List Char)
  | [] => none
  | '*' :: '/' :: rest => some ([], rest)
  | c :: rest => (splitComment? rest).map fun (text, rest) => (c :: text, rest)

/-- One step of reading: the outcome, the piece of text it is about, and the text after that piece. -/
structure Step where
  outcome : Except LexError.Kind Token
  lexeme : List Char
  rest : List Char

/-- The integer of a literal, which has to fit 64 bits. -/
def integer (value : Nat) (orElse : LexError.Kind) : Except LexError.Kind Token :=
  if value < UInt64.size then .ok (.integer (UInt64.ofNat value)) else .error orElse

/-- A literal that begins with the digit `c`: hexadecimal after `0x`, a decimal fraction if a point and
another digit follow the digits, and an integer otherwise. -/
def scanNumber (c : Char) (cs : List Char) : Step :=
  match c, cs with
  | '0', 'x' :: cs =>
    let digits := cs.takeWhile Text.isHexDigit
    let rest := cs.dropWhile Text.isHexDigit
    let outcome :=
      if digits.isEmpty || rest.head?.any isIdentifierStart then .error .malformedHexLiteral
      else integer (Text.numeral 16 digits) .malformedHexLiteral
    ⟨outcome, '0' :: 'x' :: digits, rest⟩
  | c, cs =>
    let whole := c :: cs.takeWhile Char.isDigit
    match cs.dropWhile Char.isDigit with
    | '.' :: d :: rest =>
      if d.isDigit then
        let fraction := d :: rest.takeWhile Char.isDigit
        let value := Double.ofRatio false (Text.numeral 10 (whole ++ fraction)) (Nat.pow 10 fraction.length)
        ⟨.ok (.float value), whole ++ '.' :: fraction, rest.dropWhile Char.isDigit⟩
      else ⟨integer (Text.numeral 10 whole) .invalidToken, whole, '.' :: d :: rest⟩
    | rest => ⟨integer (Text.numeral 10 whole) .invalidToken, whole, rest⟩

/-- A string up to the next quote of the kind that opened it. Nothing inside it is escaped. -/
def scanString (quote : Char) (cs : List Char) : Step :=
  let text := cs.takeWhile (· ≠ quote)
  match cs.dropWhile (· ≠ quote) with
  | [] => ⟨.error .unterminatedString, quote :: cs, []⟩
  | closing :: rest => ⟨.ok (.string (String.ofList text)), quote :: text ++ [closing], rest⟩

/-- What a slash begins: a comment, or nothing. -/
def scanSlash : List Char → Step
  | '/' :: cs =>
    let text := cs.takeWhile (!endsLineComment ·)
    ⟨.ok (.comment (String.ofList text)), '/' :: '/' :: text, cs.dropWhile (!endsLineComment ·)⟩
  | '*' :: cs =>
    match splitComment? cs with
    | some (text, rest) =>
      ⟨.ok (.comment (String.ofList text)), '/' :: '*' :: text ++ ['*', '/'], rest⟩
    | none => ⟨.error .unterminatedComment, '/' :: '*' :: cs, []⟩
  | cs => ⟨.error .invalidToken, ['/'], cs⟩

/-- The marks of one character. -/
def singleMark? : Char → Option Mark
  | '\x7b' => some .leftBrace
  | '\x7d' => some .rightBrace
  | '<' => some .less
  | '>' => some .greater
  | '[' => some .leftBracket
  | ']' => some .rightBracket
  | ':' => some .colon
  | '.' => some .dot
  | '=' => some .equals
  | ';' => some .semicolon
  | ',' => some .comma
  | '?' => some .question
  | _ => none

/-- The mark that a text begins with, or the one character that begins no token. -/
def scanMark (c : Char) (cs : List Char) : Step :=
  match singleMark? c with
  | some mark => ⟨.ok (.mark mark), [c], cs⟩
  | none =>
    match c, cs with
    | '-', '>' :: rest => ⟨.ok (.mark .arrow), ['-', '>'], rest⟩
    | '-', '-' :: '-' :: rest => ⟨.ok (.mark .tripleDash), ['-', '-', '-'], rest⟩
    | '*', '/' :: rest => ⟨.ok (.mark .commentEnd), ['*', '/'], rest⟩
    | c, cs => ⟨.error .invalidToken, [c], cs⟩

/-- Reads the token at the head of the text `c :: cs`, which begins with no skipped character. -/
def scan (c : Char) (cs : List Char) : Step :=
  if c.isDigit then scanNumber c cs
  else if c = '"' ∨ c = '\'' then scanString c cs
  else if c = '/' then scanSlash cs
  else if WordPattern.identifier.begins c then
    let text := c :: cs.takeWhile WordPattern.identifier.continues
    let rest := cs.dropWhile WordPattern.identifier.continues
    ⟨.ok (word (String.ofList text) rest), text, rest⟩
  else scanMark c cs

/-! ## The pattern of identifiers and the functions about single characters -/

theorem isAlpha_iff {c : Char} :
    c.isAlpha = true ↔ 0x41 ≤ c.toNat ∧ c.toNat ≤ 0x5A ∨ 0x61 ≤ c.toNat ∧ c.toNat ≤ 0x7A := by
  unfold Char.isAlpha Char.isUpper Char.isLower
  simp only [Bool.or_eq_true, Bool.and_eq_true, decide_eq_true_eq]
  rfl

theorem isIdentifierStart_iff {c : Char} :
    isIdentifierStart c = true ↔ CharClass.nameStart.contains c = true ∨ CharClass.beyondAscii.contains c = true := by
  rw [CharClass.contains_nameStart_iff, CharClass.contains_beyondAscii_iff]
  cases hblank : Text.isBlank c <;>
    simp [isIdentifierStart, isBeyondAscii, hblank, isAlpha_iff, ← Char.toNat_inj]
  all_goals omega

/-- `isIdentifierStart` tells the characters that an identifier may begin with. -/
theorem begins_identifier (c : Char) : WordPattern.identifier.begins c = isIdentifierStart c := by
  rw [Bool.eq_iff_iff, isIdentifierStart_iff]
  simp [WordPattern.begins, WordPattern.identifier]

/-- `isIdentifierPart` tells the characters that an identifier may go on with. -/
theorem continues_identifier : WordPattern.identifier.continues = isIdentifierPart := by
  funext c
  rw [Bool.eq_iff_iff, isIdentifierPart, Bool.or_eq_true, isIdentifierStart_iff, Text.isDigit_iff_range]
  simp only [WordPattern.continues, WordPattern.identifier, List.any_cons, List.any_nil, Bool.or_false, Bool.or_eq_true,
    CharClass.contains_namePart_iff]
  exact or_right_comm

/-- `scan` in terms of the functions about single characters. -/
theorem scan_eq_ite (c : Char) (cs : List Char) :
    scan c cs =
      if c.isDigit then scanNumber c cs
      else if c = '"' ∨ c = '\'' then scanString c cs
      else if c = '/' then scanSlash cs
      else if isIdentifierStart c then
        ⟨.ok (word (String.ofList (c :: cs.takeWhile isIdentifierPart)) (cs.dropWhile isIdentifierPart)),
          c :: cs.takeWhile isIdentifierPart, cs.dropWhile isIdentifierPart⟩
      else scanMark c cs := by
  rw [scan, begins_identifier, continues_identifier]

/-! ## A step divides the text -/

theorem append_of_splitComment? {cs text rest : List Char} (h : splitComment? cs = some (text, rest)) :
    text ++ '*' :: '/' :: rest = cs := by
  fun_induction splitComment? cs generalizing text with
  | case1 => simp at h
  | case2 rest' => simp_all
  | case3 c cs _ ih =>
    obtain ⟨⟨t, r⟩, hs, he⟩ := Option.map_eq_some_iff.mp h
    simp only [Prod.mk.injEq] at he
    obtain ⟨rfl, rfl⟩ := he
    simp [ih hs]

theorem scanNumber_lexeme (c : Char) (cs : List Char) :
    (scanNumber c cs).lexeme ++ (scanNumber c cs).rest = c :: cs ∧ (scanNumber c cs).lexeme ≠ [] := by
  fun_cases scanNumber c cs with
  | case1 cs digits rest => simp [digits, rest, List.takeWhile_append_dropWhile]
  | case2 c cs _ whole d rest hd hdigit fraction value =>
    refine ⟨?_, by simp [whole]⟩
    simp only [whole, fraction, List.append_assoc, List.cons_append, List.takeWhile_append_dropWhile]
    rw [← hd, List.takeWhile_append_dropWhile]
  | case3 c cs _ whole d rest hd hdigit =>
    refine ⟨?_, by simp [whole]⟩
    simp only [whole, List.cons_append]
    rw [← hd, List.takeWhile_append_dropWhile]
  | case4 c cs _ whole _ =>
    refine ⟨?_, by simp [whole]⟩
    simp only [whole, List.cons_append]
    rw [List.takeWhile_append_dropWhile]

theorem scanString_lexeme (q : Char) (cs : List Char) :
    (scanString q cs).lexeme ++ (scanString q cs).rest = q :: cs ∧ (scanString q cs).lexeme ≠ [] := by
  have hsplit := List.takeWhile_append_dropWhile (p := (· ≠ q)) (l := cs)
  unfold scanString
  split
  · simp
  · rename_i closing rest hd
    rw [hd] at hsplit
    exact ⟨by simpa using hsplit, by simp⟩

theorem scanSlash_lexeme (cs : List Char) :
    (scanSlash cs).lexeme ++ (scanSlash cs).rest = '/' :: cs ∧ (scanSlash cs).lexeme ≠ [] := by
  unfold scanSlash
  split
  · simp [List.takeWhile_append_dropWhile]
  · split
    · rename_i text rest h
      simp [append_of_splitComment? h]
    · simp
  · simp

theorem scanMark_lexeme (c : Char) (cs : List Char) :
    (scanMark c cs).lexeme ++ (scanMark c cs).rest = c :: cs ∧ (scanMark c cs).lexeme ≠ [] := by
  fun_cases scanMark c cs <;> simp

/-- A step divides the text into the piece it read, which is not empty, and the rest. -/
theorem scan_lexeme (c : Char) (cs : List Char) :
    (scan c cs).lexeme ++ (scan c cs).rest = c :: cs ∧ (scan c cs).lexeme ≠ [] := by
  rw [scan_eq_ite]
  split
  · exact scanNumber_lexeme c cs
  split
  · exact scanString_lexeme c cs
  split
  · rename_i h
    rw [h]
    exact scanSlash_lexeme cs
  split
  · simp [List.takeWhile_append_dropWhile]
  · exact scanMark_lexeme c cs

theorem length_rest_scan_lt (c : Char) (cs : List Char) : (scan c cs).rest.length < (c :: cs).length := by
  obtain ⟨happend, hne⟩ := scan_lexeme c cs
  have hlength := congrArg List.length happend
  rw [List.length_append] at hlength
  have := List.length_pos_iff.mpr hne
  omega

/-- The tokens of the text that stands at byte offset `pos` of the source. -/
def lexFrom (pos : Nat) : List Char → Except LexError (List Located)
  | [] => .ok [⟨.eof, ⟨pos, pos⟩⟩]
  | c :: cs =>
    if isSkipped c then lexFrom (pos + c.utf8Size) cs
    else
      let step := scan c cs
      let span : Span := ⟨pos, pos + Utf8.size step.lexeme⟩
      match step.outcome with
      | .error kind => .error ⟨kind, span, String.ofList step.lexeme⟩
      | .ok token => (lexFrom span.stop step.rest).map (⟨token, span⟩ :: ·)
termination_by cs => cs.length
decreasing_by
  · simp
  · exact length_rest_scan_lt c cs

end Lexer

/-- The tokens of a source, with the end-of-source token last. -/
def lex (source : List Char) : Except LexError (List Located) :=
  Lexer.lexFrom 0 source

end SchemaWire
