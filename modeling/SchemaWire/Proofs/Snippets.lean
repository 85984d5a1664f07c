import SchemaWire.Proofs.KeywordNames
import SchemaWire.Proofs.Nesting

/-!
# Items read alone

An item depends on nothing outside of its place: the text there is a source of its own, whose tree has this item alone,
as many bytes earlier as came before it (`ofSource_snippet`). Neither the lexer nor the parser looks past the last token
of an item, with one exception: what is spelled `true`, `false` or `null` is an identifier in front of a character outside
ASCII, and a literal at the end of a source.
-/

namespace SchemaWire

/-! ## A text that is cut off -/

/-- A token alone is what it was, or a reserved word that was an identifier: a keyword, or a literal. -/
theorem Token.alone_cases (t : Token) :
    t.alone = t ∨ (∃ word : Keyword, t = .ident word.text ∧ t.alone = .keyword word) ∨
      ∃ text ∈ ["true", "false", "null"], t = .ident text := by
  cases t with
  | ident text =>
    cases h : Lexer.reserved? text with
    | none => exact .inl (by simp [Token.alone, h])
    | some token =>
      have halone : (Token.ident text).alone = token := by simp [Token.alone, h]
      rw [halone]
      unfold Lexer.reserved? at h
      split at h <;> simp at h <;> subst h
      · exact .inr (.inl ⟨.namespaceWord, rfl, rfl⟩)
      · exact .inr (.inl ⟨.typeWord, rfl, rfl⟩)
      · exact .inr (.inl ⟨.aliasWord, rfl, rfl⟩)
      · exact .inr (.inl ⟨.traitWord, rfl, rfl⟩)
      · exact .inr (.inl ⟨.implementsWord, rfl, rfl⟩)
      · exact .inr (.inr ⟨"true", by simp, rfl⟩)
      · exact .inr (.inr ⟨"false", by simp, rfl⟩)
      · exact .inr (.inr ⟨"null", by simp, rfl⟩)
  | _ => exact .inl rfl

namespace Lexer

variable {pos : Nat} {text : List Char} {init more : List Located} {t : Located}

/-- A token is the same where the text is cut off further behind it. -/
theorem scan_keeps {c d : Char} {cs pre post lexeme : List Char} {token : Token}
    (h : scan c cs = ⟨.ok token, lexeme, d :: pre ++ post⟩) :
    ∃ tail, lexeme = c :: tail ∧ scan c (tail ++ d :: pre) = ⟨.ok token, lexeme, d :: pre⟩ := by
  rcases scan_cases c with ⟨-, hword⟩ | ⟨hcuts, -⟩
  · rw [hword] at h
    simp only [Step.mk.injEq, Except.ok.injEq] at h
    obtain ⟨rfl, rfl, hpre⟩ := h
    obtain ⟨htake, hdrop⟩ := takeWhile_cut hpre
    refine ⟨cs.takeWhile isIdentifierPart, rfl, ?_⟩
    rw [hword, htake, hdrop, hpre]
    rfl
  · exact hcuts h

theorem lexFrom_nil_ne (hne : t.token ≠ .eof) : lexFrom pos [] ≠ .ok (init ++ t :: more) := by
  intro h
  rw [lexFrom_nil] at h
  have hmem : t ∈ [(⟨.eof, ⟨pos, pos⟩⟩ : Located)] := by
    rw [Except.ok.inj h]
    simp
  rw [List.mem_singleton.mp hmem] at hne
  exact hne rfl

/-- What is read from some token on is read off the text that begins where it begins. -/
theorem lexFrom_from (h : lexFrom pos text = .ok (init ++ t :: more)) (hne : t.token ≠ .eof) :
    ∃ before after, text = before ++ after ∧ t.span.start = pos + Utf8.size before ∧
      lexFrom t.span.start after = .ok (t :: more) := by
  induction pos, text using lexFrom.induct generalizing init with
  | case1 pos => exact absurd h (lexFrom_nil_ne hne)
  | case2 pos c cs hskip ih =>
    rw [lexFrom_skipped hskip] at h
    obtain ⟨before, after, rfl, hstart, hread⟩ := ih h
    exact ⟨c :: before, after, rfl, by rw [hstart, Utf8.size_cons, Nat.add_assoc], hread⟩
  | case3 pos c cs hskip step kind =>
    rename_i hkind
    rw [lexFrom_of_error hskip hkind] at h
    cases h
  | case4 pos c cs hskip step span token =>
    rename_i htoken ih
    have hread := h
    rw [lexFrom_of_ok hskip htoken] at h
    obtain ⟨tokens, htokens, heq⟩ := Except.map_eq_ok_iff.mp h
    cases init with
    | nil =>
      cases heq
      exact ⟨[], c :: cs, rfl, rfl, hread⟩
    | cons first init =>
      obtain ⟨-, rfl⟩ := List.cons.inj heq
      obtain ⟨before, after, hrest, hstart, hread⟩ := ih htokens
      refine ⟨(scan c cs).lexeme ++ before, after, ?_, ?_, hread⟩
      · rw [← (scan_lexeme c cs).1, List.append_assoc]
        exact congrArg _ hrest
      · rw [hstart, Utf8.size_append, ← Nat.add_assoc]

/-- What is read up to some token is read off the text that ends where it ends. Only this token may change. -/
theorem lexFrom_upTo (h : lexFrom pos text = .ok (init ++ t :: more)) (hne : t.token ≠ .eof) :
    ∃ front after, text = front ++ after ∧ t.span.stop = pos + Utf8.size front ∧
      lexFrom pos front = .ok (init ++ [⟨t.token.alone, t.span⟩, ⟨.eof, ⟨t.span.stop, t.span.stop⟩⟩]) ∧
      (t.token.alone ≠ t.token → after.head?.any isBeyondAscii = true) := by
  induction pos, text using lexFrom.induct generalizing init with
  | case1 pos => exact absurd h (lexFrom_nil_ne hne)
  | case2 pos c cs hskip ih =>
    rw [lexFrom_skipped hskip] at h
    obtain ⟨front, after, rfl, hstop, hread, halone⟩ := ih h
    refine ⟨c :: front, after, rfl, by rw [hstop, Utf8.size_cons, Nat.add_assoc], ?_, halone⟩
    rw [lexFrom_skipped hskip, hread]
  | case3 pos c cs hskip step kind =>
    rename_i hkind
    rw [lexFrom_of_error hskip hkind] at h
    cases h
  | case4 pos c cs hskip step span token =>
    rename_i htoken ih
    rw [lexFrom_of_ok hskip htoken] at h
    obtain ⟨tokens, htokens, heq⟩ := Except.map_eq_ok_iff.mp h
    have hscan := scan_eq htoken
    cases init with
    | nil =>
      cases heq
      have hall : scan c cs = ⟨.ok token, (scan c cs).lexeme, [] ++ (scan c cs).rest⟩ := hscan
      obtain ⟨tail, token', hlexeme, hcut, hlast⟩ := scan_cut hall
      obtain rfl := hlast rfl
      rw [List.append_nil] at hcut
      refine ⟨c :: tail, (scan c cs).rest, ?_, by rw [hlexeme], ?_, (alone_of_scan hscan).2⟩
      · rw [← hlexeme, (scan_lexeme c cs).1]
      · rw [lexFrom_of_ok hskip (by rw [hcut]), hcut]
        simp only [lexFrom_nil, hlexeme]
        rfl
    | cons first init =>
      obtain ⟨rfl, rfl⟩ := List.cons.inj heq
      obtain ⟨front, after, hrest, hstop, hread, halone⟩ := ih htokens
      cases front with
      | nil =>
        rw [lexFrom_nil] at hread
        have hlength := congrArg List.length (Except.ok.inj hread)
        simp at hlength
      | cons d front =>
        -- the next token begins behind this one in the shorter text as well
        have hall : scan c cs = ⟨.ok token, (scan c cs).lexeme, d :: front ++ after⟩ := hrest ▸ hscan
        obtain ⟨tail, hlexeme, hcut⟩ := scan_keeps hall
        refine ⟨c :: tail ++ d :: front, after, ?_, ?_, ?_, halone⟩
        · rw [← hlexeme, List.append_assoc, ← (scan_lexeme c cs).1]
          exact congrArg _ hrest
        · rw [hstop, Utf8.size_append, ← hlexeme, ← Nat.add_assoc]
        · rw [List.cons_append, lexFrom_of_ok hskip (by rw [hcut]), hcut]
          simp only
          rw [hread]
          rfl

/-- Reading has no memory, so a text is read alone as it is read in a source, but earlier. -/
theorem lex_of_lexFrom {tokens : List Located} (h : lexFrom pos text = .ok tokens) :
    lex text = .ok (tokens.map (Located.relocated (· - pos))) := by
  have hshifted := lexFrom_add 0 pos text
  rw [Nat.zero_add, h] at hshifted
  obtain ⟨alone, hmoved, heq⟩ := Except.map_eq_ok_iff.mp (Except.mapError_eq_ok_iff.mp hshifted.symm)
  subst heq
  have hback : Located.relocated (· - pos) ∘ Located.relocated (· + pos) = id := by
    funext t
    simp [Located.relocated, Span.relocated]
  rw [List.map_map, hback, List.map_id]
  exact hmoved

end Lexer

/-! ## The text of some tokens -/

open SchemaWire.Parser (Covers)

/-- The text from the first of some tokens to the last is read as these tokens, but for the last of them. -/
theorem exists_snippet {source : List Char} {gap init more : List Located} {t : Located} {span : Span}
    (h : lex source = .ok (gap ++ (init ++ [t]) ++ more)) (hne : ∀ u ∈ init ++ [t], u.token ≠ .eof)
    (hcovers : Covers (init ++ [t]) span) :
    ∃ before text after, source = before ++ text ++ after ∧
      span = ⟨Utf8.size before, Utf8.size (before ++ text)⟩ ∧
      lex text = .ok ((init ++ [Located.mk t.token.alone t.span]).map (Located.relocated (· - span.start)) ++
        [⟨.eof, ⟨Utf8.size text, Utf8.size text⟩⟩]) ∧
      (t.token.alone ≠ t.token → after.head?.any Lexer.isBeyondAscii = true) := by
  obtain ⟨first, rest, hfirst⟩ : ∃ first rest, init ++ [t] = first :: rest :=
    List.exists_cons_of_ne_nil (by simp)
  have hstart : first.span.start = span.start := by
    have := hcovers.start
    rw [hfirst] at this
    exact Option.some.inj this
  have hstop : t.span.stop = span.stop := by simpa using hcovers.stop 0
  have hread : lex source = .ok (gap ++ first :: (rest ++ more)) := by
    rw [h, hfirst]
    simp
  obtain ⟨before, behind, rfl, hbefore, hread⟩ :=
    Lexer.lexFrom_from hread (hne first (by rw [hfirst]; exact List.mem_cons_self))
  rw [Nat.zero_add, hstart] at hbefore
  rw [hstart, ← List.cons_append, ← hfirst, List.append_assoc] at hread
  obtain ⟨text, after, rfl, hsize, hread, halone⟩ := Lexer.lexFrom_upTo hread (hne t (by simp))
  rw [hstop] at hsize
  refine ⟨before, text, after, by simp, ?_, ?_, halone⟩
  · rw [Utf8.size_append, ← hbefore, ← hsize]
  · rw [Lexer.lex_of_lexFrom hread, hstop, hsize]
    simp [Located.relocated, Span.relocated]

/-! ## The tokens of an item -/

theorem Item.mem_flatten_cons {item first : Item} {more : List Item} (h : item ∈ flatten (first :: more)) :
    item = first ∨ (∃ name body span, first = .namespaceBlock name body span ∧ item ∈ flatten body) ∨
      item ∈ flatten more := by
  cases first with
  | namespaceBlock name body span =>
    rw [flatten, List.mem_append, List.mem_cons] at h
    rcases h with (h | h) | h
    · exact .inl h
    · exact .inr (.inl ⟨name, body, span, rfl, h⟩)
    · exact .inr (.inr h)
  | _ =>
    rw [flatten] at h
    · exact (List.mem_cons.mp h).imp_right .inr
    · simp

theorem Item.span_outline (item : Item) : item.outline.span = item.span := by
  cases item <;> rfl

namespace Parser

variable {tokens rest : Tokens} {item : Item}

/-- The items of a namespace are read behind its opening brace. -/
theorem exists_of_namespaceBlock {name : Identifier} {body : List Item} {span : Span}
    (h : nextItem tokens = .ok (.namespaceBlock name body span, rest)) :
    ∃ front inner closing, tokens = front ++ inner ∧ front ≠ [] ∧ readItems true inner = .ok (body, closing) := by
  rcases nextItem_cases h with ⟨c, -, heq⟩ | ⟨place, after, rfl, hnamespace⟩ | hitem
  · cases heq
  · obtain ⟨_, inner, _, closing, _, hhead, hbody, -, heq⟩ := exists_of_namespaceAfter hnamespace
    cases heq
    obtain ⟨front, rfl, -⟩ := namespaceHead_fits hhead
    exact ⟨⟨.keyword .namespaceWord, place⟩ :: front, inner, closing, rfl, by simp, hbody⟩
  · unfold keywordItem at hitem
    grind [→ exists_of_map_eq_ok]

/-- Each item of a source is read off tokens of its own. -/
theorem exists_piece {inside : Bool} {body : List Item} (h : readItems inside tokens = .ok (body, rest))
    (hitem : item ∈ Item.flatten body) :
    ∃ gap piece more, tokens = gap ++ piece ++ more ∧ nextItem piece = .ok (item, []) := by
  induction hn : tokens.length using Nat.strongRecOn generalizing inside tokens body rest with
  | ind n ih =>
    subst hn
    cases tokens with
    | nil =>
      cases inside with
      | true =>
        rw [readItems_unclosed] at h
        cases h
      | false =>
        rw [readItems_nil] at h
        cases h
        simp [Item.flatten] at hitem
    | cons t after =>
      by_cases hclosing : inside = true ∧ t.token = .mark .rightBrace
      · obtain ⟨token, span⟩ := t
        obtain ⟨rfl, rfl⟩ := hclosing
        rw [readItems_rightBrace] at h
        cases h
        simp [Item.flatten] at hitem
      rw [readItems_cons fun hinside ht => hclosing ⟨hinside, ht⟩] at h
      obtain ⟨⟨first, left⟩, hfirst, h⟩ := Except.bind_eq_ok_iff.mp h
      obtain ⟨⟨more, left'⟩, hmore, heq⟩ := Except.map_eq_ok_iff.mp h
      cases heq
      obtain ⟨used, htokens, hreads⟩ := (decided_nextItem (t :: after) fun inner _ => decided_block inner).exists_of_ok hfirst
      -- the item is the first one, stands in the namespace that is, or comes behind it
      rcases Item.mem_flatten_cons hitem with rfl | ⟨name, members, span, rfl, hmember⟩ | hlater
      · have halone := hreads [] (.inl (avoids_nil goesOn))
        rw [List.append_nil] at halone
        exact ⟨[], used, left, htokens, halone⟩
      · obtain ⟨front, inner, closing, hfront, hne, hbody⟩ := exists_of_namespaceBlock hfirst
        have hshorter : inner.length < (t :: after).length := by
          have := List.length_pos_iff.mpr hne
          rw [hfront, List.length_append]
          omega
        obtain ⟨gap, piece, behind, rfl, hpiece⟩ := ih _ hshorter hbody hmember rfl
        exact ⟨front ++ gap, piece, behind, by rw [hfront]; simp, hpiece⟩
      · obtain ⟨gap, piece, behind, rfl, hpiece⟩ := ih _ (length_of_nextItem hfirst) hmore hlater rfl
        exact ⟨used ++ gap, piece, behind, by rw [htokens]; simp, hpiece⟩

end Parser

/-! ## No item ends with a literal -/

/-- The literals that are spelled like names. -/
def Token.IsLiteralName : Token → Prop
  | .boolean _ => True
  | .null => True
  | _ => False

theorem Token.IsLiteralName.ne_eof {t : Token} (h : t.IsLiteralName) : t ≠ .eof := by
  rintro rfl
  exact h

/-- An identifier that is spelled like such a literal is the literal alone. -/
theorem Token.alone_of_literalName {name : String} (h : name ∈ ["true", "false", "null"]) :
    (Token.ident name).alone.IsLiteralName ∧ (Token.ident name).alone ≠ .ident name := by
  simp only [List.mem_cons, List.not_mem_nil, or_false] at h
  rcases h with rfl | rfl | rfl <;> exact ⟨trivial, by decide⟩

namespace Grammar

/-- Tokens of which the last, if there is one, is not `true`, `false` or `null`. -/
def EndsPlainly (ts : List Token) : Prop :=
  ∀ t ∈ ts.getLast?, ¬t.IsLiteralName

namespace EndsPlainly

variable {ts us : List Token}

theorem nil : EndsPlainly [] := by
  simp [EndsPlainly]

theorem append (hts : EndsPlainly ts) (hus : EndsPlainly us) : EndsPlainly (ts ++ us) := by
  intro t ht
  rw [List.getLast?_append] at ht
  cases h : us.getLast? with
  | none => exact hts t (by simpa [h] using ht)
  | some u => exact hus t (by simpa [h] using ht)

/-- What comes before a mark does not matter. -/
theorem behind (ts : List Token) (mark : Mark) (hus : EndsPlainly us) : EndsPlainly (ts ++ .mark mark :: us) := by
  intro t ht
  rw [List.getLast?_append, List.getLast?_cons] at ht
  cases h : us.getLast? with
  | none =>
    obtain rfl : .mark mark = t := by simpa [h] using ht
    exact id
  | some u => exact hus t (by simpa [h] using ht)

end EndsPlainly

theorem IsName.endsPlainly {ts : List Token} {i : Identifier} (h : IsName ts i) : EndsPlainly ts := by
  cases h <;> simp [EndsPlainly, Token.IsLiteralName]

theorem IsPath.endsPlainly {ts : List Token} {p : TypePath} (h : IsPath ts p) : EndsPlainly ts := by
  obtain ⟨h⟩ := h
  induction h with
  | last h => exact h.endsPlainly
  | cons h _ ih => exact .behind _ _ ih

theorem IsTypeName.endsPlainly {ts : List Token} {t : TypeName} (h : IsTypeName ts t) : EndsPlainly ts := by
  cases h with
  | path h => exact h.endsPlainly
  | sized => simp [EndsPlainly, Token.IsLiteralName]

theorem IsProperty.endsPlainly {ts : List Token} {p : Property} (h : IsProperty ts p) : EndsPlainly ts := by
  have htype {us : List Token} {type : PropertyType} (h : IsPropertyType us type) : EndsPlainly us := by
    cases h with
    | single h => exact h.endsPlainly
    | vector h => exact .behind (_ :: _ :: _) .greater .nil
  cases h with
  | required _ h => exact .behind _ _ (htype h)
  | optional _ h => exact .behind _ _ (.behind [] _ (htype h))

theorem IsComment.endsPlainly {ts : List Token} {c : Comment} (h : IsComment ts c) : EndsPlainly ts := by
  cases h with
  | single => simp [EndsPlainly, Token.IsLiteralName]
  | block => exact .behind (_ :: _) .tripleDash .nil

theorem IsArrowEntries.endsPlainly {ts : List Token} {entries : List BodyEntry} (h : IsArrowEntries ts entries) :
    EndsPlainly ts := by
  have hcomments {us : List Token} {comments : List BodyEntry} (h : IsComments us comments) : EndsPlainly us := by
    induction h with
    | nil => exact .nil
    | cons h _ ih => exact h.endsPlainly.append ih
  induction h with
  | last hbefore h => exact (hcomments hbefore).append h.endsPlainly
  | cons _ _ _ ih => exact .behind _ _ ih

theorem IsBody.endsPlainly {ts : List Token} {entries : List BodyEntry} (h : IsBody ts entries) : EndsPlainly ts := by
  cases h with
  | braces => exact .behind (_ :: _) .rightBrace .nil
  | arrow h => exact .behind [] .arrow h.endsPlainly
  | arrowEnded => exact .behind (_ :: _) .semicolon .nil
  | arrowEmpty => exact .behind [_] .semicolon .nil
  | none => exact .nil
  | ended => exact .behind [] .semicolon .nil

theorem IsItems.endsPlainly {ts : List Token} {items : List Item} (h : IsItems ts items) : EndsPlainly ts := by
  induction h with
  | nil => exact .nil
  | comment h _ ih => exact h.endsPlainly.append ih
  | namespaceBlock _ _ _ _ ih => exact .behind _ _ ih
  | typeGroup h _ ih =>
    cases h
    exact EndsPlainly.append (.behind (_ :: _) .rightBrace .nil) ih
  | aliasDecl h _ ih =>
    cases h with
    | plain _ htarget => exact EndsPlainly.append (.behind (_ :: _) .equals htarget.endsPlainly) ih
    | ended => exact EndsPlainly.append (.behind (_ :: _) .semicolon .nil) ih
  | traitDecl h _ ih =>
    cases h with
    | ended => exact EndsPlainly.append (.behind (_ :: _) .semicolon .nil) ih
    | braces => exact EndsPlainly.append (.behind (_ :: _) .rightBrace .nil) ih
  | declaration h _ ih =>
    cases h with
    | constructorFirst _ hname hbody =>
      exact EndsPlainly.append (EndsPlainly.append (.behind _ .colon hname.endsPlainly) hbody.endsPlainly) ih
    | typeFirst hname hctor hbody =>
      exact ((hname.endsPlainly.append hctor.endsPlainly).append hbody.endsPlainly).append ih

end Grammar

theorem Parser.endsPlainly_of_readItems {tokens left : Parser.Tokens} {body : List Item}
    (h : Parser.readItems false tokens = .ok (body, left)) : Grammar.EndsPlainly (tokens.map Located.token) := by
  obtain ⟨⟨_, _⟩, hitems, heq⟩ := Except.map_eq_ok_iff.mp h
  cases heq
  obtain ⟨⟨used, hused, hderives⟩, hleft⟩ := Parser.takes_items hitems
  rw [hused, hleft rfl, List.map_nil, List.append_nil]
  exact hderives.endsPlainly

/-! ## Sources -/

theorem Located.beforeEof_relocated_append {piece : List Located} (f : Nat → Nat) (place : Span)
    (hne : ∀ t ∈ piece, t.token ≠ .eof) :
    beforeEof (piece.map (relocated f) ++ [⟨.eof, place⟩]) = Parser.allRelocated f piece := by
  apply beforeEof_append_eof
  intro t ht
  obtain ⟨u, hu, rfl⟩ := List.mem_map.mp ht
  exact hne u hu

/-- A text that is read as the tokens of an item, as many bytes earlier as these tokens begin, is a source with this item
alone. -/
theorem Schema.ofSource_of_nextItem {text : List Char} {piece : Parser.Tokens} {item : Item} {start : Nat} {place : Span}
    (hlex : lex text = .ok (piece.map (Located.relocated (· - start)) ++ [⟨.eof, place⟩]))
    (hne : ∀ t ∈ piece, t.token ≠ .eof) (hitem : Parser.nextItem piece = .ok (item, [])) :
    ofSource text = .ok ⟨[item.relocated (· - start)], ⟨0, Utf8.size text⟩⟩ := by
  have hread : Parser.readItems false (Parser.allRelocated (· - start) piece) =
      .ok ([item.relocated (· - start)], []) := by
    rw [Parser.readItems_relocated, Parser.readItems_of_nextItem hitem, Parser.readItems_nil]
    rfl
  rw [← Located.beforeEof_relocated_append _ place hne] at hread
  exact ofSource_of_readItems hlex hread

/-- A text that is read as tokens of which the last is such a literal is no source. -/
theorem Schema.exists_error_of_literal {text : List Char} {init : Parser.Tokens} {literal : Located} {start : Nat}
    {place : Span} (hlex : lex text = .ok ((init ++ [literal]).map (Located.relocated (· - start)) ++ [⟨.eof, place⟩]))
    (hne : ∀ t ∈ init ++ [literal], t.token ≠ .eof) (hliteral : literal.token.IsLiteralName) :
    ∃ e, ofSource text = .error e := by
  cases h : ofSource text with
  | error e => exact ⟨e, rfl⟩
  | ok s =>
    obtain ⟨tokens, left, hlex', hread⟩ := exists_of_ofSource h
    obtain rfl := Except.ok.inj (hlex.symm.trans hlex')
    rw [Located.beforeEof_relocated_append _ place hne] at hread
    exact absurd hliteral (Parser.endsPlainly_of_readItems hread literal.token (by simp [Parser.allRelocated]))

/-- Whether the range ends with an identifier that is spelled like a literal, and that a character outside ASCII right
behind it keeps from being one. -/
def Span.EndsInLiteralName (source : List Char) (s : Span) : Prop :=
  ∃ tokens text start before c after, lex source = .ok tokens ∧ ⟨.ident text, ⟨start, s.stop⟩⟩ ∈ tokens ∧
    text ∈ ["true", "false", "null"] ∧ source = before ++ c :: after ∧ Utf8.size before = s.stop ∧
    Lexer.isBeyondAscii c = true

/-- Where an item stands in a source, between what comes before and after it, and the tokens that it is read off. -/
structure Item.Stands (item : Item) (before text after : List Char) (init : Parser.Tokens) (last : Located) : Prop where
  span_eq : item.span = ⟨Utf8.size before, Utf8.size (before ++ text)⟩
  read : Parser.nextItem (init ++ [last]) = .ok (item, [])
  stop : last.span.stop = item.span.stop
  source : ∃ tokens, lex (before ++ text ++ after) = .ok tokens ∧ ∀ t ∈ init ++ [last], t ∈ Located.beforeEof tokens
  alone : lex text = .ok ((init ++ [Located.mk last.token.alone last.span]).map (Located.relocated (· - item.span.start)) ++
    [⟨.eof, ⟨Utf8.size text, Utf8.size text⟩⟩])
  beyond : last.token.alone ≠ last.token → after.head?.any Lexer.isBeyondAscii = true

theorem Schema.exists_stands {source : List Char} {s : Schema} {item : Item} (h : ofSource source = .ok s)
    (hitem : item ∈ Item.flatten s.body) :
    ∃ before text after init last, source = before ++ text ++ after ∧ item.Stands before text after init last := by
  obtain ⟨tokens, left, hlex, hread⟩ := exists_of_ofSource h
  obtain ⟨gap, piece, more, htokens, hpiece⟩ := Parser.exists_piece hread hitem
  have hmem (t : Located) (ht : t ∈ piece) : t ∈ Located.beforeEof tokens := by
    rw [htokens]
    simp [ht]
  obtain ⟨used, hused, hfits⟩ := Parser.nextItem_fits hpiece
  rw [List.append_nil] at hused
  subst hused
  have hcovers := hfits.covers
  rw [Item.span_outline] at hcovers
  rcases List.eq_nil_or_concat' piece with rfl | ⟨init, last, rfl⟩
  · cases hpiece
  have hall := Lexer.eq_beforeEof_append hlex
  rw [htokens, List.append_assoc (gap ++ (init ++ [last]))] at hall
  have hwhole := hlex
  rw [hall] at hlex
  obtain ⟨before, text, after, rfl, hspan, halone, hbeyond⟩ :=
    exists_snippet hlex (fun t ht => Located.ne_eof_of_mem_beforeEof (hmem t ht)) hcovers
  exact ⟨before, text, after, init, last, rfl, hspan, hpiece, by simpa using hcovers.stop 0, ⟨tokens, hwhole, hmem⟩, halone,
    hbeyond⟩

namespace Item.Stands

variable {item : Item} {before text after : List Char} {init : Parser.Tokens} {last : Located}

theorem ne_eof (h : item.Stands before text after init last) : ∀ t ∈ init ++ [last], t.token ≠ .eof := by
  obtain ⟨tokens, -, hmem⟩ := h.source
  exact fun t ht => Located.ne_eof_of_mem_beforeEof (hmem t ht)

theorem ne_eof_of_last (h : item.Stands before text after init last) {token : Token} {place : Span} (hne : token ≠ .eof) :
    ∀ t ∈ init ++ [⟨token, place⟩], t.token ≠ .eof := by
  intro t ht
  rcases List.mem_append.mp ht with ht | ht
  · exact h.ne_eof t (by simp [ht])
  · rwa [List.mem_singleton.mp ht]

/-- The last token of an item that ends with a name spelled like a literal is this name. -/
theorem exists_of_endsInLiteralName (h : item.Stands before text after init last)
    (hends : item.span.EndsInLiteralName (before ++ text ++ after)) :
    ∃ name ∈ ["true", "false", "null"], last.token = .ident name := by
  obtain ⟨tokens, hlex, hmem⟩ := h.source
  obtain ⟨tokens', name, start, -, -, -, hlex', hname, hspelled, -, -, -⟩ := hends
  obtain rfl := Except.ok.inj (hlex.symm.trans hlex')
  rw [Lexer.eq_beforeEof_append hlex] at hname
  have hname : ⟨.ident name, ⟨start, item.span.stop⟩⟩ ∈ Located.beforeEof tokens := by simpa using hname
  have heq := (Lexer.areOrdered_of_lex hlex).eq_of_stop hname (hmem last (by simp)) h.stop.symm
  exact ⟨name, hspelled, by rw [← heq]⟩

theorem ofSource_eq (h : item.Stands before text after init last)
    (hends : ¬item.span.EndsInLiteralName (before ++ text ++ after)) :
    Schema.ofSource text = .ok ⟨[item.relocated (· - item.span.start)], ⟨0, Utf8.size text⟩⟩ := by
  have hlex := h.alone
  obtain ⟨token, place⟩ := last
  rcases token.alone_cases with halone | ⟨word, rfl, halone⟩ | ⟨name, hname, rfl⟩
  · rw [halone] at hlex
    exact Schema.ofSource_of_nextItem hlex h.ne_eof h.read
  · -- alone the name is a keyword, which is read as the same name
    rw [halone] at hlex
    exact Schema.ofSource_of_nextItem hlex (h.ne_eof_of_last nofun) (Parser.nextItem_recast h.read)
  · -- the name is a literal alone, so it was the character behind it that made it a name
    obtain ⟨c, hhead, hc⟩ := (Option.any_eq_true _ _).mp (h.beyond (Token.alone_of_literalName hname).2)
    obtain ⟨rest, rfl⟩ := List.head?_eq_some_iff.mp hhead
    obtain ⟨tokens, hsource, hmem⟩ := h.source
    have hlast := hmem ⟨.ident name, place⟩ (by simp)
    refine absurd ⟨tokens, name, place.start, before ++ text, c, rest, hsource, ?_, hname, rfl, ?_, hc⟩ hends
    · rw [← h.stop]
      exact (List.takeWhile_prefix _).subset hlast
    · rw [h.span_eq]

theorem exists_error (h : item.Stands before text after init last)
    (hends : item.span.EndsInLiteralName (before ++ text ++ after)) : ∃ e, Schema.ofSource text = .error e := by
  obtain ⟨name, hname, hlast⟩ := h.exists_of_endsInLiteralName hends
  have hliteral := (Token.alone_of_literalName hname).1
  rw [← hlast] at hliteral
  exact Schema.exists_error_of_literal h.alone (h.ne_eof_of_last hliteral.ne_eof) hliteral

end Item.Stands

/-- The places in a tree nest. Each item, those in namespaces included, is read alone off the text in its place: that text
is a source with this item and no other, in which every place is as many bytes earlier as the item begins. Only an item
that ends with a name spelled like a literal, right before a character outside ASCII, is not read alone. -/
theorem Schema.ofSource_snippet {source : List Char} {s : Schema} (h : ofSource source = .ok s) :
    s.outline.IsNested ∧ ∀ item ∈ Item.flatten s.body, ∃ text, item.span.snippet? source = some text ∧
      (¬item.span.EndsInLiteralName source →
        ofSource text = .ok ⟨[item.relocated (· - item.span.start)], ⟨0, Utf8.size text⟩⟩) ∧
      (item.span.EndsInLiteralName source → ∃ e, ofSource text = .error e) := by
  refine ⟨isNested_of_ofSource h, fun item hitem => ?_⟩
  obtain ⟨before, text, after, init, last, rfl, hstands⟩ := exists_stands h hitem
  refine ⟨text, ?_, hstands.ofSource_eq, hstands.exists_error⟩
  rw [hstands.span_eq]
  exact Span.snippet?_append before text after

/-- A declaration in a namespace, read alone. -/
theorem Schema.ofSource_snippet_namespace :
    let path (text : String) (start : Nat) : TypePath := ⟨[⟨text, ⟨start, start + 1⟩⟩], ⟨start, start + 1⟩⟩
    let inner : Item := .declaration ⟨path "b" 14, path "a" 12, [], ⟨12, 15⟩⟩
    let tree : Schema := ⟨[.namespaceBlock ⟨"n", ⟨10, 11⟩⟩ [inner] ⟨0, 16⟩], ⟨0, 16⟩⟩
    ofSource ['n', 'a', 'm', 'e', 's', 'p', 'a', 'c', 'e', ' ', 'n', '\x7b', 'a', ' ', 'b', '\x7d'] = .ok tree ∧
      tree.outline.IsNested ∧ ofSource ['a', ' ', 'b'] = .ok ⟨[inner.relocated (· - 12)], ⟨0, 3⟩⟩ := by
  intro path inner tree
  let source := ['n', 'a', 'm', 'e', 's', 'p', 'a', 'c', 'e', ' ', 'n', '\x7b', 'a', ' ', 'b', '\x7d']
  let ahead : Parser.Tokens := [⟨.keyword .namespaceWord, ⟨0, 9⟩⟩, ⟨.ident "n", ⟨10, 11⟩⟩, ⟨.mark .leftBrace, ⟨11, 12⟩⟩,
    ⟨.ident "a", ⟨12, 13⟩⟩, ⟨.ident "b", ⟨14, 15⟩⟩, ⟨.mark .rightBrace, ⟨15, 16⟩⟩]
  have hlex : lex source = .ok (ahead ++ [⟨.eof, ⟨16, 16⟩⟩]) := by
    have hword : Lexer.scan 'n' ['a', 'm', 'e', 's', 'p', 'a', 'c', 'e', ' ', 'n', '\x7b', 'a', ' ', 'b', '\x7d'] =
        ⟨.ok (.keyword .namespaceWord), ['n', 'a', 'm', 'e', 's', 'p', 'a', 'c', 'e'],
          [' ', 'n', '\x7b', 'a', ' ', 'b', '\x7d']⟩ := rfl
    have hname : Lexer.scan 'n' ['\x7b', 'a', ' ', 'b', '\x7d'] =
        ⟨.ok (.ident "n"), ['n'], ['\x7b', 'a', ' ', 'b', '\x7d']⟩ := rfl
    have hopen : Lexer.scan '\x7b' ['a', ' ', 'b', '\x7d'] =
        ⟨.ok (.mark .leftBrace), ['\x7b'], ['a', ' ', 'b', '\x7d']⟩ := rfl
    have hfirst : Lexer.scan 'a' [' ', 'b', '\x7d'] = ⟨.ok (.ident "a"), ['a'], [' ', 'b', '\x7d']⟩ := rfl
    have hsecond : Lexer.scan 'b' ['\x7d'] = ⟨.ok (.ident "b"), ['b'], ['\x7d']⟩ := rfl
    have hclose : Lexer.scan '\x7d' [] = ⟨.ok (.mark .rightBrace), ['\x7d'], []⟩ := rfl
    rw [lex, Lexer.lexFrom_of_ok (by decide) (by rw [hword]), hword, Lexer.lexFrom_skipped rfl,
      Lexer.lexFrom_of_ok (by decide) (by rw [hname]), hname, Lexer.lexFrom_of_ok (by decide) (by rw [hopen]), hopen,
      Lexer.lexFrom_of_ok (by decide) (by rw [hfirst]), hfirst, Lexer.lexFrom_skipped rfl,
      Lexer.lexFrom_of_ok (by decide) (by rw [hsecond]), hsecond, Lexer.lexFrom_of_ok (by decide) (by rw [hclose]), hclose,
      Lexer.lexFrom_nil]
    rfl
  have hread : Parser.readItems false (Located.beforeEof (ahead ++ [⟨.eof, ⟨16, 16⟩⟩])) = .ok (tree.body, []) := by
    let brace : Located := ⟨.mark .rightBrace, ⟨15, 16⟩⟩
    have hinner : Parser.nextItem [⟨.ident "a", ⟨12, 13⟩⟩, ⟨.ident "b", ⟨14, 15⟩⟩, brace] = .ok (inner, [brace]) := rfl
    have hblock : Parser.block [⟨.ident "a", ⟨12, 13⟩⟩, ⟨.ident "b", ⟨14, 15⟩⟩, brace] = .ok ([inner], ⟨15, 16⟩, []) := by
      rw [Parser.block_cons (by simp), hinner]
      simp only [bind, Except.bind, brace, Parser.block_rightBrace]
      rfl
    have hitem : Parser.nextItem ahead = .ok (.namespaceBlock ⟨"n", ⟨10, 11⟩⟩ [inner] ⟨0, 16⟩, []) := by
      show Except.map _ (Parser.block [⟨.ident "a", ⟨12, 13⟩⟩, ⟨.ident "b", ⟨14, 15⟩⟩, brace]) = _
      rw [hblock]
      rfl
    have hbefore : Located.beforeEof (ahead ++ [⟨.eof, ⟨16, 16⟩⟩]) = ahead := rfl
    rw [hbefore, Parser.readItems_of_nextItem hitem, Parser.readItems_nil]
    rfl
  have htree : ofSource source = .ok tree := ofSource_of_readItems hlex hread
  obtain ⟨hnested, hitems⟩ := ofSource_snippet htree
  obtain ⟨text, htext, halone, -⟩ := hitems inner (by simp [tree, Item.flatten])
  have hplain : ¬inner.span.EndsInLiteralName source := by
    rintro ⟨_, _, _, before, c, after, -, -, -, hsource, -, hbeyond⟩
    have hall : source.any Lexer.isBeyondAscii = false := by decide
    have hmem : c ∈ source := by rw [hsource]; simp
    exact absurd hbeyond (List.any_eq_false.mp hall c hmem)
  have hsnippet : inner.span.snippet? source = some ['a', ' ', 'b'] := by decide
  obtain rfl := Option.some.inj (htext.symm.trans hsnippet)
  exact ⟨htree, hnested, halone hplain⟩

end SchemaWire
