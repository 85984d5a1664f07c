import SchemaWire.Proofs.Grammar
import SchemaWire.Proofs.Places
import SchemaWire.Proofs.Stages

/-!
# The two spellings of a declaration

A container on its own is declared with a colon after its constructor, `ctor : Type`, or with its type first,
`Type ctor`. Whatever comes next, both spellings are read as the same tree, places aside, or refused for the same reason
(`Schema.ofTokens_positional`).
-/

namespace SchemaWire

/-- A token the place of which does not count. -/
def Token.nowhere (token : Token) : Located :=
  ⟨token, .nowhere⟩

/-! ## Names -/

namespace Grammar

variable {ts : List Token}

theorem IsName.eof_not_mem {i : Identifier} (h : IsName ts i) : .eof ∉ ts := by
  cases h <;> simp

theorem IsPath.eof_not_mem {p : TypePath} (h : IsPath ts p) : .eof ∉ ts := by
  obtain ⟨h⟩ := h
  induction h with
  | last h => exact h.eof_not_mem
  | cons h _ ih => simp [h.eof_not_mem, ih]

end Grammar

namespace Parser

variable {ts : List Token} {rest : Tokens}

theorem name_nowhere {i : Identifier} (h : Grammar.IsName ts i) (context : ParseError.Context) (rest : Tokens) :
    name context (ts.map Token.nowhere ++ rest) = .ok (i.unplaced, rest) := by
  cases h <;> rfl

theorem moreSegments_nowhere {segments : List Identifier} (h : Grammar.IsSegments ts segments)
    (hrest : startsWith .dot rest = false) :
    moreSegments (Token.nowhere (.mark .dot) :: (ts.map Token.nowhere ++ rest)) =
      .ok (segments.map Identifier.unplaced, rest) := by
  induction h with
  | last h =>
    rw [Token.nowhere, moreSegments_dot, name_nowhere h]
    simp only [bind, Except.bind, moreSegments_of_not_dot hrest]
    rfl
  | cons h hmore ih =>
    rw [Token.nowhere, moreSegments_dot, List.map_append, List.append_assoc, name_nowhere h]
    simp only [bind, Except.bind, List.map_cons, List.cons_append, ih]
    rfl

theorem pathOf_nowhere (first : Identifier) (more : List Identifier) (span : Span) :
    pathOf first.unplaced (more.map Identifier.unplaced) = (⟨first :: more, span⟩ : TypePath).unplaced := by
  have hlast : ((first :: more).map Identifier.unplaced).getLast (by simp) =
      ((first :: more).getLast (by simp)).unplaced := List.getLast_map ..
  simp only [List.map_cons] at hlast
  simp only [pathOf, hlast]
  rfl

/-- A dotted name is read as it is spelled, unless a dot comes next. -/
theorem path_nowhere {p : TypePath} (h : Grammar.IsPath ts p) (hrest : startsWith .dot rest = false) :
    path (ts.map Token.nowhere ++ rest) = .ok (p.unplaced, rest) := by
  obtain ⟨h⟩ := h
  cases h with
  | last h =>
    rw [path_eq, name_nowhere h]
    simp only [bind, Except.bind, moreSegments_of_not_dot hrest]
    exact congrArg (fun p => Except.ok (p, rest)) (pathOf_nowhere _ [] _)
  | cons h hmore =>
    rw [path_eq, List.map_append, List.append_assoc, name_nowhere h]
    simp only [bind, Except.bind, List.map_cons, List.cons_append, moreSegments_nowhere hmore hrest]
    exact congrArg (fun p => Except.ok (p, rest)) (pathOf_nowhere _ _ _)

/-! ## Declarations -/

/-- Items that begin with a declaration, behind its names. -/
def declaredItems (start : Nat) (ctor name : TypePath) (before : Nat) (tokens : Tokens) :
    Except Rejection (List Item × Tokens) :=
  declarationBody start ctor name before tokens >>= fun (d, rest) =>
    (readItems false rest).map fun (more, left) => (.declaration d :: more, left)

/-- Items that begin with an identifier begin with a declaration. -/
theorem readItems_of_names {text : String} {span : Span} {more : Tokens} {ctor name : TypePath} {before : Nat}
    (h : declarationNames (⟨.ident text, span⟩ :: more) = .ok (ctor, name, before, rest)) :
    readItems false (⟨.ident text, span⟩ :: more) = declaredItems span.start ctor name before rest := by
  have hitem : nextItem (⟨.ident text, span⟩ :: more) =
      (declaration (⟨.ident text, span⟩ :: more)).map fun (d, rest) => (.declaration d, rest) := by
    rw [nextItem_of_none rfl (by simp)]
    exact keywordItem_declaration rfl (by simp) (by simp) (by simp)
  rw [readItems_false_cons, hitem, declaration, h]
  simp only [bind, Except.bind, declaredItems, declarationBody]
  cases containerBody before rest <;> rfl

theorem exists_of_declaredItems {start before : Nat} {ctor name : TypePath} {items : List Item} {left : Tokens}
    (h : declaredItems start ctor name before rest = .ok (items, left)) :
    ∃ d more, items = .declaration d :: more ∧ d.ctor = ctor ∧ d.name = name := by
  obtain ⟨⟨d, after⟩, hbody, hmore⟩ := Except.bind_eq_ok_iff.mp h
  obtain ⟨⟨body, stop, after'⟩, -, hd⟩ := exists_of_map_eq_ok hbody
  obtain ⟨⟨more, left'⟩, -, hitems⟩ := exists_of_map_eq_ok hmore
  cases hd
  cases hitems
  exact ⟨_, more, rfl, rfl, rfl⟩

section Spellings

variable {p q : List Token} {P Q : TypePath} {a b : String} (hp : Grammar.IsPath (.ident a :: p) P)
  (hq : Grammar.IsPath (.ident b :: q) Q) (hrest : startsWith .dot rest = false)
include hp hq hrest

theorem readItems_named :
    readItems false ((.ident b :: q).map Token.nowhere ++
        Token.nowhere (.mark .colon) :: ((.ident a :: p).map Token.nowhere ++ rest)) =
      declaredItems 0 Q.unplaced P.unplaced 0 rest := by
  refine readItems_of_names (Except.bind_eq_ok_iff.mpr ⟨_, path_nowhere hq rfl, ?_⟩)
  exact Except.bind_eq_ok_iff.mpr ⟨_, path_nowhere hp hrest, rfl⟩

theorem readItems_positional :
    readItems false ((.ident a :: p).map Token.nowhere ++ ((.ident b :: q).map Token.nowhere ++ rest)) =
      declaredItems 0 Q.unplaced P.unplaced 0 rest := by
  refine readItems_of_names (Except.bind_eq_ok_iff.mpr ⟨_, path_nowhere hp rfl, ?_⟩)
  exact Except.bind_eq_ok_iff.mpr ⟨_, path_nowhere hq hrest, rfl⟩

end Spellings

end Parser

/-! ## Tokens without places -/

namespace Located

theorem map_relocated_zero (tokens : List Located) :
    tokens.map (relocated fun _ => 0) = (tokens.map token).map Token.nowhere := by
  rw [List.map_map]
  rfl

theorem endSpan_nowhere (ts : List Token) : endSpan (ts.map Token.nowhere) = .nowhere := by
  unfold endSpan
  rw [List.find?_map, List.getLast?_map]
  cases ts.find? _ with
  | some t => rfl
  | none => cases ts.getLast? <;> rfl

theorem beforeEof_nowhere_cons {token : Token} (h : token ≠ .eof) (ts : List Token) :
    beforeEof ((token :: ts).map Token.nowhere) = token.nowhere :: beforeEof (ts.map Token.nowhere) :=
  beforeEof_cons h _

theorem beforeEof_nowhere_append {ts : List Token} (h : .eof ∉ ts) (us : List Token) :
    beforeEof ((ts ++ us).map Token.nowhere) = ts.map Token.nowhere ++ beforeEof (us.map Token.nowhere) := by
  rw [List.map_append]
  refine beforeEof_append (fun t ht => ?_) _
  obtain ⟨token, htoken, rfl⟩ := List.mem_map.mp ht
  exact fun heq => h (heq ▸ htoken)

theorem startsWith_beforeEof_nowhere {mark : Mark} {ts : List Token} (h : ts.head? ≠ some (.mark mark)) :
    Parser.startsWith mark (beforeEof (ts.map Token.nowhere)) = false := by
  cases ts with
  | nil => rfl
  | cons t rest =>
    by_cases heof : t = .eof
    · subst heof
      rfl
    · rw [beforeEof_nowhere_cons heof]
      exact decide_eq_false fun heq => h (congrArg some heq)

end Located

namespace Schema

theorem ofTokens_nowhere (ts : List Token) :
    ofTokens (ts.map Token.nowhere) =
      ((Parser.readItems false (Located.beforeEof (ts.map Token.nowhere))).map fun (body, _) =>
        (⟨body, .nowhere⟩ : Schema)).mapError (.ofRejection .nowhere) := by
  cases hread : Parser.readItems false (Located.beforeEof (ts.map Token.nowhere)) with
  | error r =>
    rw [Parser.ofTokens_eq_error_iff.mpr ⟨r, hread, rfl⟩, Located.endSpan_nowhere]
    rfl
  | ok found =>
    rw [Parser.ofTokens_of_readItems hread, List.getLast?_map]
    cases ts.getLast? <;> rfl

/-- What is read from tokens, places aside, is what is read from them without places. -/
theorem unplaced_ofTokens (tokens : List Located) :
    ((ofTokens tokens).map unplaced).mapError ParseError.reason =
      (ofTokens ((tokens.map Located.token).map Token.nowhere)).mapError ParseError.reason := by
  rw [← Located.map_relocated_zero, ofTokens_relocated rfl, unplaced_eq]
  cases ofTokens tokens with
  | error e => simp [Except.map, Except.mapError]
  | ok s => rfl

/-! ## Both spellings are one construct -/

theorem exists_of_unplaced_declaration {items more : List Item} {d : Declaration}
    (h : Item.unplaced items = .declaration d :: more) :
    ∃ d' more', items = .declaration d' :: more' ∧ d'.unplaced = d := by
  cases items with
  | nil =>
    rw [Item.unplaced] at h
    cases h
  | cons item rest =>
    cases item with
    | declaration d' =>
      rw [Item.unplaced] at h
      cases h
      exact ⟨d', rest, rfl, rfl⟩
    | _ =>
      rw [Item.unplaced] at h
      cases h

/-- A declaration may be written as `Q : P` or as `P Q`, if both names begin with identifiers and no dot comes next:
whatever follows, both are the same tree, places aside, which begins with the constructor `Q` of the type `P`, and have
the same containers, or they are refused for the same reason. -/
theorem ofTokens_positional {p q r : List Token} {P Q : TypePath} {a b : String}
    (hp : Grammar.IsPath (.ident a :: p) P) (hq : Grammar.IsPath (.ident b :: q) Q) (hr : r.head? ≠ some (.mark .dot))
    {named positional : List Located}
    (hnamed : named.map Located.token = .ident b :: q ++ .mark .colon :: (.ident a :: p ++ r))
    (hpositional : positional.map Located.token = .ident a :: p ++ (.ident b :: q ++ r)) :
    ((ofTokens named).map unplaced).mapError ParseError.reason =
        ((ofTokens positional).map unplaced).mapError ParseError.reason ∧
      (∀ s, ofTokens named = .ok s →
        ∃ d more, s.body = .declaration d :: more ∧ d.ctor.unplaced = Q.unplaced ∧ d.name.unplaced = P.unplaced) ∧
      ∀ s s', ofTokens named = .ok s → ofTokens positional = .ok s' →
        s.lower.result.mapError LoweringError.reason = s'.lower.result.mapError LoweringError.reason := by
  have hdot := Located.startsWith_beforeEof_nowhere hr
  -- Without places, even the offsets at which names end are the same, and both readers go on alike.
  have hread : Parser.readItems false (Located.beforeEof ((named.map Located.token).map Token.nowhere)) =
      Parser.declaredItems 0 Q.unplaced P.unplaced 0 (Located.beforeEof (r.map Token.nowhere)) := by
    have hcolon : Token.mark .colon ≠ .eof := by decide
    rw [hnamed, Located.beforeEof_nowhere_append hq.eof_not_mem, Located.beforeEof_nowhere_cons hcolon,
      Located.beforeEof_nowhere_append hp.eof_not_mem]
    exact Parser.readItems_named hp hq hdot
  have hread' : Parser.readItems false (Located.beforeEof ((positional.map Located.token).map Token.nowhere)) =
      Parser.declaredItems 0 Q.unplaced P.unplaced 0 (Located.beforeEof (r.map Token.nowhere)) := by
    rw [hpositional, Located.beforeEof_nowhere_append hp.eof_not_mem, Located.beforeEof_nowhere_append hq.eof_not_mem]
    exact Parser.readItems_positional hp hq hdot
  have hsame : ((ofTokens named).map unplaced).mapError ParseError.reason =
      ((ofTokens positional).map unplaced).mapError ParseError.reason := by
    rw [unplaced_ofTokens, unplaced_ofTokens, ofTokens_nowhere, ofTokens_nowhere, hread, hread']
  refine ⟨hsame, fun s hs => ?_, fun s s' hs hs' => ?_⟩
  · -- The tree without places begins with the declaration, and so does the tree.
    have htree := unplaced_ofTokens named
    rw [hs, ofTokens_nowhere, hread] at htree
    cases hitems : Parser.declaredItems 0 Q.unplaced P.unplaced 0 (Located.beforeEof (r.map Token.nowhere)) with
    | error e =>
      rw [hitems] at htree
      cases htree
    | ok found =>
      rw [hitems] at htree
      obtain ⟨d, more, hfound, hctor, hname⟩ := Parser.exists_of_declaredItems hitems
      have hbody : Item.unplaced s.body = .declaration d :: more :=
        (congrArg Schema.body (Except.ok.inj htree)).trans hfound
      obtain ⟨d', more', hs', rfl⟩ := exists_of_unplaced_declaration hbody
      exact ⟨d', more', hs', hctor, hname⟩
  · rw [hs, hs'] at hsame
    exact result_eq_of_unplaced_eq (Except.ok.inj hsame)

/-- A type with a keyword behind its dot, in both spellings. -/
theorem ofTokens_positional_dotted :
    let named : List Located := [⟨.ident "newest", ⟨0, 6⟩⟩, ⟨.mark .colon, ⟨7, 8⟩⟩, ⟨.ident "posts", ⟨9, 14⟩⟩,
      ⟨.mark .dot, ⟨14, 15⟩⟩, ⟨.keyword .typeWord, ⟨15, 19⟩⟩, ⟨.mark .semicolon, ⟨19, 20⟩⟩, ⟨.eof, ⟨20, 20⟩⟩]
    let positional : List Located := [⟨.ident "posts", ⟨0, 5⟩⟩, ⟨.mark .dot, ⟨5, 6⟩⟩, ⟨.keyword .typeWord, ⟨6, 10⟩⟩,
      ⟨.ident "newest", ⟨11, 17⟩⟩, ⟨.mark .semicolon, ⟨17, 18⟩⟩, ⟨.eof, ⟨18, 18⟩⟩]
    ∃ s s', ofTokens named = .ok s ∧ ofTokens positional = .ok s' ∧ s.span ≠ s'.span ∧ s.unplaced = s'.unplaced ∧
      s.lower.result.mapError LoweringError.reason = s'.lower.result.mapError LoweringError.reason := by
  intro named positional
  have hp : Grammar.IsPath [.ident "posts", .mark .dot, .keyword .typeWord]
      ⟨[⟨"posts", .nowhere⟩, ⟨"type", .nowhere⟩], .nowhere⟩ := .mk (.cons .ident (.last .keyword))
  have hq : Grammar.IsPath [.ident "newest"] ⟨[⟨"newest", .nowhere⟩], .nowhere⟩ := .mk (.last .ident)
  have hread : Parser.readItems false (Located.beforeEof named) =
      .ok ([.declaration ⟨⟨[⟨"newest", ⟨0, 6⟩⟩], ⟨0, 6⟩⟩, ⟨[⟨"posts", ⟨9, 14⟩⟩, ⟨"type", ⟨15, 19⟩⟩], ⟨9, 19⟩⟩, [],
        ⟨0, 20⟩⟩], []) :=
    (Parser.readItems_false_cons _ _).trans (congrArg (Except.map _) Parser.readItems_nil)
  have hread' : Parser.readItems false (Located.beforeEof positional) =
      .ok ([.declaration ⟨⟨[⟨"newest", ⟨11, 17⟩⟩], ⟨11, 17⟩⟩, ⟨[⟨"posts", ⟨0, 5⟩⟩, ⟨"type", ⟨6, 10⟩⟩], ⟨0, 10⟩⟩, [],
        ⟨0, 18⟩⟩], []) :=
    (Parser.readItems_false_cons _ _).trans (congrArg (Except.map _) Parser.readItems_nil)
  have hs := Parser.ofTokens_of_readItems hread
  have hs' := Parser.ofTokens_of_readItems hread'
  have hr : [Token.mark .semicolon, .eof].head? ≠ some (.mark .dot) := by decide
  have hnamed : named.map Located.token = [.ident "newest"] ++ .mark .colon ::
      ([.ident "posts", .mark .dot, .keyword .typeWord] ++ [.mark .semicolon, .eof]) := rfl
  have hpositional : positional.map Located.token =
      [.ident "posts", .mark .dot, .keyword .typeWord] ++ ([.ident "newest"] ++ [.mark .semicolon, .eof]) := rfl
  obtain ⟨hsame, -, hlower⟩ := ofTokens_positional hp hq hr hnamed hpositional
  rw [hs, hs'] at hsame
  exact ⟨_, _, hs, hs', by decide, Except.ok.inj hsame, hlower _ _ hs hs'⟩

end Schema

end SchemaWire
