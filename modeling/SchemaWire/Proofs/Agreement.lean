import SchemaWire.Proofs.Ahead
import SchemaWire.Proofs.Stages

/-!
# The two parsers agree

Every reader of streams agrees with the reader of the same rule on the tokens ahead (`…_agrees`). Loops are compared turn
by turn, and the place of a node, which the one takes from positions in the stream and the other from the parts of the node,
is in both cases that of the tokens that were taken.

So the tree of some tokens is what is read from the tokens before their end (`ofTokens_eq_readItems`), and facts about
readers on lists are facts about what the program runs.
-/

namespace SchemaWire

theorem Parser.nextItem_fits {tokens rest : Parser.Tokens} {item : Item} (h : nextItem tokens = .ok (item, rest)) :
    Uses tokens rest item.outline.Fits := by
  rcases nextItem_cases h with ⟨c, hc, rfl⟩ | ⟨span, after, rfl, hnamespace⟩ | hitem
  · exact comment?_fits hc
  · obtain ⟨name, inner, body, closing, brace, hhead, hbody, hbrace, rfl⟩ := exists_of_namespaceAfter hnamespace
    obtain ⟨us, rfl, hname⟩ := namespaceHead_fits hhead
    obtain ⟨⟨_, left⟩, hitems, heq⟩ := Except.map_eq_ok_iff.mp hbody
    cases heq
    obtain ⟨vs, hvs, horder⟩ := items_fits hitems
    obtain ⟨u, hu, rfl⟩ := exists_of_expect hbrace
    let word : Located := ⟨.keyword .namespaceWord, span⟩
    refine ⟨word :: (us ++ (vs ++ [u])), by simp [hvs, hu, word], Outline.fits_node (.cons word (by simp)) ?_⟩
    exact Outline.InOrder.behind [word] (hname.append (horder.before [u]))
  · exact keywordItem_fits hitem

namespace TokenStream

open SchemaWire.Parser (Tokens startsWith)

variable {tokens : Array Located}

/-! ## Names and types -/

theorem name_agrees (context : ParseError.Context) (s : TokenStream tokens) :
    Agrees s (s.name context) (Parser.name context s.ahead) := by
  unfold name
  cases h : s.ahead with
  | nil => obtain hpeek | hpeek := peek_of_ahead_nil h <;> simpa [hpeek] using .refused _ h
  | cons t rest =>
    simp only [peek_of_ahead h, Parser.name]
    cases t.token.name? with
    | none => exact .refused _ h
    | some text => exact currentSpan_of_ahead h ▸ .step h _

theorem expect_agrees (mark : Mark) (s : TokenStream tokens) :
    Agrees s (s.expect mark) (Parser.expect mark s.ahead) := by
  rw [expect, check_eq_startsWith]
  cases h : s.ahead with
  | nil => exact .refused _ h
  | cons t rest =>
    simp only [startsWith, Parser.expect, decide_eq_true_eq]
    split
    · exact currentSpan_of_ahead h ▸ .step h _
    · exact .refused _ h

theorem segments_agrees (s : TokenStream tokens) : Agrees s (segments.run s) (Parser.moreSegments s.ahead) := by
  induction s using forward_induction with
  | h s ih =>
    cases hdot : startsWith .dot s.ahead with
    | false =>
      have hturn : segments.turn s = .ok (.leave, s) := by simp [segments, eat_of_not_startsWith hdot]
      rw [Loop.run_of_leave hturn, Parser.moreSegments_of_not_dot hdot]
      exact .done _
    | true =>
      obtain ⟨span, hahead⟩ := ahead_of_startsWith hdot
      have hturn : segments.turn s = (s.advance.name .pathSegment).map fun r => (.again r.1, r.2) := by
        simp [segments, eat_of_startsWith hdot]
      rw [Loop.run_of_again hturn, hahead, Parser.moreSegments_dot]
      refine .before (.advance hahead) (.bind (name_agrees _ _) fun i s' hreach hread hrun => ?_)
      exact (ih s' (Nat.lt_trans (pos_lt_advance_of_ahead hahead) (pos_lt_of_name hrun))).map_return _

theorem path_agrees (s : TokenStream tokens) : Agrees s s.path (Parser.path s.ahead) := by
  refine .bind (name_agrees _ _) fun first s₁ hfirst hname _ => ?_
  refine .bind (segments_agrees _) fun more s₂ hmore hsegments _ => ?_
  have hpath : Parser.path s.ahead = .ok (Parser.pathOf first more, s₂.ahead) := by
    simp only [Parser.path_eq, hname, bind, Except.bind, hsegments]
    rfl
  have hspan := (hfirst.trans hmore).spanFrom_of_fits (Parser.path_fits hpath)
  dsimp only
  rw [hspan]
  exact .done _

theorem literal_agrees (s : TokenStream tokens) : Agrees s s.literal (Parser.literal s.ahead) := by
  unfold literal
  cases h : s.ahead with
  | nil => obtain hpeek | hpeek := peek_of_ahead_nil h <;> simpa [hpeek] using .refused _ h
  | cons t rest =>
    obtain ⟨token, span⟩ := t
    simp only [peek_of_ahead h]
    cases token with
    | integer value => exact currentSpan_of_ahead h ▸ .step h _
    | _ => exact .refused _ h

theorem typeName_agrees (s : TokenStream tokens) : Agrees s s.typeName (Parser.typeName s.ahead) := by
  refine .bind (path_agrees _) fun p s₁ hfirst hpath _ => ?_
  simp only [check_eq_startsWith]
  cases hbracket : startsWith .leftBracket s₁.ahead with
  | false => exact .done _
  | true =>
    obtain ⟨span, hahead⟩ := ahead_of_startsWith hbracket
    rcases hsegments : p.segments with _ | ⟨base, _ | ⟨second, more⟩⟩
    · exact .refused _ rfl
    · simp only [if_true]
      have hadvance := Reaches.advance hahead
      rw [hahead, List.tail_cons]
      refine .before hadvance (.bind (literal_agrees _) fun size s₂ hsize hliteral _ => ?_)
      refine .bind (expect_agrees _ _) fun closing s₃ hclosing hexpect _ => ?_
      have htype : Parser.typeName s.ahead =
          .ok (.sized ⟨base, size, ⟨p.span.start, closing.stop⟩⟩, s₃.ahead) := by
        simp only [Parser.typeName, hpath, hsegments, hahead, List.tail_cons, hliteral, hexpect, bind, Except.bind]
        rfl
      have hspan := (hfirst.trans (hadvance.trans (hsize.trans hclosing))).spanFrom_of_fits (Parser.typeName_fits htype)
      dsimp only
      rw [hspan]
      exact .done _
    · exact .refused _ rfl

theorem propertyType_agrees (s : TokenStream tokens) : Agrees s s.propertyType (Parser.propertyType s.ahead) := by
  unfold propertyType
  split
  · rename_i hvector
    obtain ⟨span, hfirst⟩ := ahead_of_peek hvector.1 (by simp)
    obtain ⟨less, hsecond⟩ := ahead_of_peek ((peekNth_of_ahead hfirst 0).symm.trans hvector.2) (by simp)
    have hadvance := (Reaches.advance hfirst).trans (Reaches.advance hsecond)
    have hahead : s.ahead = ⟨.ident "Vector", span⟩ :: ⟨.mark .less, less⟩ :: s.advance.advance.ahead := by
      rw [hfirst, hsecond]
    rw [expect_of_ahead hsecond, hahead]
    refine .before hadvance (.bind (typeName_agrees _) fun item s₁ hitem htype _ => ?_)
    refine .bind (expect_agrees _ _) fun closing s₂ hclosing hexpect _ => ?_
    have hread : Parser.propertyType s.ahead = .ok (.vector ⟨item, ⟨span.start, closing.stop⟩⟩, s₂.ahead) := by
      simp only [hahead, Parser.propertyType, htype, hexpect, bind, Except.bind]
      rfl
    have hspan := (hadvance.trans (hitem.trans hclosing)).spanFrom_of_fits (Parser.propertyType_fits hread)
    dsimp only
    rw [hspan]
    exact .done _
  · rename_i hsingle
    rw [Parser.propertyType_single]
    · exact (typeName_agrees s).map _
    · rintro ⟨span, less, rest, hahead⟩
      refine hsingle ⟨peek_of_ahead hahead, ?_⟩
      exact (peekNth_of_ahead hahead 0).trans (peek_of_ahead (ahead_advance hahead))

theorem question_eq (s : TokenStream tokens) :
    Parser.question s.ahead = ((s.eat (.mark .question)).1, (s.eat (.mark .question)).2.ahead) := by
  unfold Parser.question
  cases h : startsWith .question s.ahead with
  | false => rw [eat_of_not_startsWith h]; rfl
  | true =>
    obtain ⟨span, hahead⟩ := ahead_of_startsWith h
    rw [eat_of_startsWith h, hahead]
    rfl

theorem property_agrees (s : TokenStream tokens) : Agrees s s.property (Parser.property s.ahead) := by
  refine .bind (name_agrees _ _) fun key s₁ hkey hname _ => ?_
  dsimp only
  rw [question_eq]
  have hquestion := Reaches.eat .question s₁
  refine .before hquestion (.bind (expect_agrees _ _) fun colon s₂ hcolon hexpect _ => ?_)
  refine .bind (propertyType_agrees _) fun type s₃ htype hread _ => ?_
  have hproperty : Parser.property s.ahead =
      .ok (⟨key, (s₁.eat (.mark .question)).1, type, ⟨key.span.start, type.span.stop⟩⟩, s₃.ahead) := by
    simp only [Parser.property, hname, question_eq, hexpect, hread, bind, Except.bind]
    rfl
  have hreach := hkey.trans (hquestion.trans (hcolon.trans htype))
  have hspan := hreach.spanFrom_of_fits (Parser.property_fits hproperty)
  dsimp only
  rw [hspan]
  exact .done _

/-! ## Comments -/

theorem words_agrees (s : TokenStream tokens) :
    Agrees s ((words.run s).map fun (texts, s') => (texts, s'.advance))
      ((Parser.dashWords s.ahead).map fun (texts, _, rest) => (texts, rest)) := by
  induction s using forward_induction with
  | h s ih =>
    cases h : s.ahead with
    | nil =>
      have hturn : words.turn s = .error (s.refusal (.mark .tripleDash)) := by
        obtain hpeek | hpeek := peek_of_ahead_nil h <;> simp [words, hpeek]
      rw [Loop.run_of_error hturn]
      exact .refused _ h
    | cons t rest =>
      by_cases hdash : t.token = .mark .tripleDash
      · have hturn : words.turn s = .ok (.leave, s) := by simp [words, peek_of_ahead h, hdash]
        rw [Loop.run_of_leave hturn, Parser.dashWords, if_pos hdash]
        exact .step h _
      · have hne := ne_eof_of_ahead h
        have hturn : words.turn s = (.ok (t.token.spelling, s.advance) : Except _ _).map fun r => (.again r.1, r.2) := by
          simp only [words, peek_of_ahead h]
          rfl
        have hrest := ((ih s.advance (pos_lt_advance_of_ahead h)).map (t.token.spelling :: ·)).before (.advance h)
        rw [ahead_advance h, Except.map_map, Except.map_map] at hrest
        rw [Loop.run_of_again hturn, Parser.dashWords, if_neg hdash, Except.map_map]
        simp only [bind, Except.bind]
        rw [Except.map_map]
        exact hrest

theorem dashBlock_agrees {s : TokenStream tokens} {span : Span} {rest : Tokens}
    (h : s.ahead = ⟨.mark .tripleDash, span⟩ :: rest) :
    Agrees s s.dashBlock ((Parser.dashWords rest).map fun (words, stop, rest) =>
      (⟨" ".intercalate words, ⟨span.start, stop⟩⟩, rest)) := by
  have hstream : s.dashBlock = ((words.run s.advance).map fun (texts, s') => (texts, s'.advance)) >>=
      fun (texts, next) => .ok (⟨" ".intercalate texts, next.spanFrom s.pos⟩, next) := by
    rw [dashBlock, expect_of_ahead h]
    simp only [bind, Except.bind]
    cases words.run s.advance <;> rfl
  have hlist : ((Parser.dashWords rest).map fun (words, stop, rest) =>
      ((⟨" ".intercalate words, ⟨span.start, stop⟩⟩ : Comment), rest)) = Parser.dashWords s.advance.ahead >>=
        fun (words, stop, rest) => .ok (⟨" ".intercalate words, ⟨span.start, stop⟩⟩, rest) := by
    rw [ahead_advance h]
    cases Parser.dashWords rest <;> rfl
  rw [hstream, hlist]
  have hadvance := Reaches.advance h
  refine .before hadvance (.bind_view (words_agrees _) ?_)
  rintro ⟨texts, stop, left⟩ s' hwords hread - rfl
  have hcomment : Parser.comment? s.ahead =
      .ok (some (⟨" ".intercalate texts, ⟨span.start, stop⟩⟩, s'.ahead)) := by
    rw [ahead_advance h] at hread
    simp only [h, Parser.comment?, hread]
    rfl
  have hspan := (hadvance.trans hwords).spanFrom_of_fits (Parser.comment?_fits hcomment)
  dsimp only
  rw [hspan]
  exact .done _

/-- Whether a comment comes next is seen alike, and what is read as one agrees. -/
theorem comment?_agrees (s : TokenStream tokens) :
    (s.comment? = .ok none ∧ Parser.comment? s.ahead = .ok none) ∨
      ∃ x y, s.comment? = x.map some ∧ Parser.comment? s.ahead = y.map some ∧ Agrees s x y := by
  unfold comment?
  cases h : s.ahead with
  | nil => exact .inl ⟨by obtain hpeek | hpeek := peek_of_ahead_nil h <;> rw [hpeek], rfl⟩
  | cons t rest =>
    obtain ⟨token, span⟩ := t
    rw [peek_of_ahead h]
    cases token with
    | comment text =>
      have hread : Agrees s (.ok (⟨text, s.currentSpan⟩, s.advance)) (.ok ((⟨text, span⟩ : Comment), rest)) :=
        currentSpan_of_ahead h ▸ .step h _
      exact .inr ⟨_, _, rfl, rfl, hread⟩
    | mark m =>
      cases m with
      | tripleDash => exact .inr ⟨_, _, rfl, by rw [Except.map_map]; rfl, dashBlock_agrees h⟩
      | _ => exact .inl ⟨rfl, rfl⟩
    | _ => exact .inl ⟨rfl, rfl⟩

theorem comments_agrees (s : TokenStream tokens) : Agrees s (comments.run s) (Parser.comments s.ahead) := by
  induction s using forward_induction with
  | h s ih =>
    obtain ⟨hstream, hlist⟩ | ⟨x, y, hstream, hlist, hagrees⟩ := comment?_agrees s
    · have hturn : comments.turn s = .ok (.leave, s) := by simp [comments, hstream]
      rw [Loop.run_of_leave hturn, Parser.comments_of_none hlist]
      exact .done _
    · cases hagrees with
      | error r =>
        have hturn : comments.turn s = .error (.ofRejection s.stop r) := by simp [comments, hstream, Except.map]
        rw [Loop.run_of_error hturn, Parser.comments_of_error hlist]
        exact .error r
      | @ok c s' hreach =>
        have hturn : comments.turn s = (.ok (c, s') : Except _ _).map fun r => (.again r.1, r.2) := by
          simp only [comments, hstream, Except.map]
        rw [Loop.run_of_again hturn, Parser.comments_of_some hlist]
        exact ((ih s' (pos_lt_of_comment? hstream)).map (c :: ·)).before hreach

/-! ## Bodies -/

theorem closedProperty_agrees (s : TokenStream tokens) :
    Agrees s s.closedProperty (Parser.closedProperty s.ahead) := by
  refine .bind (property_agrees _) fun p s₁ _ _ _ => ?_
  refine .bind (comments_agrees _) fun found s₂ _ _ _ => ?_
  dsimp only
  rw [check_eq_startsWith]
  split
  · exact .done _
  · exact .bind (expect_agrees _ _) fun semicolon s₃ _ _ _ => .done _

/-- A loop up to a closing brace: what a turn has read comes before what the next turns read. -/
theorem closed_of_again {α β : Type} {l : Loop tokens α} {s : TokenStream tokens}
    {found : Except ParseError (α × TokenStream tokens)} (h : l.turn s = found.map fun r => (.again r.1, r.2))
    (join : List α → List β) (front : α → List β → List β) (hjoin : ∀ a more, join (a :: more) = front a (join more)) :
    (do
      let (entries, next) ← l.run s
      let (_, next) ← next.expect .rightBrace
      return (join entries, next)) =
    found >>= fun (a, s') => (do
      let (entries, next) ← l.run s'
      let (_, next) ← next.expect .rightBrace
      return (join entries, next)).map fun (more, next) => (front a more, next) := by
  rw [Loop.run_of_again h]
  cases found with
  | error e => rfl
  | ok found =>
    simp only [bind, Except.bind]
    cases l.run found.2 with
    | error e => rfl
    | ok more =>
      simp only [Except.map]
      cases more.2.expect .rightBrace with
      | error e => rfl
      | ok brace => exact congrArg (fun entries => Except.ok (entries, brace.2)) (hjoin _ _)

theorem bracedRest_of_again {s : TokenStream tokens} {found : Except ParseError (List BodyEntry × TokenStream tokens)}
    (h : bracedEntries.turn s = found.map fun r => (.again r.1, r.2)) :
    s.bracedRest = found >>= fun (entries, s') => s'.bracedRest.map fun (more, next) => (entries ++ more, next) := by
  exact closed_of_again h List.flatten (· ++ ·) fun _ _ => rfl

theorem bracedRest_agrees (s : TokenStream tokens) :
    Agrees s s.bracedRest ((Parser.braceEntries true s.ahead).map fun (entries, _, rest) => (entries, rest)) := by
  induction s using forward_induction with
  | h s ih =>
    cases hbrace : startsWith .rightBrace s.ahead with
    | true =>
      obtain ⟨span, hahead⟩ := ahead_of_startsWith hbrace
      have hturn : bracedEntries.turn s = .ok (.leave, s) := by simp [bracedEntries, check_eq_startsWith, hbrace]
      rw [bracedRest, Loop.run_of_leave hturn, hahead, Parser.braceEntries_rightBrace]
      simp only [bind, Except.bind, expect_of_ahead hahead]
      exact .step hahead _
    | false =>
      -- What a turn has read comes before what the next turns read.
      have hagain {entries : List BodyEntry} {s' : TokenStream tokens} (hlt : s.pos < s'.pos) :
          Agrees s' (s'.bracedRest.map fun (more, next) => (entries ++ more, next))
            (((Parser.braceEntries true s'.ahead).map (Parser.inFront entries)).map fun (more, _, rest) => (more, rest)) := by
        have hrest := (ih s' hlt).map (entries ++ ·)
        rw [Except.map_map] at hrest ⊢
        exact hrest
      obtain ⟨hstream, hlist⟩ | ⟨x, y, hstream, hlist, hagrees⟩ := comment?_agrees s
      · by_cases hend : s.ahead = []
        · have hturn : bracedEntries.turn s = .error (s.refusal (.mark .rightBrace)) := by
            simp [bracedEntries, check_eq_startsWith, hbrace, hstream, atEnd_iff.mpr hend]
          rw [bracedRest, Loop.run_of_error hturn, Parser.braceEntries_eq hbrace, hlist]
          simp only [bind, Except.bind, if_true, if_pos hend]
          exact .refused _ hend
        · have hturn : bracedEntries.turn s = s.closedProperty.map fun r => (.again r.1, r.2) := by
            simp [bracedEntries, check_eq_startsWith, hbrace, hstream, atEnd_iff, hend]
          rw [bracedRest_of_again hturn, Parser.braceEntries_closedProperty hlist hbrace hend, Except.map_bind]
          exact .bind (closedProperty_agrees s) fun entries s' _ _ hread => hagain (pos_lt_of_closedProperty hread)
      · rw [Parser.braceEntries_eq hbrace, hlist]
        cases hagrees with
        | error r =>
          have hturn : bracedEntries.turn s = .error (.ofRejection s.stop r) := by
            simp [bracedEntries, check_eq_startsWith, hbrace, hstream, Except.map]
          rw [bracedRest, Loop.run_of_error hturn]
          exact .error r
        | @ok c s' hreach =>
          have hturn : bracedEntries.turn s =
              (.ok ([.comment c], s') : Except _ _).map fun r => (.again r.1, r.2) := by
            simp [bracedEntries, check_eq_startsWith, hbrace, hstream, Except.map]
          rw [bracedRest_of_again hturn]
          exact (hagain (pos_lt_of_comment? hstream)).before hreach

theorem bracedBody_of_ahead {s : TokenStream tokens} {span : Span} {rest : Tokens}
    (h : s.ahead = ⟨.mark .leftBrace, span⟩ :: rest) : s.bracedBody = s.advance.bracedRest := by
  rw [bracedBody, expect_of_ahead h]
  rfl

theorem arrowRest_eq (s : TokenStream tokens) :
    s.arrowRest = comments.run s >>= fun (cs, s₁) => s₁.property >>= fun (p, s₂) =>
      if s₂.check (.mark .comma) then
        s₂.advance.arrowRest.map fun (more, next) => (cs.map .comment ++ .property p :: more, next)
      else .ok (cs.map .comment ++ [.property p], (s₂.eat (.mark .semicolon)).2) := by
  rw [arrowRest, arrowEntries, Loop.run_separated, commentedProperty]
  simp only [bind, Except.bind]
  cases comments.run s with
  | error e => rfl
  | ok found =>
    simp only
    cases found.2.property with
    | error e => rfl
    | ok last =>
      cases hcomma : last.2.check (.mark .comma) with
      | false => simp [hcomma, pure, Except.pure]
      | true =>
        simp only [hcomma, arrowRest, arrowEntries, bind, Except.bind, pure, Except.pure, if_true]
        cases (Loop.separated commentedProperty pos_lt_of_commentedProperty).run last.2.advance with
        | error e => rfl
        | ok more => simp [Except.map]

theorem arrowRest_agrees (s : TokenStream tokens) :
    Agrees s s.arrowRest ((Parser.arrowEntries s.ahead).map fun (entries, _, rest) => (entries, rest)) := by
  induction s using forward_induction with
  | h s ih =>
    rw [arrowRest_eq, Parser.arrowEntries_comments, Except.map_bind]
    refine .bind (comments_agrees _) fun cs s₁ _ _ hcomments => ?_
    rw [Except.map_bind]
    refine .bind (property_agrees _) fun p s₂ _ _ hproperty => ?_
    dsimp only
    rw [check_eq_startsWith]
    cases hcomma : startsWith .comma s₂.ahead with
    | true =>
      obtain ⟨span, hahead⟩ := ahead_of_startsWith hcomma
      have hlt : s.pos < s₂.advance.pos := by
        have := Loop.pos_le_of_run hcomments
        have := pos_lt_of_property hproperty
        have := s₂.pos_le_advance
        omega
      have hrest := ((ih _ hlt).map (cs.map .comment ++ .property p :: ·)).before (.advance hahead)
      rw [Except.map_map] at hrest
      simp only [hahead, Parser.arrowAfter]
      rw [Except.map_map, Except.map_map]
      exact hrest
    | false =>
      cases hsemicolon : startsWith .semicolon s₂.ahead with
      | true =>
        obtain ⟨span, hahead⟩ := ahead_of_startsWith hsemicolon
        rw [eat_of_startsWith hsemicolon, hahead]
        exact .step hahead _
      | false =>
        rw [eat_of_not_startsWith hsemicolon, Parser.arrowAfter_last p hcomma hsemicolon]
        exact .done _

theorem arrowBody_agrees {s : TokenStream tokens} {span : Span} {rest : Tokens} (stop : Nat)
    (h : s.ahead = ⟨.mark .arrow, span⟩ :: rest) :
    Agrees s s.arrowBody ((Parser.containerBody stop s.ahead).map fun (entries, _, rest) => (entries, rest)) := by
  rw [arrowBody, expect_of_ahead h, h, ← ahead_advance h]
  simp only [bind, Except.bind]
  refine .before (.advance h) ?_
  cases hsemicolon : startsWith .semicolon s.advance.ahead with
  | true =>
    obtain ⟨span', hnext⟩ := ahead_of_startsWith hsemicolon
    rw [eat_of_startsWith hsemicolon, hnext]
    exact .step hnext _
  | false =>
    rw [eat_of_not_startsWith hsemicolon, Parser.containerBody_arrow stop span hsemicolon]
    exact arrowRest_agrees _

theorem containerBody_agrees (stop : Nat) (s : TokenStream tokens) :
    Agrees s s.containerBody ((Parser.containerBody stop s.ahead).map fun (entries, _, rest) => (entries, rest)) := by
  unfold containerBody
  split
  · rename_i hpeek
    obtain ⟨span, hahead⟩ := ahead_of_peek hpeek (by simp)
    rw [bracedBody_of_ahead hahead, hahead]
    exact (bracedRest_agrees _).before (.advance hahead)
  · rename_i hpeek
    obtain ⟨span, hahead⟩ := ahead_of_peek hpeek (by simp)
    exact arrowBody_agrees stop hahead
  · rename_i hbrace harrow
    have hnot {m : Mark} (h : s.peek = some (.mark m) → False) : startsWith m s.ahead = false := by
      rw [← check_eq_startsWith, ← Bool.not_eq_true, check_mark]
      exact h
    cases hsemicolon : startsWith .semicolon s.ahead with
    | true =>
      obtain ⟨span, hahead⟩ := ahead_of_startsWith hsemicolon
      rw [eat_of_startsWith hsemicolon, hahead]
      exact .step hahead _
    | false =>
      rw [eat_of_not_startsWith hsemicolon, Parser.containerBody_none stop (hnot hbrace) (hnot harrow) hsemicolon]
      exact .done _

/-! ## Type groups -/

theorem groupContainer_agrees (s : TokenStream tokens) :
    Agrees s s.groupContainer (Parser.groupContainer s.ahead) := by
  refine .bind (path_agrees _) fun name s₁ hfirst hpath _ => ?_
  refine .bind_view (containerBody_agrees name.span.stop _) ?_
  rintro ⟨body, stop, left⟩ s₂ hbody hread - rfl
  have hcontainer : Parser.groupContainer s.ahead = .ok (⟨name, body, ⟨name.span.start, stop⟩⟩, s₂.ahead) := by
    simp only [Parser.groupContainer, hpath, hread, bind, Except.bind]
    rfl
  have hspan := (hfirst.trans hbody).spanFrom_of_fits (Parser.groupContainer_fits hcontainer)
  dsimp only
  rw [hspan]
  exact .done _

theorem member_agrees (s : TokenStream tokens) : Agrees s s.member (Parser.nextMember s.ahead) := by
  obtain ⟨hstream, hlist⟩ | ⟨x, y, hstream, hlist, hagrees⟩ := comment?_agrees s
  · rw [member, hstream, Parser.nextMember, hlist]
    simp only [bind, Except.bind]
    by_cases hend : s.ahead = []
    · rw [if_pos (atEnd_iff.mpr hend), if_pos hend]
      exact .refused _ hend
    · rw [if_neg (fun h => hend (atEnd_iff.mp h)), if_neg hend]
      exact (groupContainer_agrees s).map _
  · rw [member, hstream, Parser.nextMember, hlist]
    cases hagrees with
    | error r => exact .error r
    | ok hreach => exact .ok hreach

theorem membersRest_of_again {s : TokenStream tokens} {found : Except ParseError (GroupMember × TokenStream tokens)}
    (h : members.turn s = found.map fun r => (.again r.1, r.2)) :
    s.membersRest = found >>= fun (m, s') => s'.membersRest.map fun (more, next) => (m :: more, next) := by
  exact closed_of_again h id (· :: ·) fun _ _ => rfl

theorem membersRest_agrees (s : TokenStream tokens) :
    Agrees s s.membersRest ((Parser.members s.ahead).map fun (ms, _, rest) => (ms, rest)) := by
  induction s using forward_induction with
  | h s ih =>
    cases hbrace : startsWith .rightBrace s.ahead with
    | true =>
      obtain ⟨span, hahead⟩ := ahead_of_startsWith hbrace
      have hturn : members.turn s = .ok (.leave, s) := by simp [members, check_eq_startsWith, hbrace]
      rw [membersRest, Loop.run_of_leave hturn, hahead, Parser.members_rightBrace]
      simp only [bind, Except.bind, expect_of_ahead hahead]
      exact .step hahead _
    | false =>
      have hturn : members.turn s = s.member.map fun r => (.again r.1, r.2) := by
        simp [members, check_eq_startsWith, hbrace]
      rw [membersRest_of_again hturn, Parser.members_nextMember hbrace, Except.map_bind]
      refine .bind (member_agrees s) fun m s' _ _ hread => ?_
      have hrest := (ih s' (pos_lt_of_member hread)).map (m :: ·)
      rw [Except.map_map] at hrest ⊢
      exact hrest

theorem paths_agrees (s : TokenStream tokens) : Agrees s (paths.run s) (Parser.paths s.ahead) := by
  induction s using forward_induction with
  | h s ih =>
    rw [paths, Loop.run_separated, Parser.paths_eq]
    refine .bind (path_agrees s) fun p s₁ _ _ hpath => ?_
    dsimp only
    rw [check_eq_startsWith]
    cases hcomma : startsWith .comma s₁.ahead with
    | true =>
      obtain ⟨span, hahead⟩ := ahead_of_startsWith hcomma
      have hlt := Nat.lt_trans (pos_lt_of_path hpath) (pos_lt_advance_of_ahead hahead)
      rw [hahead]
      exact ((ih _ hlt).map (p :: ·)).before (.advance hahead)
    | false =>
      rw [Parser.pathsAfter_last p hcomma]
      exact .done _

theorem implemented_agrees (s : TokenStream tokens) : Agrees s s.implemented (Parser.implemented s.ahead) := by
  unfold implemented
  by_cases hpeek : s.peek = some (.keyword .implementsWord)
  · obtain ⟨span, hahead⟩ := ahead_of_peek hpeek (by simp)
    rw [eat, if_pos (check_keyword.mpr hpeek), hahead]
    exact (paths_agrees _).before (.advance hahead)
  · rw [eat, if_neg fun h => hpeek (check_keyword.mp h)]
    have hnone : Parser.implemented s.ahead = .ok ([], s.ahead) := by
      unfold Parser.implemented
      split
      · rename_i span rest hahead
        exact absurd (peek_of_ahead hahead) hpeek
      · rfl
    rw [hnone]
    exact .done _

theorem typeGroup_agrees {s : TokenStream tokens} {word : Located} {rest : Tokens} (h : s.ahead = word :: rest) :
    Agrees s s.typeGroup (Parser.typeGroup word.span.start rest) := by
  have hadvance := Reaches.advance h
  rw [← ahead_advance h]
  refine .before hadvance (.bind (name_agrees _ _) fun name s₁ hfirst hname _ => ?_)
  refine .bind (implemented_agrees _) fun traits s₂ htraits himplemented _ => ?_
  refine .bind (expect_agrees _ _) fun brace s₃ hbrace hexpect _ => ?_
  refine .bind_view (membersRest_agrees _) ?_
  rintro ⟨body, stop, left⟩ s₄ hbody hmembers - rfl
  have hgroup : Parser.typeGroup word.span.start s.advance.ahead =
      .ok (⟨name, traits, body, ⟨word.span.start, stop⟩⟩, s₄.ahead) := by
    simp only [Parser.typeGroup, hname, himplemented, hexpect, hmembers, bind, Except.bind]
    rfl
  have hfits := Parser.typeGroup_fits hgroup
  rw [ahead_advance h, ← h] at hfits
  have hspan := (hadvance.trans (hfirst.trans (htraits.trans (hbrace.trans hbody)))).spanFrom_of_fits hfits
  dsimp only
  rw [hspan]
  exact .done _

/-! ## Aliases, traits and declarations -/

theorem aliasDecl_agrees {s : TokenStream tokens} {word : Located} {rest : Tokens} (h : s.ahead = word :: rest) :
    Agrees s s.aliasDecl (Parser.aliasDecl word.span.start rest) := by
  have hadvance := Reaches.advance h
  rw [← ahead_advance h, Parser.aliasDecl_eq]
  refine .before hadvance (.bind (name_agrees _ _) fun name s₁ hfirst hname _ => ?_)
  refine .bind (expect_agrees _ _) fun equals s₂ hequals hexpect _ => ?_
  refine .bind (typeName_agrees _) fun target s₃ htarget htype _ => ?_
  obtain ⟨stop, hafter⟩ : ∃ stop, Parser.aliasAfter word.span.start name target s₃.ahead =
      .ok (⟨name, target, ⟨word.span.start, stop⟩⟩, (s₃.eat (.mark .semicolon)).2.ahead) := by
    cases hsemicolon : startsWith .semicolon s₃.ahead with
    | true =>
      obtain ⟨span, hahead⟩ := ahead_of_startsWith hsemicolon
      exact ⟨span.stop, by rw [eat_of_startsWith hsemicolon, hahead]; rfl⟩
    | false => exact ⟨_, by rw [eat_of_not_startsWith hsemicolon, Parser.aliasAfter_last _ _ _ hsemicolon]⟩
  have halias : Parser.aliasDecl word.span.start s.advance.ahead =
      .ok (⟨name, target, ⟨word.span.start, stop⟩⟩, (s₃.eat (.mark .semicolon)).2.ahead) := by
    simp only [Parser.aliasDecl_eq, hname, hexpect, htype, hafter, bind, Except.bind]
  have hfits := Parser.aliasDecl_fits halias
  rw [ahead_advance h, ← h] at hfits
  have hlast := Reaches.eat .semicolon s₃
  have hspan := (hadvance.trans (hfirst.trans (hequals.trans (htarget.trans hlast)))).spanFrom_of_fits hfits
  dsimp only
  rw [hafter, hspan]
  exact .ok hlast

theorem traitBody_agrees (start : Nat) (name : Identifier) (s : TokenStream tokens) :
    Agrees s s.traitBody ((Parser.traitAfter start name s.ahead).map fun (d, rest) => (d.body, rest)) := by
  unfold traitBody
  split
  · rename_i hpeek
    obtain ⟨span, hahead⟩ := ahead_of_peek hpeek (by simp)
    have hrest := (bracedRest_agrees _).before (.advance hahead)
    rw [bracedBody_of_ahead hahead, hahead, Parser.traitAfter, Except.map_map]
    exact hrest
  · rename_i hpeek
    obtain ⟨span, hahead⟩ := ahead_of_peek hpeek (by simp)
    rw [hahead]
    exact .step hahead _
  · rename_i hbrace hsemicolon
    have hnone : Parser.traitAfter start name s.ahead = .error ⟨.context .afterTraitName, s.ahead⟩ := by
      unfold Parser.traitAfter
      split
      · rename_i hahead
        exact absurd (peek_of_ahead hahead) hbrace
      · rename_i hahead
        exact absurd (peek_of_ahead hahead) hsemicolon
      · rfl
    rw [hnone]
    exact .refused _ rfl

theorem traitDecl_agrees {s : TokenStream tokens} {word : Located} {rest : Tokens} (h : s.ahead = word :: rest) :
    Agrees s s.traitDecl (Parser.traitDecl word.span.start rest) := by
  have hadvance := Reaches.advance h
  rw [← ahead_advance h, Parser.traitDecl_eq]
  refine .before hadvance (.bind (name_agrees _ _) fun name s₁ hfirst hname _ => ?_)
  dsimp only
  rw [← bind_pure (Parser.traitAfter word.span.start name s₁.ahead)]
  refine .bind_view (traitBody_agrees word.span.start name s₁) ?_
  rintro ⟨d, left⟩ s₂ hbody hread - rfl
  obtain rfl := Parser.name_of_traitAfter hread
  have htrait : Parser.traitDecl word.span.start s.advance.ahead = .ok (d, s₂.ahead) := by
    simp only [Parser.traitDecl_eq, hname, hread, bind, Except.bind]
  have hfits := Parser.traitDecl_fits htrait
  rw [ahead_advance h, ← h] at hfits
  have hspan := (hadvance.trans (hfirst.trans hbody)).spanFrom_of_fits hfits
  dsimp only
  rw [hspan]
  exact .done _

theorem declarationNames_agrees (s : TokenStream tokens) :
    Agrees s s.declarationNames
      ((Parser.declarationNames s.ahead).map fun (ctor, name, _, rest) => ((ctor, name), rest)) := by
  rw [Parser.declarationNames, Except.map_bind]
  refine .bind (path_agrees s) fun first s₁ _ _ _ => ?_
  dsimp only
  cases hcolon : startsWith .colon s₁.ahead with
  | true =>
    obtain ⟨span, hahead⟩ := ahead_of_startsWith hcolon
    rw [eat_of_startsWith hcolon, hahead, if_pos rfl, List.tail_cons, Except.map_bind]
    refine .before (.advance hahead) (.bind (path_agrees _) fun name s₂ _ _ _ => ?_)
    exact .done (first, name)
  | false =>
    rw [eat_of_not_startsWith hcolon, if_neg (by simp), Except.map_bind]
    refine .bind (path_agrees _) fun ctor s₂ _ _ _ => ?_
    exact .done (ctor, first)

theorem declaration_agrees (s : TokenStream tokens) : Agrees s s.declaration (Parser.declaration s.ahead) := by
  refine .bind_view (declarationNames_agrees s) ?_
  rintro ⟨ctor, name, before, left⟩ s₁ hfirst hnames - rfl
  refine .bind_view (containerBody_agrees before _) ?_
  rintro ⟨body, stop, left⟩ s₂ hbody hread - rfl
  have hdeclaration : Parser.declaration s.ahead =
      .ok (⟨ctor, name, body, ⟨Parser.startOf s.ahead, stop⟩⟩, s₂.ahead) := by
    simp only [Parser.declaration, hnames, hread, bind, Except.bind]
    rfl
  have hspan := (hfirst.trans hbody).spanFrom_of_fits (Parser.declaration_fits hdeclaration)
  dsimp only
  rw [hspan]
  exact .done _

/-! ## Items -/

theorem startsGroup_eq {s : TokenStream tokens} {word : Located} {rest : Tokens} (h : s.ahead = word :: rest) :
    s.startsGroup = Parser.startsGroup rest := by
  have hfirst : s.peekNth 1 = s.advance.peek := peekNth_of_ahead h 0
  rw [startsGroup, hfirst]
  cases hrest : s.advance.ahead with
  | nil =>
    obtain rfl : rest = [] := (ahead_advance h).symm.trans hrest
    obtain hpeek | hpeek := peek_of_ahead_nil hrest <;> rw [hpeek] <;> rfl
  | cons u more =>
    have hsecond : s.peekNth 2 = s.advance.advance.peek := (peekNth_of_ahead h 1).trans (peekNth_of_ahead hrest 0)
    obtain rfl : rest = u :: more := (ahead_advance h).symm.trans hrest
    rw [hsecond, peek_of_ahead hrest]
    cases hmore : s.advance.advance.ahead with
    | nil =>
      obtain rfl : more = [] := (ahead_advance hrest).symm.trans hmore
      obtain hpeek | hpeek := peek_of_ahead_nil hmore <;> simp [hpeek, Parser.startsGroup]
    | cons v last =>
      obtain rfl : more = v :: last := (ahead_advance hrest).symm.trans hmore
      simp [peek_of_ahead hmore, Parser.startsGroup]

theorem keywordItem_agrees (s : TokenStream tokens) : Agrees s s.keywordItem (Parser.keywordItem s.ahead) := by
  unfold keywordItem
  cases h : s.ahead with
  | nil => obtain hpeek | hpeek := peek_of_ahead_nil h <;> rw [hpeek] <;> exact .refused _ h
  | cons t rest =>
    simp only [peek_of_ahead h, startsGroup_eq h, Parser.keywordItem]
    split
    · exact (typeGroup_agrees h).map _
    split
    · exact (aliasDecl_agrees h).map _
    split
    · exact (traitDecl_agrees h).map _
    split
    · exact h ▸ (declaration_agrees s).map _
    · exact .refused _ h

theorem namespaceHead_agrees {s : TokenStream tokens} {word : Located} {rest : Tokens} (h : s.ahead = word :: rest) :
    Agrees s s.namespaceHead (Parser.namespaceHead rest) := by
  rw [← ahead_advance h]
  refine .before (.advance h) (.bind (name_agrees _ _) fun name s₁ _ _ _ => ?_)
  exact .bind (expect_agrees _ _) fun brace s₂ _ _ _ => .done _

/-- An item agrees if the items of the namespaces that begin behind the stream do. -/
theorem nextItem_agrees_of_blockItems {s : TokenStream tokens}
    (h : ∀ s' : TokenStream tokens, s.pos < s'.pos → Agrees s' (blockItems.run s') (Parser.readItems true s'.ahead)) :
    Agrees s s.nextItem (Parser.nextItem s.ahead) := by
  rw [nextItem_eq]
  obtain ⟨hstream, hlist⟩ | ⟨x, y, hstream, hlist, hagrees⟩ := comment?_agrees s
  · rw [hstream]
    dsimp only
    by_cases hword : s.peek = some (.keyword .namespaceWord)
    · obtain ⟨span, hahead⟩ := ahead_of_peek hword (by simp)
      rw [if_pos hword, hahead, Parser.nextItem, Parser.namespaceAfter]
      refine .bind (namespaceHead_agrees hahead) fun name s₁ hhead hname hread => ?_
      dsimp only
      rw [Parser.block, Except.map_bind]
      refine .bind (h s₁ (pos_lt_of_namespaceHead hread)) fun body s₂ hbody hitems _ => ?_
      dsimp only
      rw [Except.map_map, Except.map_eq_bind]
      refine .bind (expect_agrees _ _) fun brace s₃ hbrace hexpect _ => ?_
      have hitem : Parser.nextItem s.ahead = .ok (.namespaceBlock name body ⟨span.start, brace.stop⟩, s₃.ahead) := by
        simp only [hahead, Parser.nextItem, Parser.namespaceAfter, Parser.block, hname, hitems, hexpect, bind, Except.bind]
        rfl
      have hspan := (hhead.trans (hbody.trans hbrace)).spanFrom_of_fits (Parser.nextItem_fits hitem)
      dsimp only
      rw [hspan]
      exact .done _
    · rw [if_neg hword]
      have hlist' : Parser.nextItem s.ahead = Parser.keywordItem s.ahead := by
        cases hahead : s.ahead with
        | nil => rfl
        | cons t rest =>
          rw [hahead] at hlist
          refine Parser.nextItem_of_none hlist fun htoken => hword ?_
          rw [peek_of_ahead hahead, htoken]
      rw [hlist']
      exact keywordItem_agrees s
  · rw [hstream]
    cases hagrees with
    | error r =>
      rw [Parser.nextItem_of_comment?_error hlist]
      exact .error r
    | ok hreach =>
      rw [Parser.nextItem_of_comment? hlist]
      exact .ok hreach

theorem blockItems_agrees (s : TokenStream tokens) :
    Agrees s (blockItems.run s) (Parser.readItems true s.ahead) := by
  induction s using forward_induction with
  | h s ih =>
    by_cases hbrace : s.check (.mark .rightBrace) = true
    · obtain ⟨span, hahead⟩ := ahead_of_startsWith (check_eq_startsWith _ ▸ hbrace)
      have hturn : blockItems.turn s = .ok (.leave, s) := by simp [blockItems, hbrace]
      rw [Loop.run_of_leave hturn, hahead, Parser.readItems_rightBrace, ← hahead]
      exact .done _
    cases hahead : s.ahead with
    | nil =>
      have hturn : blockItems.turn s = .error (s.refusal (.mark .rightBrace)) := by
        simp [blockItems, hbrace, atEnd_iff.mpr hahead]
      rw [Loop.run_of_error hturn, Parser.readItems_unclosed]
      exact .refused _ hahead
    | cons t rest =>
      have hturn : blockItems.turn s = s.nextItem.map fun r => (.again r.1, r.2) := by
        simp [blockItems, hbrace, atEnd_iff, hahead]
      have hclosing : t.token ≠ .mark .rightBrace := by
        simpa [check_mark, peek_of_ahead hahead] using hbrace
      rw [Loop.run_of_again hturn, Parser.readItems_cons fun _ => hclosing, ← hahead]
      refine .bind (nextItem_agrees_of_blockItems ih) fun found s' _ _ hread => ?_
      exact (ih s' (pos_lt_of_nextItem hread)).map (found :: ·)

theorem nextItem_agrees (s : TokenStream tokens) : Agrees s s.nextItem (Parser.nextItem s.ahead) :=
  nextItem_agrees_of_blockItems fun s' _ => blockItems_agrees s'

theorem items_agrees (s : TokenStream tokens) : Agrees s (items.run s) (Parser.readItems false s.ahead) := by
  induction s using forward_induction with
  | h s ih =>
    cases hahead : s.ahead with
    | nil =>
      have hturn : items.turn s = .ok (.leave, s) := by simp [items, atEnd_iff.mpr hahead]
      rw [Loop.run_of_leave hturn, Parser.readItems_nil, ← hahead]
      exact .done _
    | cons t rest =>
      have hturn : items.turn s = s.nextItem.map fun r => (.again r.1, r.2) := by
        simp [items, atEnd_iff, hahead]
      rw [Loop.run_of_again hturn, Parser.readItems_false_cons, ← hahead]
      refine .bind (nextItem_agrees s) fun found s' _ _ hread => ?_
      exact (ih s' (pos_lt_of_nextItem hread)).map (found :: ·)

end TokenStream

/-- The tree of tokens is read from the ones before their end. The others show in its root and in the place of an error. -/
theorem Schema.ofTokens_eq_readItems (tokens : List Located) :
    Schema.ofTokens tokens = match Parser.readItems false (Located.beforeEof tokens) with
      | .ok (body, _) => .ok ⟨body, ⟨0, (tokens.getLast?.map (·.span.stop)).getD 0⟩⟩
      | .error r => .error (.ofRejection (Located.endSpan tokens) r) := by
  have hagrees := TokenStream.items_agrees (.ofTokens tokens.toArray)
  rw [TokenStream.ahead_ofTokens] at hagrees
  unfold Schema.ofTokens
  generalize TokenStream.items.run (.ofTokens tokens.toArray) = x at hagrees ⊢
  generalize Parser.readItems false (Located.beforeEof tokens) = y at hagrees ⊢
  cases hagrees with
  | error r => rw [TokenStream.stop_ofTokens]; rfl
  | ok hreach => rfl

namespace Parser

variable {tokens : List Located}

theorem ofTokens_of_readItems {rest : Tokens} {body : List Item}
    (h : readItems false (Located.beforeEof tokens) = .ok (body, rest)) :
    Schema.ofTokens tokens = .ok ⟨body, ⟨0, (tokens.getLast?.map (·.span.stop)).getD 0⟩⟩ := by
  rw [Schema.ofTokens_eq_readItems, h]

theorem ofTokens_eq_error_iff {e : ParseError} :
    Schema.ofTokens tokens = .error e ↔
      ∃ r, readItems false (Located.beforeEof tokens) = .error r ∧ .ofRejection (Located.endSpan tokens) r = e := by
  rw [Schema.ofTokens_eq_readItems]
  cases readItems false (Located.beforeEof tokens) <;> simp

theorem exists_of_ofTokens {s : Schema} (h : Schema.ofTokens tokens = .ok s) :
    ∃ left, items false (Located.beforeEof tokens) = .ok (s.body, left) := by
  rw [Schema.ofTokens_eq_readItems] at h
  split at h
  · rename_i body rest hread
    obtain ⟨⟨body', left⟩, hitems, heq⟩ := exists_of_map_eq_ok hread
    cases heq
    cases h
    exact ⟨left, hitems⟩
  · cases h

end Parser

end SchemaWire
