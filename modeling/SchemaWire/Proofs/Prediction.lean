import SchemaWire.Proofs.Decided

/-!
# The parser sees what comes next

Every reader of the parser decides by the next token (`decided_…`), and what it needs to be told what to read is
something that no reader before it would have gone on with (`opens_…`). A reader that only looks whether one of the
marks that it goes on with comes next is `done`; loops are read by induction on the number of tokens.
-/

namespace SchemaWire.Parser

variable {α ρ : Type} {mk : α → Tokens → ρ} {loud avoided : List Token} {tokens rest others : Tokens} {t : Located}
  {span : Span}

/-! ## Names and types -/

theorem opens_name (context : ParseError.Context) (havoided : .ident "x" ∉ avoided) :
    Opens avoided loud Prod.mk (name context) :=
  .take (.ident "x") ⟨"x", ⟨0, 0⟩⟩ (fun _ => rfl) (by simp) havoided

theorem decided_name (context : ParseError.Context) (tokens : Tokens) : Decided Prod.mk [] (name context) tokens := by
  cases tokens with
  | nil => exact .refuse_nil (.context context) rfl (by simp) (opens_name context (by simp))
  | cons t rest =>
    cases hname : t.token.name? with
    | none => exact .refuse_cons (.context context) (fun more => by simp [name, hname]) (opens_name context (by simp))
    | some text => exact .take ⟨text, t.span⟩ fun others => by simp [name, hname]

theorem opens_expect (mark : Mark) (havoided : .mark mark ∉ avoided) : Opens avoided loud Prod.mk (expect mark) :=
  .take (.mark mark) ⟨0, 0⟩ (fun _ => by simp [expect]) (by simp) havoided

theorem decided_expect (mark : Mark) (tokens : Tokens) : Decided Prod.mk [] (expect mark) tokens := by
  cases tokens with
  | nil => exact .refuse_nil (.mark mark) rfl (by simp) (opens_expect mark (by simp))
  | cons t rest =>
    by_cases hmark : t.token = .mark mark
    · exact .take t.span fun others => by simp [expect, hmark]
    · exact .refuse_cons (.mark mark) (fun more => by simp [expect, hmark]) (opens_expect mark (by simp))

theorem decided_literal (tokens : Tokens) : Decided Prod.mk [] literal tokens := by
  have hopen : Opens [] [] Prod.mk literal :=
    .take (.integer 0) ⟨0, ⟨0, 0⟩⟩ (fun _ => rfl) (by simp) (by simp)
  cases tokens with
  | nil => exact .refuse_nil (.context .size) rfl (by simp) hopen
  | cons t rest =>
    obtain ⟨token, span⟩ := t
    cases token with
    | integer value => exact .take ⟨value, span⟩ fun _ => rfl
    | _ => exact .refuse_cons (.context .size) (fun _ => rfl) hopen

theorem opens_moreSegments (hloud : .mark .dot ∈ loud) : Opens avoided loud Prod.mk moreSegments :=
  .done [] fun _ h => moreSegments_of_not_dot (h.startsWith_eq_false hloud)

theorem decided_moreSegments (tokens : Tokens) : Decided Prod.mk [.mark .dot] moreSegments tokens := by
  induction hn : tokens.length using Nat.strongRecOn generalizing tokens with
  | ind n ih =>
    subst hn
    by_cases hdot : startsWith .dot tokens = true
    · obtain ⟨span, rest, rfl⟩ := exists_of_startsWith hdot
      refine .cons (moreSegments_dot span) ?_
      refine (decided_name .pathSegment rest).bind (by simp) ?_ ?_
      · intro i left hname
        have hshorter := length_of_name hname
        exact (ih _ (by simp; omega) left rfl).bind_done (i :: ·) fun _ _ => rfl
      · exact fun i => (opens_moreSegments (by simp)).bind_done (i :: ·) fun _ _ => rfl
    · rw [Bool.not_eq_true] at hdot
      exact .done [] fun others h => moreSegments_of_not_dot (startsWith_eq_false_of_near h (by simp) hdot)

theorem opens_path (hloud : .mark .dot ∈ loud) (havoided : .ident "x" ∉ avoided) : Opens avoided loud Prod.mk path :=
  .cons (.ident "x") (fun others => path_cons rfl others)
    ((opens_moreSegments hloud).map (pathOf ⟨"x", ⟨0, 0⟩⟩) fun _ _ => rfl) (by simp) havoided

theorem decided_path_cons {text : String} (hname : t.token.name? = some text) (rest : Tokens) :
    Decided Prod.mk [.mark .dot] (fun others => path (t :: others)) rest := by
  simp only [path_cons hname]
  exact (decided_moreSegments rest).map (pathOf ⟨text, t.span⟩) fun _ _ => rfl

theorem decided_path (tokens : Tokens) : Decided Prod.mk [.mark .dot] path tokens := by
  rw [funext path_eq]
  refine (decided_name .pathSegment tokens).bind (by simp) ?_ ?_
  · exact fun first rest _ => (decided_moreSegments rest).map (pathOf first) fun _ _ => rfl
  · exact fun first => (opens_moreSegments (by simp)).map (pathOf first) fun _ _ => rfl

theorem opens_sizeAfter (p : TypePath) (hloud : .mark .leftBracket ∈ loud) : Opens avoided loud Prod.mk (sizeAfter p) :=
  .done (.path p) fun _ h => sizeAfter_of_not_leftBracket p (h.startsWith_eq_false hloud)

theorem decided_sizeAfter (p : TypePath) (tokens : Tokens) :
    Decided Prod.mk [.mark .dot, .mark .leftBracket] (sizeAfter p) tokens := by
  by_cases hbracket : startsWith .leftBracket tokens = true
  · obtain ⟨span, rest, rfl⟩ := exists_of_startsWith hbracket
    obtain ⟨segments, place⟩ := p
    match segments with
    | [] => exact .refuse_cons (.noSize ⟨[], place⟩) (fun _ => rfl) (opens_sizeAfter _ (by simp))
    | first :: second :: more =>
      exact .refuse_cons (.noSize ⟨first :: second :: more, place⟩) (fun _ => rfl) (opens_sizeAfter _ (by simp))
    | [base] =>
      let sized (size : Literal) (closing : Span) : TypeName := .sized ⟨base, size, ⟨place.start, closing.stop⟩⟩
      refine .cons (fun _ => rfl) ((decided_literal rest).bind (by simp) ?_ ?_)
      · exact fun size after _ =>
          ((decided_expect .rightBracket after).bind_done (sized size) fun _ _ => rfl).mono (by simp)
      · exact fun size => (opens_expect .rightBracket (by simp)).bind_done (sized size) fun _ _ => rfl
  · rw [Bool.not_eq_true] at hbracket
    exact .done (.path p) fun others h =>
      sizeAfter_of_not_leftBracket p (startsWith_eq_false_of_near h (by simp) hbracket)

/-- What a type goes on with. -/
def typeGoesOn : List Token :=
  [.mark .dot, .mark .leftBracket, .mark .less]

theorem decided_typeName_cons {text : String} (hname : t.token.name? = some text) (rest : Tokens) :
    Decided Prod.mk [.mark .dot, .mark .leftBracket] (fun others => typeName (t :: others)) rest :=
  (decided_path_cons hname rest).bind (by simp) (fun p after _ => decided_sizeAfter p after) fun p =>
    opens_sizeAfter p (by simp)

theorem decided_typeName (tokens : Tokens) : Decided Prod.mk [.mark .dot, .mark .leftBracket] typeName tokens :=
  (decided_path tokens).bind (by simp) (fun p after _ => decided_sizeAfter p after) fun p => opens_sizeAfter p (by simp)

theorem opens_typeName (hdot : .mark .dot ∈ loud) (hbracket : .mark .leftBracket ∈ loud) (havoided : .ident "x" ∉ avoided) :
    Opens avoided loud Prod.mk typeName :=
  .cons (.ident "x") (fun _ => rfl)
    (.done (.path ⟨[⟨"x", ⟨0, 0⟩⟩], ⟨0, 0⟩⟩) fun _ h =>
      typeName_of_name rfl (h.startsWith_eq_false hdot) (h.startsWith_eq_false hbracket)) (by simp) havoided

theorem opens_propertyType (havoided : .ident "x" ∉ avoided) : Opens avoided typeGoesOn Prod.mk propertyType :=
  .cons (.ident "x") (fun _ => rfl)
    (.done (.single (.path ⟨[⟨"x", ⟨0, 0⟩⟩], ⟨0, 0⟩⟩)) fun _ h =>
      propertyType_of_name rfl (h.startsWith_eq_false (by simp [typeGoesOn]))
        (h.startsWith_eq_false (by simp [typeGoesOn])) (h.startsWith_eq_false (by simp [typeGoesOn]))) (by simp) havoided

/-- A type that begins with this name and is no vector. -/
theorem decided_single_cons {text : String} (hname : t.token.name? = some text) (rest : Tokens) :
    Decided Prod.mk typeGoesOn
      (fun others => (typeName (t :: others)).map fun (t, rest) => (PropertyType.single t, rest)) rest :=
  ((decided_typeName_cons hname rest).map .single fun _ _ => rfl).mono (by simp [typeGoesOn])

/-- The name `Vector` is a type of its own, unless `<` comes next. -/
theorem decided_propertyType_vector (span : Span) (rest : Tokens) :
    Decided Prod.mk typeGoesOn (fun others => propertyType (⟨.ident "Vector", span⟩ :: others)) rest := by
  by_cases hless : startsWith .less rest = true
  · obtain ⟨less, after, rfl⟩ := exists_of_startsWith hless
    let vector (item : TypeName) (closing : Span) : PropertyType := .vector ⟨item, ⟨span.start, closing.stop⟩⟩
    refine .cons (fun _ => rfl) ((decided_typeName after).bind (by simp [typeGoesOn]) ?_ ?_)
    · exact fun item left _ =>
        ((decided_expect .greater left).bind_done (vector item) fun _ _ => rfl).mono (by simp)
    · exact fun item => (opens_expect .greater (by simp)).bind_done (vector item) fun _ _ => rfl
  · rw [Bool.not_eq_true] at hless
    have hsingle {others : Tokens} (h : startsWith .less others = false) :
        propertyType (⟨.ident "Vector", span⟩ :: others) =
          (typeName (⟨.ident "Vector", span⟩ :: others)).map fun found => (.single found.1, found.2) := by
      refine propertyType_single ?_
      rintro ⟨place, less, after, heq⟩
      obtain ⟨-, rfl⟩ := List.cons.inj heq
      simp [startsWith] at h
    refine (decided_single_cons (t := ⟨.ident "Vector", span⟩) rfl rest).of_head ?_ ?_ ?_
    · exact fun others hhead => hsingle (by rw [startsWith_congr hhead, hless])
    · exact fun _ _ others h => hsingle (h.startsWith_eq_false (by simp [typeGoesOn]))
    · exact .done _ fun _ h =>
        propertyType_of_name rfl (h.startsWith_eq_false (by simp [typeGoesOn]))
          (h.startsWith_eq_false (by simp [typeGoesOn])) (h.startsWith_eq_false (by simp [typeGoesOn]))

theorem decided_propertyType (tokens : Tokens) : Decided Prod.mk typeGoesOn propertyType tokens := by
  cases tokens with
  | nil => exact .refuse_nil (.context .pathSegment) rfl (by simp) (opens_propertyType (by simp))
  | cons t rest =>
    cases hname : t.token.name? with
    | none => exact .refuse_cons (.context .pathSegment) (propertyType_of_not_name hname) (opens_propertyType (by simp))
    | some text =>
      obtain ⟨token, span⟩ := t
      by_cases hvector : token = .ident "Vector"
      · subst hvector
        exact .cons (fun _ => rfl) (decided_propertyType_vector span rest)
      · refine .cons (fun others => propertyType_single ?_) (decided_single_cons hname rest)
        rintro ⟨place, less, after, heq⟩
        obtain ⟨heq, -⟩ := List.cons.inj heq
        cases heq
        exact hvector rfl

/-! ## Bodies -/

theorem opens_behindColon (key : Identifier) (optional : Bool) (span : Span) :
    Opens [] typeGoesOn Prod.mk fun others => typeAfter key optional (⟨.mark .colon, span⟩ :: others) :=
  (opens_propertyType (by simp)).bind (List.Subset.refl _) fun type =>
    .done ⟨key, optional, type, ⟨key.span.start, type.span.stop⟩⟩ fun _ _ => rfl

theorem decided_typeAfter (key : Identifier) (optional : Bool) (tokens : Tokens) :
    Decided Prod.mk typeGoesOn (typeAfter key optional) tokens := by
  let property (type : PropertyType) : Property := ⟨key, optional, type, ⟨key.span.start, type.span.stop⟩⟩
  refine (decided_expect .colon tokens).bind (by simp) ?_ ?_
  · exact fun _ rest _ => (decided_propertyType rest).bind_done property fun _ _ => rfl
  · exact fun _ => (opens_propertyType (by simp)).bind_done property fun _ _ => rfl

/-- What follows the key of a property. -/
theorem decided_typeAfter_question (key : Identifier) (tokens : Tokens) :
    Decided Prod.mk typeGoesOn (fun others => typeAfter key (question others).1 (question others).2) tokens := by
  by_cases hquestion : startsWith .question tokens = true
  · obtain ⟨span, rest, rfl⟩ := exists_of_startsWith hquestion
    exact .cons (fun _ => rfl) (decided_typeAfter key true rest)
  · rw [Bool.not_eq_true] at hquestion
    have hnone {others : Tokens} (h : startsWith .question others = false) :
        typeAfter key (question others).1 (question others).2 = typeAfter key false others := by
      simp [question, h]
    refine (decided_typeAfter key false tokens).of_head ?_ ?_ ?_
    · exact fun others hhead => hnone (by rw [startsWith_congr hhead, hquestion])
    · intro p hread
      exact absurd (length_of_typeAfter hread) (Nat.lt_irrefl _)
    · exact .cons (.mark .colon) (fun _ => rfl) (opens_behindColon key false _) (by simp) (by simp)

theorem decided_property (tokens : Tokens) : Decided Prod.mk typeGoesOn property tokens := by
  rw [funext property_eq]
  refine (decided_name .propertyName tokens).bind (by simp) ?_ ?_
  · exact fun key rest _ => decided_typeAfter_question key rest
  · exact fun key => .cons (.mark .colon) (fun _ => rfl) (opens_behindColon key false _) (by simp) (by simp)

/-! ### Comments -/

/-- What a loop has read, with what comes second beside it. -/
abbrev beside {γ δ : Type} (x : γ × δ) (rest : Tokens) : γ × δ × Tokens :=
  (x.1, x.2, rest)

theorem opens_dashWords : Opens [] [] beside dashWords :=
  .take (.mark .tripleDash) ([], 0) (fun _ => rfl) (by simp) (by simp)

theorem decided_dashWords (tokens : Tokens) : Decided beside [] dashWords tokens := by
  induction tokens with
  | nil => exact .refuse_nil (.mark .tripleDash) rfl (by simp) opens_dashWords
  | cons t rest ih =>
    by_cases hdash : t.token = .mark .tripleDash
    · exact .take ([], t.span.stop) fun others => by simp [dashWords, hdash]
    · have hrest : Decided beside []
          (fun others => (dashWords others).map fun found => (t.token.spelling :: found.1, found.2)) rest :=
        ih.map (fun x => (t.token.spelling :: x.1, x.2)) fun _ _ => rfl
      exact .cons (fun others => by simp [dashWords, hdash]) hrest

/-- A loop that puts a comment that it reads before what it reads behind it. -/
structure PassesComments (mk : α → Tokens → ρ) (loop : Tokens → Except Rejection ρ) (add : Comment → ρ → ρ)
    (put : Comment → α → α) : Prop where
  add_mk : ∀ c x rest, add c (mk x rest) = mk (put c x) rest
  comment : ∀ {tokens c rest}, comment? tokens = .ok (some (c, rest)) → loop tokens = (loop rest).map (add c)
  error : ∀ {tokens e}, comment? tokens = .error e → loop tokens = .error e

theorem Decided.comment {loop : Tokens → Except Rejection ρ} {add : Comment → ρ → ρ} {put : Comment → α → α}
    (hloop : PassesComments mk loop add put) (hsome : comment? tokens ≠ .ok none) (hopen : Opens [] loud mk loop)
    (ih : ∀ c rest, comment? tokens = .ok (some (c, rest)) → Decided mk loud loop rest) : Decided mk loud loop tokens := by
  rcases comment_or_tripleDash hsome with ⟨text, span, rest, rfl⟩ | ⟨span, rest, rfl⟩
  · have hrest := (ih ⟨text, span⟩ rest rfl).map (put ⟨text, span⟩) (hloop.add_mk ⟨text, span⟩)
    exact .cons (fun _ => hloop.comment rfl) hrest
  · let block (x : List String × Nat) : Comment := ⟨" ".intercalate x.1, ⟨span.start, x.2⟩⟩
    have hread (others : Tokens) : loop (⟨.mark .tripleDash, span⟩ :: others) =
        dashWords others >>= fun found => (loop found.2.2).map (add (block (found.1, found.2.1))) := by
      cases hwords : dashWords others with
      | error e => exact hloop.error (by simp [comment?, hwords, Except.map])
      | ok words => exact hloop.comment (by simp [comment?, hwords, Except.map, block])
    refine .cons hread ((decided_dashWords rest).bind (by simp) ?_ ?_)
    · intro x after hwords
      exact (ih (block x) after (by simp [comment?, hwords, Except.map, block])).map (put (block x))
        (hloop.add_mk (block x))
    · exact fun x => hopen.map (put (block x)) (hloop.add_mk (block x))

/-! ### Entries in braces -/

theorem opens_braceEntries (separated : Bool) (havoided : .mark .rightBrace ∉ avoided) :
    Opens avoided loud beside (braceEntries separated) :=
  .take (.mark .rightBrace) ([], 0) (fun _ => braceEntries_rightBrace) (by simp) havoided

theorem passesComments_braceEntries (separated : Bool) :
    PassesComments beside (braceEntries separated) (fun c (entries, stop, rest) => (.comment c :: entries, stop, rest))
      fun c x => (.comment c :: x.1, x.2) where
  add_mk _ _ _ := rfl
  comment hc := by
    obtain ⟨t, after, rfl, hclosing⟩ := exists_of_comment? hc rfl
    rw [braceEntries_eq (by simpa [startsWith] using hclosing), hc]
    rfl
  error hc := by
    rw [braceEntries_eq (startsWith_of_comment?_error hc .rightBrace (by decide)), hc]
    rfl

/-- A property and what comes behind it. -/
theorem decided_propertyEntries (hrest : ∀ p rest, property tokens = .ok (p, rest) →
    Decided beside typeGoesOn (braceEntries false) rest) :
    Decided beside typeGoesOn (fun others => property others >>= fun (p, rest) =>
      (braceEntries false rest).map fun (entries, stop, rest) => (.property p :: entries, stop, rest)) tokens :=
  (decided_property tokens).bind (List.Subset.refl _)
    (fun p rest hp => (hrest p rest hp).map (fun x => (.property p :: x.1, x.2)) fun _ _ => rfl)
    fun p => (opens_braceEntries false (by simp [typeGoesOn])).map (fun x => (.property p :: x.1, x.2)) fun _ _ => rfl

theorem decided_separatedEntries (hrest : ∀ span rest, expect .semicolon tokens = .ok (span, rest) →
    Decided beside typeGoesOn (braceEntries true) rest) :
    Decided beside typeGoesOn (fun others => expect .semicolon others >>= fun (_, rest) => braceEntries true rest) tokens :=
  (decided_expect .semicolon tokens).bind (by simp) hrest fun _ => opens_braceEntries true (by simp)

theorem decided_braceEntries (separated : Bool) (tokens : Tokens) :
    Decided beside typeGoesOn (braceEntries separated) tokens := by
  induction hn : tokens.length using Nat.strongRecOn generalizing separated tokens with
  | ind n ih =>
    subst hn
    by_cases hclosing : startsWith .rightBrace tokens = true
    · obtain ⟨span, rest, rfl⟩ := exists_of_startsWith hclosing
      exact .take ([], span.stop) fun _ => braceEntries_rightBrace
    rw [Bool.not_eq_true] at hclosing
    by_cases hc : comment? tokens = .ok none
    · cases tokens with
      | nil =>
        cases separated with
        | true => exact .refuse_nil (.mark .rightBrace) (by rw [braceEntries_eq rfl]; rfl) (by simp) (opens_braceEntries _ (by simp))
        | false => exact .refuse_nil (.mark .semicolon) (by rw [braceEntries_eq rfl]; rfl) (by simp) (opens_braceEntries _ (by simp))
      | cons t rest =>
        have hclosing (more : Tokens) : startsWith .rightBrace (t :: more) = false := hclosing
        have hnone (more : Tokens) := comment?_none_congr hc more
        cases separated with
        | true =>
          refine (decided_propertyEntries fun p left hp => ih _ (length_of_property hp) false left rfl).of_first ?_ ?_ ?_
          · exact fun more => by rw [braceEntries_eq (hclosing more), hnone]; rfl
          · exact fun x left h => length_of_braceEntries h
          · exact opens_braceEntries true (by simp)
        | false =>
          refine (decided_separatedEntries fun _ left hs => ih _ (length_of_expect hs) true left rfl).of_first ?_ ?_ ?_
          · exact fun more => by rw [braceEntries_eq (hclosing more), hnone]; rfl
          · exact fun x left h => length_of_braceEntries h
          · exact opens_braceEntries false (by simp)
    · exact .comment (passesComments_braceEntries separated) hc (opens_braceEntries separated (by simp))
        fun c rest hc => ih _ (length_of_comment? hc) separated rest rfl

/-! ### Entries after an arrow -/

/-- What the entries after an arrow go on with. -/
def arrowGoesOn : List Token :=
  typeGoesOn ++ [.mark .comma, .mark .semicolon]

theorem opens_arrowAfter (p : Property) : Opens avoided arrowGoesOn beside (arrowAfter p) :=
  .done ([.property p], p.span.stop) fun _ h =>
    arrowAfter_last p (h.startsWith_eq_false (by simp [arrowGoesOn])) (h.startsWith_eq_false (by simp [arrowGoesOn]))

theorem opens_arrowEntries : Opens [] arrowGoesOn beside arrowEntries :=
  .cons (.ident "x") (fun _ => arrowEntries_of_none rfl)
    (.cons (.mark .colon) (fun _ => rfl)
      ((opens_behindColon ⟨"x", ⟨0, 0⟩⟩ false ⟨0, 0⟩).bind (by simp [arrowGoesOn]) opens_arrowAfter) (by simp) (by simp))
    (by simp) (by simp)

theorem passesComments_arrowEntries :
    PassesComments beside arrowEntries (fun c (entries, stop, rest) => (.comment c :: entries, stop, rest))
      fun c x => (.comment c :: x.1, x.2) where
  add_mk _ _ _ := rfl
  comment hc := by
    rw [arrowEntries_eq, hc]
    rfl
  error hc := by
    rw [arrowEntries_eq, hc]
    rfl

theorem decided_arrowAfter (p : Property)
    (hrest : ∀ span rest, tokens = ⟨.mark .comma, span⟩ :: rest → Decided beside arrowGoesOn arrowEntries rest) :
    Decided beside arrowGoesOn (arrowAfter p) tokens := by
  by_cases hcomma : startsWith .comma tokens = true
  · obtain ⟨span, rest, rfl⟩ := exists_of_startsWith hcomma
    exact .cons (fun _ => rfl) ((hrest span rest rfl).map (fun x => (.property p :: x.1, x.2)) fun _ _ => rfl)
  by_cases hsemicolon : startsWith .semicolon tokens = true
  · obtain ⟨span, rest, rfl⟩ := exists_of_startsWith hsemicolon
    exact .take ([.property p], span.stop) fun _ => rfl
  · rw [Bool.not_eq_true] at hcomma hsemicolon
    exact .done ([.property p], p.span.stop) fun others h =>
      arrowAfter_last p (startsWith_eq_false_of_near h (by simp [arrowGoesOn]) hcomma)
        (startsWith_eq_false_of_near h (by simp [arrowGoesOn]) hsemicolon)

theorem decided_arrowEntries (tokens : Tokens) : Decided beside arrowGoesOn arrowEntries tokens := by
  induction hn : tokens.length using Nat.strongRecOn generalizing tokens with
  | ind n ih =>
    subst hn
    by_cases hc : comment? tokens = .ok none
    · have hstep : Decided beside arrowGoesOn
          (fun others => property others >>= fun found => arrowAfter found.1 found.2) tokens := by
        refine (decided_property tokens).bind (by simp [arrowGoesOn]) ?_ fun p => opens_arrowAfter p
        intro p rest hp
        have hshorter := length_of_property hp
        exact decided_arrowAfter p fun span after hrest => ih _ (by simp [hrest] at hshorter; omega) after rfl
      cases tokens with
      | nil => exact .refuse_nil (.context .propertyName) (by rw [arrowEntries_of_none hc]; rfl) (by simp) opens_arrowEntries
      | cons t rest =>
        refine hstep.of_first (fun more => arrowEntries_of_none (comment?_none_congr hc more)) ?_ opens_arrowEntries
        exact fun x left h => length_of_arrowEntries h
    · exact .comment passesComments_arrowEntries hc opens_arrowEntries
        fun c rest hc => ih _ (length_of_comment? hc) rest rfl

/-! ### Bodies and members -/

/-- What a body goes on with, if its container has one, and what any item goes on with. -/
def goesOn : List Token :=
  arrowGoesOn ++ [.mark .leftBrace, .mark .arrow, .keyword .implementsWord]

theorem opens_containerBody (before : Nat) : Opens avoided goesOn beside (containerBody before) :=
  .done ([], before) fun _ h =>
    containerBody_none before (h.startsWith_eq_false (by simp [goesOn])) (h.startsWith_eq_false (by simp [goesOn]))
      (h.startsWith_eq_false (by simp [goesOn, arrowGoesOn]))

theorem decided_containerBody (before : Nat) (tokens : Tokens) :
    Decided beside goesOn (containerBody before) tokens := by
  by_cases hbrace : startsWith .leftBrace tokens = true
  · obtain ⟨span, rest, rfl⟩ := exists_of_startsWith hbrace
    exact .cons (fun _ => rfl) ((decided_braceEntries true rest).mono (by simp [goesOn, arrowGoesOn]))
  by_cases harrow : startsWith .arrow tokens = true
  · obtain ⟨span, rest, rfl⟩ := exists_of_startsWith harrow
    by_cases hsemicolon : startsWith .semicolon rest = true
    · obtain ⟨span', after, rfl⟩ := exists_of_startsWith hsemicolon
      exact .cons (fun _ => rfl) (.take ([], span'.stop) fun _ => rfl)
    · rw [Bool.not_eq_true] at hsemicolon
      have hentries : Decided beside goesOn arrowEntries rest := (decided_arrowEntries rest).mono (by simp [goesOn])
      refine .cons (fun _ => rfl) (hentries.of_head ?_ ?_ ?_)
      · exact fun others hhead => containerBody_arrow before span (by rw [startsWith_congr hhead, hsemicolon])
      · exact fun x hread => absurd (length_of_arrowEntries hread) (Nat.lt_irrefl _)
      · exact .take (.mark .semicolon) ([], 0) (fun _ => rfl) (by simp) (by simp)
  by_cases hsemicolon : startsWith .semicolon tokens = true
  · obtain ⟨span, rest, rfl⟩ := exists_of_startsWith hsemicolon
    exact .take ([], span.stop) fun _ => rfl
  · rw [Bool.not_eq_true] at hbrace harrow hsemicolon
    exact .done ([], before) fun others h =>
      containerBody_none before (startsWith_eq_false_of_near h (by simp [goesOn]) hbrace)
        (startsWith_eq_false_of_near h (by simp [goesOn]) harrow)
        (startsWith_eq_false_of_near h (by simp [goesOn, arrowGoesOn]) hsemicolon)

theorem decided_groupContainer (tokens : Tokens) : Decided Prod.mk goesOn groupContainer tokens := by
  let container (name : TypePath) (x : List BodyEntry × Nat) : GroupContainer := ⟨name, x.1, ⟨name.span.start, x.2⟩⟩
  refine (decided_path tokens).bind (by simp [goesOn, arrowGoesOn, typeGoesOn]) ?_ ?_
  · exact fun name rest _ => (decided_containerBody name.span.stop rest).bind_done (container name) fun _ _ => rfl
  · exact fun name => (opens_containerBody name.span.stop).bind_done (container name) fun _ _ => rfl

theorem opens_members (havoided : .mark .rightBrace ∉ avoided) : Opens avoided loud beside members :=
  .take (.mark .rightBrace) ([], 0) (fun _ => members_rightBrace) (by simp) havoided

theorem passesComments_members :
    PassesComments beside members (fun c (members, stop, rest) => (.comment c :: members, stop, rest))
      fun c x => (.comment c :: x.1, x.2) where
  add_mk _ _ _ := rfl
  comment hc := by
    obtain ⟨t, after, rfl, hclosing⟩ := exists_of_comment? hc rfl
    rw [members_eq (by simpa [startsWith] using hclosing), hc]
    rfl
  error hc := by
    rw [members_eq (startsWith_of_comment?_error hc .rightBrace (by decide)), hc]
    rfl

/-- A constructor of a type group and the members behind it. -/
theorem decided_containerMembers {tokens : Tokens}
    (hrest : ∀ c rest, groupContainer tokens = .ok (c, rest) → Decided beside goesOn members rest) :
    Decided beside goesOn (fun others => groupContainer others >>= fun (c, rest) =>
      (members rest).map fun (members, stop, rest) => (.container c :: members, stop, rest)) tokens :=
  (decided_groupContainer tokens).bind (List.Subset.refl _)
    (fun c rest h => (hrest c rest h).map (fun x => (.container c :: x.1, x.2)) fun _ _ => rfl)
    fun c => (opens_members (by simp [goesOn, arrowGoesOn, typeGoesOn])).map (fun x => (.container c :: x.1, x.2))
      fun _ _ => rfl

theorem decided_members (tokens : Tokens) : Decided beside goesOn members tokens := by
  induction hn : tokens.length using Nat.strongRecOn generalizing tokens with
  | ind n ih =>
    subst hn
    by_cases hclosing : startsWith .rightBrace tokens = true
    · obtain ⟨span, rest, rfl⟩ := exists_of_startsWith hclosing
      exact .take ([], span.stop) fun _ => members_rightBrace
    rw [Bool.not_eq_true] at hclosing
    by_cases hc : comment? tokens = .ok none
    · cases tokens with
      | nil => exact .refuse_nil (.mark .rightBrace) (by rw [members_eq rfl]; rfl) (by simp) (opens_members (by simp))
      | cons t rest =>
        have hrest (c : GroupContainer) (left : Tokens) (hg : groupContainer (t :: rest) = .ok (c, left)) :
            Decided beside goesOn members left := ih _ (length_of_groupContainer hg) left rfl
        have hstep := decided_containerMembers hrest
        refine hstep.of_first (fun more => ?_) (fun x left h => length_of_members h) (opens_members (by simp))
        have hclosing : startsWith .rightBrace (t :: more) = false := hclosing
        rw [members_eq hclosing, comment?_none_congr hc]
        rfl
    · exact .comment passesComments_members hc (opens_members (by simp))
        fun c rest hc => ih _ (length_of_comment? hc) rest rfl

end SchemaWire.Parser
