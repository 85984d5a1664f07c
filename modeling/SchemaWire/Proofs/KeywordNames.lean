import SchemaWire.Proofs.Grammar
import SchemaWire.Proofs.Outline
import SchemaWire.Proofs.Stages

/-!
# Keywords as names

A keyword may stand wherever an identifier of its spelling does. What is read where identifiers stand is read as well
where keywords are in their place: one lemma for each reader says so (`…_recast`), and puts together what its steps do
(`Accepts.bind`). A keyword is more than a name only where an item begins, and in front of what follows the word `type`;
the last token of an item is in neither place (`nextItem_recast`).
-/

namespace SchemaWire

/-- The same token, or a keyword in the place of an identifier that is spelled like it. -/
inductive Located.Recast : Located → Located → Prop
  | same (t : Located) : Recast t t
  | word (w : Keyword) (span : Span) : Recast ⟨.ident w.text, span⟩ ⟨.keyword w, span⟩

namespace Located.Recast

variable {t t' : Located}

theorem name? (h : t.Recast t') : t'.token.name? = t.token.name? := by
  cases h <;> rfl

theorem span (h : t.Recast t') : t'.span = t.span := by
  cases h <;> rfl

theorem spelling (h : t.Recast t') : t'.token.spelling = t.token.spelling := by
  cases h <;> rfl

theorem isMark (h : t.Recast t') (mark : Mark) : t'.token = .mark mark ↔ t.token = .mark mark := by
  cases h with
  | same => rfl
  | word => exact ⟨nofun, nofun⟩

/-- An identifier that is spelled like no keyword stays as it is. -/
theorem eq_of_ident {text : String} {place : Span} (h : Recast ⟨.ident text, place⟩ t') (htext : ∀ w : Keyword, w.text ≠ text) :
    t' = ⟨.ident text, place⟩ := by
  generalize heq : (⟨.ident text, place⟩ : Located) = t at h
  cases h with
  | same => rfl
  | word w =>
    cases heq
    exact absurd rfl (htext w)

end Located.Recast

namespace Parser

/-- Tokens with keywords in the place of some of the identifiers. -/
abbrev Recasts : Tokens → Tokens → Prop :=
  List.Forall₂ Located.Recast

/-- Pairs with the same first part, and second parts that are related. -/
inductive SameBut {α β : Type} (R : β → β → Prop) : α × β → α × β → Prop
  | mk (a : α) {b b' : β} (h : R b b') : SameBut R (a, b) (a, b')

/-- What is read in one place is read in another, too, up to a relation. -/
def Accepts {α : Type} (R : α → α → Prop) (x y : Except Rejection α) : Prop :=
  ∀ a, x = .ok a → ∃ b, y = .ok b ∧ R a b

namespace Accepts

variable {α β : Type} {R : α → α → Prop} {S : β → β → Prop} {x y : Except Rejection α}

theorem ok {a b : α} (h : R a b) : Accepts R (.ok a) (.ok b) := by
  intro a' ha
  cases ha
  exact ⟨b, rfl, h⟩

theorem error (r : Rejection) (y : Except Rejection α) : Accepts R (.error r) y :=
  nofun

theorem bind {k k' : α → Except Rejection β} (hx : Accepts R x y)
    (hk : ∀ a b, x = .ok a → R a b → Accepts S (k a) (k' b)) : Accepts S (x >>= k) (y >>= k') := by
  intro c hc
  obtain ⟨a, ha, hka⟩ := Except.bind_eq_ok_iff.mp hc
  obtain ⟨b, hb, hab⟩ := hx a ha
  obtain ⟨d, hd, hcd⟩ := hk a b ha hab c hka
  exact ⟨d, Except.bind_eq_ok_iff.mpr ⟨b, hb, hd⟩, hcd⟩

theorem map {m m' : α → β} (hx : Accepts R x y) (hm : ∀ a b, R a b → S (m a) (m' b)) :
    Accepts S (x.map m) (y.map m') := by
  intro c hc
  obtain ⟨a, ha, rfl⟩ := Except.map_eq_ok_iff.mp hc
  obtain ⟨b, hb, hab⟩ := hx a ha
  exact ⟨m' b, Except.map_eq_ok_iff.mpr ⟨b, hb, rfl⟩, hm a b hab⟩

end Accepts

/-- Where nothing is left, nothing is left in the other place either. -/
theorem Accepts.eq_ok {α : Type} {x y : Except Rejection (α × Tokens)} {a : α} (h : Accepts (SameBut Recasts) x y)
    (hx : x = .ok (a, [])) : y = .ok (a, []) := by
  obtain ⟨_, hy, ⟨_, hleft⟩⟩ := h _ hx
  cases hleft
  exact hy

variable {tokens tokens' : Tokens}

theorem startsWith_recast (h : Recasts tokens tokens') (mark : Mark) : startsWith mark tokens' = startsWith mark tokens := by
  cases h with
  | nil => rfl
  | cons ht => simp only [startsWith, ht.isMark]

/-- The same mark comes next, and what is behind it is recast. -/
theorem exists_of_startsWith_recast {mark : Mark} (h : Recasts tokens tokens') (hmark : startsWith mark tokens = true) :
    ∃ span rest rest', tokens = ⟨.mark mark, span⟩ :: rest ∧ tokens' = ⟨.mark mark, span⟩ :: rest' ∧
      Recasts rest rest' := by
  obtain ⟨span, rest, rfl⟩ := exists_of_startsWith hmark
  obtain ⟨_, rest', ht, hrest, rfl⟩ := List.forall₂_cons_left_iff.mp h
  cases ht
  exact ⟨span, rest, rest', rfl, rfl, hrest⟩

theorem tail_recast (h : Recasts tokens tokens') : Recasts tokens.tail tokens'.tail := by
  cases h with
  | nil => exact .nil
  | cons _ hrest => exact hrest

/-! ## Names and types -/

theorem name_recast (context : ParseError.Context) (h : Recasts tokens tokens') :
    Accepts (SameBut Recasts) (name context tokens) (name context tokens') := by
  cases h with
  | nil => exact .error _ _
  | @cons t t' rest rest' ht hrest =>
    simp only [name, ht.name?, ht.span]
    cases t.token.name? with
    | none => exact .error _ _
    | some text => exact .ok (.mk _ hrest)

theorem expect_recast (mark : Mark) (h : Recasts tokens tokens') :
    Accepts (SameBut Recasts) (expect mark tokens) (expect mark tokens') := by
  cases h with
  | nil => exact .error _ _
  | @cons t t' rest rest' ht hrest =>
    simp only [expect, ht.isMark, ht.span]
    split
    · exact .ok (.mk _ hrest)
    · exact .error _ _

theorem moreSegments_recast (h : Recasts tokens tokens') :
    Accepts (SameBut Recasts) (moreSegments tokens) (moreSegments tokens') := by
  fun_induction moreSegments tokens generalizing tokens' with
  | case1 =>
    cases h
    exact .ok (.mk _ .nil)
  | case2 => exact .error _ _
  | case3 t hdot =>
    obtain ⟨t', ht, rfl⟩ : ∃ t', t.Recast t' ∧ tokens' = [t'] := by simpa [List.forall₂_cons_left_iff] using h
    simp only [moreSegments, ht.isMark, hdot, if_false]
    exact .ok (.mk _ h)
  | case4 t u rest hdot text hname ih =>
    obtain ⟨t', _, ht, hmore, rfl⟩ := List.forall₂_cons_left_iff.mp h
    obtain ⟨u', rest', hu, hrest, rfl⟩ := List.forall₂_cons_left_iff.mp hmore
    simp only [moreSegments, ht.isMark, hdot, if_true, hu.name?, hname, hu.span]
    refine (ih hrest).map ?_
    rintro _ _ ⟨segments, hleft⟩
    exact .mk _ hleft
  | case5 => exact .error _ _
  | case6 t u rest hdot =>
    obtain ⟨t', _, ht, hmore, rfl⟩ := List.forall₂_cons_left_iff.mp h
    obtain ⟨u', rest', hu, hrest, rfl⟩ := List.forall₂_cons_left_iff.mp hmore
    simp only [moreSegments, ht.isMark, hdot, if_false]
    exact .ok (.mk _ h)

theorem path_recast (h : Recasts tokens tokens') : Accepts (SameBut Recasts) (path tokens) (path tokens') := by
  refine (name_recast .pathSegment h).bind ?_
  rintro _ _ - ⟨first, hrest⟩
  refine (moreSegments_recast hrest).bind ?_
  rintro _ _ - ⟨more, hleft⟩
  exact .ok (.mk _ hleft)

theorem literal_recast (h : Recasts tokens tokens') : Accepts (SameBut Recasts) (literal tokens) (literal tokens') := by
  cases h with
  | nil => exact .error _ _
  | @cons t _ _ _ ht hrest =>
    cases ht with
    | same =>
      obtain ⟨token, span⟩ := t
      cases token with
      | integer => exact .ok (.mk _ hrest)
      | _ => exact .error _ _
    | word => exact .error _ _

theorem typeName_recast (h : Recasts tokens tokens') : Accepts (SameBut Recasts) (typeName tokens) (typeName tokens') := by
  refine (path_recast h).bind ?_
  rintro ⟨⟨segments, place⟩, rest⟩ ⟨_, rest'⟩ - ⟨_, hrest⟩
  simp only [startsWith_recast hrest]
  by_cases hbracket : startsWith .leftBracket rest = true
  · simp only [hbracket, if_true]
    match segments with
    | [] => exact .error _ _
    | first :: second :: more => exact .error _ _
    | [base] =>
      refine (literal_recast (tail_recast hrest)).bind ?_
      rintro _ _ - ⟨size, hafter⟩
      refine (expect_recast .rightBracket hafter).bind ?_
      rintro _ _ - ⟨closing, hleft⟩
      exact .ok (.mk _ hleft)
  · rw [if_neg hbracket, if_neg hbracket]
    exact .ok (.mk _ hrest)

/-- No keyword is spelled `Vector`, so vectors begin in the same places. -/
theorem exists_vector_recast (h : Recasts tokens tokens') :
    (∃ span less rest, tokens' = ⟨.ident "Vector", span⟩ :: ⟨.mark .less, less⟩ :: rest) ↔
      ∃ span less rest, tokens = ⟨.ident "Vector", span⟩ :: ⟨.mark .less, less⟩ :: rest := by
  constructor
  · rintro ⟨span, less, rest', rfl⟩
    obtain ⟨_, _, ht, hrest, rfl⟩ := List.forall₂_cons_right_iff.mp h
    obtain ⟨_, _, hu, hrest, rfl⟩ := List.forall₂_cons_right_iff.mp hrest
    cases ht
    cases hu
    exact ⟨span, less, _, rfl⟩
  · rintro ⟨span, less, rest, rfl⟩
    obtain ⟨t', _, ht, hrest, rfl⟩ := List.forall₂_cons_left_iff.mp h
    obtain ⟨_, _, hu, hrest, rfl⟩ := List.forall₂_cons_left_iff.mp hrest
    cases hu
    obtain rfl := ht.eq_of_ident fun w => by cases w <;> decide
    exact ⟨span, less, _, rfl⟩

theorem propertyType_recast (h : Recasts tokens tokens') :
    Accepts (SameBut Recasts) (propertyType tokens) (propertyType tokens') := by
  by_cases hvector : ∃ span less rest, tokens = ⟨.ident "Vector", span⟩ :: ⟨.mark .less, less⟩ :: rest
  · obtain ⟨_, _, _, rfl⟩ := (exists_vector_recast h).mpr hvector
    obtain ⟨span, less, rest, rfl⟩ := hvector
    obtain ⟨_, _, ht, hmore, heq⟩ := List.forall₂_cons_left_iff.mp h
    cases heq
    obtain ⟨_, _, _, hrest, heq⟩ := List.forall₂_cons_left_iff.mp hmore
    cases heq
    cases ht.span
    refine (typeName_recast hrest).bind ?_
    rintro _ _ - ⟨item, hafter⟩
    refine (expect_recast .greater hafter).bind ?_
    rintro _ _ - ⟨closing, hleft⟩
    exact .ok (.mk _ hleft)
  · rw [propertyType_single hvector, propertyType_single ((exists_vector_recast h).not.mpr hvector)]
    refine (typeName_recast h).map ?_
    rintro _ _ ⟨type, hrest⟩
    exact .mk _ hrest

theorem question_recast (h : Recasts tokens tokens') :
    (question tokens').1 = (question tokens).1 ∧ Recasts (question tokens).2 (question tokens').2 := by
  simp only [question, startsWith_recast h]
  split
  · exact ⟨rfl, tail_recast h⟩
  · exact ⟨rfl, h⟩

theorem typeAfter_recast (key : Identifier) (optional : Bool) (h : Recasts tokens tokens') :
    Accepts (SameBut Recasts) (typeAfter key optional tokens) (typeAfter key optional tokens') := by
  refine (expect_recast .colon h).bind ?_
  rintro _ _ - ⟨colon, hrest⟩
  refine (propertyType_recast hrest).bind ?_
  rintro _ _ - ⟨type, hleft⟩
  exact .ok (.mk _ hleft)

theorem property_recast (h : Recasts tokens tokens') : Accepts (SameBut Recasts) (property tokens) (property tokens') := by
  rw [property_eq, property_eq]
  refine (name_recast .propertyName h).bind ?_
  rintro ⟨key, rest⟩ ⟨_, rest'⟩ - ⟨_, hrest⟩
  obtain ⟨hoptional, hafter⟩ := question_recast hrest
  simp only [hoptional]
  exact typeAfter_recast key _ hafter

/-! ## Comments -/

theorem dashWords_recast (h : Recasts tokens tokens') :
    Accepts (SameBut (SameBut Recasts)) (dashWords tokens) (dashWords tokens') := by
  fun_induction dashWords tokens generalizing tokens' with
  | case1 => exact .error _ _
  | case2 t rest hdash =>
    obtain ⟨t', rest', ht, hrest, rfl⟩ := List.forall₂_cons_left_iff.mp h
    simp only [dashWords, ht.isMark, hdash, if_true, ht.span]
    exact .ok (.mk _ (.mk _ hrest))
  | case3 t rest hdash ih =>
    obtain ⟨t', rest', ht, hrest, rfl⟩ := List.forall₂_cons_left_iff.mp h
    simp only [dashWords, ht.isMark, hdash, if_false, ht.spelling]
    refine (ih hrest).map ?_
    rintro _ _ ⟨words, ⟨stop, hleft⟩⟩
    exact .mk _ (.mk _ hleft)

theorem comment?_recast (h : Recasts tokens tokens') :
    Accepts (Option.Rel (SameBut Recasts)) (comment? tokens) (comment? tokens') := by
  cases h with
  | nil => exact .ok .none
  | @cons t _ _ _ ht hrest =>
    cases ht with
    | same =>
      obtain ⟨token, span⟩ := t
      cases token with
      | comment text => exact .ok (.some (.mk _ hrest))
      | mark mark =>
        cases mark with
        | tripleDash =>
          refine (dashWords_recast hrest).map ?_
          rintro _ _ ⟨words, ⟨stop, hleft⟩⟩
          exact .some (.mk _ hleft)
        | _ => exact .ok .none
      | _ => exact .ok .none
    | word => exact .ok .none

/-! ## Bodies -/

/-- Each step leaves fewer tokens, which are recast as well. -/
theorem braceEntries_recast (separated : Bool) (h : Recasts tokens tokens') :
    Accepts (SameBut (SameBut Recasts)) (braceEntries separated tokens) (braceEntries separated tokens') := by
  induction hn : tokens.length using Nat.strongRecOn generalizing separated tokens tokens' with
  | ind n ih =>
    subst hn
    by_cases hclosing : startsWith .rightBrace tokens = true
    · obtain ⟨span, rest, rest', rfl, rfl, hrest⟩ := exists_of_startsWith_recast h hclosing
      rw [braceEntries_rightBrace, braceEntries_rightBrace]
      exact .ok (.mk _ (.mk _ hrest))
    rw [Bool.not_eq_true] at hclosing
    rw [braceEntries_eq hclosing, braceEntries_eq (by rwa [startsWith_recast h])]
    refine (comment?_recast h).bind ?_
    rintro _ _ hc (⟨⟨c, hrest⟩⟩ | _)
    · refine (ih _ (length_of_comment? hc) separated hrest rfl).map ?_
      rintro _ _ ⟨entries, ⟨stop, hleft⟩⟩
      exact .mk _ (.mk _ hleft)
    cases separated with
    | true =>
      simp only [if_true]
      cases h with
      | nil => exact .error _ _
      | cons ht hrest =>
        simp only [reduceCtorEq, if_false]
        refine (property_recast (.cons ht hrest)).bind ?_
        rintro _ _ hp ⟨p, hrest⟩
        refine (ih _ (length_of_property hp) false hrest rfl).map ?_
        rintro _ _ ⟨entries, ⟨stop, hleft⟩⟩
        exact .mk _ (.mk _ hleft)
    | false =>
      refine (expect_recast .semicolon h).bind ?_
      rintro _ _ hs ⟨semicolon, hrest⟩
      exact ih _ (length_of_expect hs) true hrest rfl

theorem arrowEntries_recast (h : Recasts tokens tokens') :
    Accepts (SameBut (SameBut Recasts)) (arrowEntries tokens) (arrowEntries tokens') := by
  induction hn : tokens.length using Nat.strongRecOn generalizing tokens tokens' with
  | ind n ih =>
    subst hn
    rw [arrowEntries_eq, arrowEntries_eq]
    refine (comment?_recast h).bind ?_
    rintro _ _ hc (⟨⟨c, hrest⟩⟩ | _)
    · refine (ih _ (length_of_comment? hc) hrest rfl).map ?_
      rintro _ _ ⟨entries, ⟨stop, hleft⟩⟩
      exact .mk _ (.mk _ hleft)
    refine (property_recast h).bind ?_
    rintro ⟨p, rest⟩ ⟨_, rest'⟩ hp ⟨_, hrest⟩
    have hshorter := length_of_property hp
    by_cases hcomma : startsWith .comma rest = true
    · obtain ⟨span, after, after', rfl, rfl, hafter⟩ := exists_of_startsWith_recast hrest hcomma
      refine (ih _ (by simp at hshorter; omega) hafter rfl).map ?_
      rintro _ _ ⟨entries, ⟨stop, hleft⟩⟩
      exact .mk _ (.mk _ hleft)
    by_cases hsemicolon : startsWith .semicolon rest = true
    · obtain ⟨span, after, after', rfl, rfl, hafter⟩ := exists_of_startsWith_recast hrest hsemicolon
      exact .ok (.mk _ (.mk _ hafter))
    · rw [Bool.not_eq_true] at hcomma hsemicolon
      simp only [arrowAfter_last p hcomma hsemicolon,
        arrowAfter_last p ((startsWith_recast hrest _).trans hcomma) ((startsWith_recast hrest _).trans hsemicolon)]
      exact .ok (.mk _ (.mk _ hrest))

theorem containerBody_recast (before : Nat) (h : Recasts tokens tokens') :
    Accepts (SameBut (SameBut Recasts)) (containerBody before tokens) (containerBody before tokens') := by
  by_cases hbrace : startsWith .leftBrace tokens = true
  · obtain ⟨span, rest, rest', rfl, rfl, hrest⟩ := exists_of_startsWith_recast h hbrace
    exact braceEntries_recast true hrest
  by_cases harrow : startsWith .arrow tokens = true
  · obtain ⟨span, rest, rest', rfl, rfl, hrest⟩ := exists_of_startsWith_recast h harrow
    by_cases hsemicolon : startsWith .semicolon rest = true
    · obtain ⟨span', after, after', rfl, rfl, hafter⟩ := exists_of_startsWith_recast hrest hsemicolon
      exact .ok (.mk _ (.mk _ hafter))
    · rw [Bool.not_eq_true] at hsemicolon
      rw [containerBody_arrow before span hsemicolon,
        containerBody_arrow before span ((startsWith_recast hrest _).trans hsemicolon)]
      exact arrowEntries_recast hrest
  by_cases hsemicolon : startsWith .semicolon tokens = true
  · obtain ⟨span, rest, rest', rfl, rfl, hrest⟩ := exists_of_startsWith_recast h hsemicolon
    exact .ok (.mk _ (.mk _ hrest))
  · rw [Bool.not_eq_true] at hbrace harrow hsemicolon
    rw [containerBody_none before hbrace harrow hsemicolon, containerBody_none before
      ((startsWith_recast h _).trans hbrace) ((startsWith_recast h _).trans harrow)
      ((startsWith_recast h _).trans hsemicolon)]
    exact .ok (.mk _ (.mk _ h))

/-! ## Items -/

theorem aliasDecl_recast (start : Nat) (h : Recasts tokens tokens') :
    Accepts (SameBut Recasts) (aliasDecl start tokens) (aliasDecl start tokens') := by
  rw [aliasDecl_eq, aliasDecl_eq]
  refine (name_recast .aliasName h).bind ?_
  rintro ⟨name, _⟩ _ - ⟨_, hrest⟩
  refine (expect_recast .equals hrest).bind ?_
  rintro _ _ - ⟨equals, hrest⟩
  refine (typeName_recast hrest).bind ?_
  rintro ⟨target, left⟩ ⟨_, left'⟩ - ⟨_, hleft⟩
  by_cases hsemicolon : startsWith .semicolon left = true
  · obtain ⟨span, after, after', rfl, rfl, hafter⟩ := exists_of_startsWith_recast hleft hsemicolon
    exact .ok (.mk _ hafter)
  · rw [Bool.not_eq_true] at hsemicolon
    simp only [aliasAfter_last start name target hsemicolon,
      aliasAfter_last start name target ((startsWith_recast hleft _).trans hsemicolon)]
    exact .ok (.mk _ hleft)

theorem traitDecl_recast (start : Nat) (h : Recasts tokens tokens') :
    Accepts (SameBut Recasts) (traitDecl start tokens) (traitDecl start tokens') := by
  rw [traitDecl_eq, traitDecl_eq]
  refine (name_recast .traitName h).bind ?_
  rintro ⟨name, rest⟩ ⟨_, rest'⟩ - ⟨_, hrest⟩
  cases hrest with
  | nil => exact .error _ _
  | @cons t _ _ _ ht hafter =>
    cases ht with
    | same =>
      obtain ⟨token, span⟩ := t
      cases token with
      | mark mark =>
        cases mark with
        | leftBrace =>
          refine (braceEntries_recast true hafter).map ?_
          rintro _ _ ⟨body, ⟨stop, hleft⟩⟩
          exact .mk _ hleft
        | semicolon => exact .ok (.mk _ hafter)
        | _ => exact .error _ _
      | _ => exact .error _ _
    | word => exact .error _ _

theorem declarationBody_recast (start : Nat) (ctor name : TypePath) (before : Nat) (h : Recasts tokens tokens') :
    Accepts (SameBut Recasts) (declarationBody start ctor name before tokens)
      (declarationBody start ctor name before tokens') := by
  refine (containerBody_recast before h).map ?_
  rintro _ _ ⟨body, ⟨stop, hleft⟩⟩
  exact .mk _ hleft

theorem declarationAfter_recast (start : Nat) (first : TypePath) (h : Recasts tokens tokens') :
    Accepts (SameBut Recasts) (declarationAfter start first tokens) (declarationAfter start first tokens') := by
  simp only [declarationAfter, startsWith_recast h]
  split
  · refine (path_recast (tail_recast h)).bind ?_
    rintro _ _ - ⟨name, hrest⟩
    exact declarationBody_recast start first name _ hrest
  · refine (path_recast h).bind ?_
    rintro _ _ - ⟨ctor, hrest⟩
    exact declarationBody_recast start ctor first _ hrest

theorem declaration_recast {t t' : Located} {rest rest' : Tokens} (ht : t.Recast t') (hrest : Recasts rest rest') :
    Accepts (SameBut Recasts) (declaration (t :: rest)) (declaration (t' :: rest')) := by
  rw [declaration_cons, declaration_cons, ht.span]
  refine (path_recast (.cons ht hrest)).bind ?_
  rintro _ _ - ⟨first, hafter⟩
  exact declarationAfter_recast t.span.start first hafter

/-! ## The last token of an item -/

theorem recasts_last (init : Tokens) (word : Keyword) (span : Span) :
    Recasts (init ++ [⟨.ident word.text, span⟩]) (init ++ [⟨.keyword word, span⟩]) :=
  List.rel_append (List.forall₂_same.mpr fun t _ => .same t) (.cons (.word word span) .nil)

/-- The last token is a closing brace. -/
def EndsInBrace (tokens : Tokens) : Prop :=
  ∃ inner, tokens.map Located.token = inner ++ [.mark .rightBrace]

theorem endsInBrace_of_typeGroup {start : Nat} {g : TypeGroup} (h : typeGroup start tokens = .ok (g, [])) :
    EndsInBrace tokens := by
  obtain ⟨used, hused, hgroup⟩ := takes_typeGroup h
  rw [List.map_nil, List.append_nil] at hused
  cases hgroup
  exact ⟨_, hused⟩

theorem endsInBrace_of_namespaceAfter {start : Nat} {item : Item} (h : namespaceAfter start tokens = .ok (item, [])) :
    EndsInBrace tokens := by
  obtain ⟨name, inner, body, closing, brace, hhead, hbody, hbrace, -⟩ := exists_of_namespaceAfter h
  obtain ⟨⟨_, left⟩, hitems, heq⟩ := Except.map_eq_ok_iff.mp hbody
  cases heq
  obtain ⟨us, hus, -⟩ := namespaceHead_fits hhead
  obtain ⟨vs, hvs, -⟩ := items_fits hitems
  exact ⟨(us ++ vs).map Located.token, by simp [hus, hvs, eq_of_expect hbrace]⟩

theorem not_endsInBrace (init : Tokens) (text : String) (span : Span) :
    ¬EndsInBrace (init ++ [⟨.ident text, span⟩]) := by
  rintro ⟨inner, heq⟩
  rw [List.map_append] at heq
  cases (List.append_inj' heq rfl).2

/-- A name at the end of what follows the word `type` is not the third token where all is one declaration, so it does not
turn that into a type group. -/
theorem startsGroup_recast {place span : Span} {word : Keyword} {init : Tokens} {d : Declaration}
    (hgroup : startsGroup (init ++ [⟨.ident word.text, span⟩]) = false)
    (h : declaration (⟨.keyword .typeWord, place⟩ :: (init ++ [⟨.ident word.text, span⟩])) = .ok (d, [])) :
    startsGroup (init ++ [⟨.keyword word, span⟩]) = false := by
  match init with
  | [] => rfl
  | t :: u :: rest => exact hgroup
  | [t] =>
    cases hname : t.token.name? with
    | none => simp [startsGroup, hname]
    | some text =>
      -- the declaration takes two names and leaves the third
      have hleft := declaration_cons_name (t := ⟨.keyword .typeWord, place⟩) rfl hname [⟨.ident word.text, span⟩]
      rw [path_cons hname, moreSegments_of_not_dot rfl] at hleft
      rw [List.singleton_append, hleft] at h
      cases h

theorem keywordItem_recast {t : Located} {init : Tokens} {word : Keyword} {span : Span} {item : Item}
    (h : keywordItem (t :: (init ++ [⟨.ident word.text, span⟩])) = .ok (item, [])) :
    keywordItem (t :: (init ++ [⟨.keyword word, span⟩])) = .ok (item, []) := by
  have hlast := recasts_last init word span
  obtain ⟨token, place⟩ := t
  by_cases htype : token = .keyword .typeWord ∧ startsGroup (init ++ [⟨.ident word.text, span⟩]) = true
  · -- a type group does not end with a name
    obtain ⟨rfl, hstarts⟩ := htype
    rw [keywordItem_group hstarts] at h
    obtain ⟨⟨g, left⟩, hgroup, heq⟩ := Except.map_eq_ok_iff.mp h
    cases heq
    exact absurd (endsInBrace_of_typeGroup hgroup) (not_endsInBrace _ _ _)
  by_cases halias : token = .keyword .aliasWord
  · subst halias
    refine Accepts.eq_ok ((aliasDecl_recast place.start hlast).map ?_) h
    rintro _ _ ⟨a, hleft⟩
    exact .mk _ hleft
  by_cases htrait : token = .keyword .traitWord
  · subst htrait
    refine Accepts.eq_ok ((traitDecl_recast place.start hlast).map ?_) h
    rintro _ _ ⟨d, hleft⟩
    exact .mk _ hleft
  have hname := name_of_keywordItem h
  have hgroup : token = .keyword .typeWord → startsGroup (init ++ [⟨.ident word.text, span⟩]) = false := by
    simpa using htype
  rw [keywordItem_declaration hname hgroup halias htrait] at h
  have hgroup' : token = .keyword .typeWord → startsGroup (init ++ [⟨.keyword word, span⟩]) = false := by
    rintro rfl
    obtain ⟨⟨d, left⟩, hdeclaration, heq⟩ := Except.map_eq_ok_iff.mp h
    cases heq
    exact startsGroup_recast (hgroup rfl) hdeclaration
  rw [keywordItem_declaration hname hgroup' halias htrait]
  refine Accepts.eq_ok ((declaration_recast (.same ⟨token, place⟩) hlast).map ?_) h
  rintro _ _ ⟨d, hleft⟩
  exact .mk _ hleft

/-- An item is read as well where its last token is a keyword in the place of an identifier. -/
theorem nextItem_recast {init : Tokens} {word : Keyword} {span : Span} {item : Item}
    (h : nextItem (init ++ [⟨.ident word.text, span⟩]) = .ok (item, [])) :
    nextItem (init ++ [⟨.keyword word, span⟩]) = .ok (item, []) := by
  cases init with
  | nil =>
    have hword : keywordItem [⟨.ident word.text, span⟩] = .ok (item, []) := h
    rw [keywordItem_declaration rfl (by simp) (by simp) (by simp)] at hword
    obtain ⟨⟨d, left⟩, hdeclaration, -⟩ := Except.map_eq_ok_iff.mp hword
    exact absurd (length_of_declaration_cons hdeclaration) (Nat.not_lt_zero _)
  | cons t init =>
    have hlast := recasts_last (t :: init) word span
    simp only [List.cons_append] at h hlast ⊢
    cases hc : comment? (t :: (init ++ [⟨.ident word.text, span⟩])) with
    | error r =>
      rw [nextItem_of_comment?_error hc] at h
      cases h
    | ok found =>
      obtain ⟨_, hc', hfound⟩ := comment?_recast hlast _ hc
      cases hfound with
      | none =>
        by_cases hnamespace : t.token = .keyword .namespaceWord
        · -- a namespace does not end with a name either
          obtain ⟨token, place⟩ := t
          cases hnamespace
          exact absurd (endsInBrace_of_namespaceAfter h) (not_endsInBrace _ _ _)
        · rw [nextItem_of_none hc hnamespace] at h
          rw [nextItem_of_none hc' hnamespace]
          exact keywordItem_recast h
      | some hfound =>
        obtain ⟨c, hleft⟩ := hfound
        rw [nextItem_of_comment? hc] at h
        cases h
        cases hleft
        exact nextItem_of_comment? hc'

end Parser

end SchemaWire
