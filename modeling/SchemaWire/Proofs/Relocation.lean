import SchemaWire.Proofs.Agreement

/-!
# Parsing does not look at places

Where the places of tokens are moved, parsing gives the same tree with its places moved alike, and stops at the same
token for the same reason. One lemma for each reader says so (`…_relocated`), and puts together what its steps do
(`moved_bind`). The move is any function of byte offsets: one that adds a length carries a source behind another, and
one that is constant forgets all places.
-/

namespace SchemaWire

/-! ## Moving places -/

section Trees

variable (f : Nat → Nat)

def Span.relocated (s : Span) : Span :=
  ⟨f s.start, f s.stop⟩

def Located.relocated (t : Located) : Located :=
  ⟨t.token, t.span.relocated f⟩

def Identifier.relocated (i : Identifier) : Identifier :=
  ⟨i.name, i.span.relocated f⟩

def TypePath.relocated (p : TypePath) : TypePath :=
  ⟨p.segments.map (Identifier.relocated f), p.span.relocated f⟩

def Literal.relocated (l : Literal) : Literal :=
  ⟨l.value, l.span.relocated f⟩

def SizedType.relocated (s : SizedType) : SizedType :=
  ⟨s.name.relocated f, s.size.relocated f, s.span.relocated f⟩

def TypeName.relocated : TypeName → TypeName
  | .path p => .path (p.relocated f)
  | .sized s => .sized (s.relocated f)

def VectorType.relocated (v : VectorType) : VectorType :=
  ⟨v.item.relocated f, v.span.relocated f⟩

def PropertyType.relocated : PropertyType → PropertyType
  | .single t => .single (t.relocated f)
  | .vector v => .vector (v.relocated f)

def Property.relocated (p : Property) : Property :=
  ⟨p.key.relocated f, p.optional, p.type.relocated f, p.span.relocated f⟩

def Comment.relocated (c : Comment) : Comment :=
  ⟨c.text, c.span.relocated f⟩

def BodyEntry.relocated : BodyEntry → BodyEntry
  | .comment c => .comment (c.relocated f)
  | .property p => .property (p.relocated f)

def Declaration.relocated (d : Declaration) : Declaration :=
  ⟨d.ctor.relocated f, d.name.relocated f, d.body.map (BodyEntry.relocated f), d.span.relocated f⟩

def GroupContainer.relocated (c : GroupContainer) : GroupContainer :=
  ⟨c.name.relocated f, c.body.map (BodyEntry.relocated f), c.span.relocated f⟩

def GroupMember.relocated : GroupMember → GroupMember
  | .comment c => .comment (c.relocated f)
  | .container c => .container (c.relocated f)

def TypeGroup.relocated (g : TypeGroup) : TypeGroup :=
  ⟨g.name.relocated f, g.traits.map (TypePath.relocated f), g.body.map (GroupMember.relocated f), g.span.relocated f⟩

def Alias.relocated (a : Alias) : Alias :=
  ⟨a.name.relocated f, a.target.relocated f, a.span.relocated f⟩

def TraitDeclaration.relocated (t : TraitDeclaration) : TraitDeclaration :=
  ⟨t.name.relocated f, t.body.map (BodyEntry.relocated f), t.span.relocated f⟩

mutual

/-- The item with every place in it moved, those in a namespace included. -/
def Item.relocated : Item → Item
  | .comment c => .comment (c.relocated f)
  | .namespaceBlock name body span =>
    .namespaceBlock (name.relocated f) (bodyRelocated body) (span.relocated f)
  | .typeGroup g => .typeGroup (g.relocated f)
  | .aliasDecl a => .aliasDecl (a.relocated f)
  | .traitDecl t => .traitDecl (t.relocated f)
  | .declaration d => .declaration (d.relocated f)

def Item.bodyRelocated : List Item → List Item
  | [] => []
  | item :: rest => item.relocated :: bodyRelocated rest

end

def ParseError.Wanted.relocated : ParseError.Wanted → ParseError.Wanted
  | .noSize path => .noSize (path.relocated f)
  | wanted => wanted

def Rejection.relocated (r : Rejection) : Rejection :=
  ⟨r.wanted.relocated f, r.rest.map (Located.relocated f)⟩

end Trees

theorem Item.bodyRelocated_eq (f : Nat → Nat) (body : List Item) : bodyRelocated f body = body.map (relocated f) := by
  induction body with
  | nil => rfl
  | cons item rest ih => rw [bodyRelocated, ih, List.map_cons]

theorem TypeName.span_relocated (f : Nat → Nat) (t : TypeName) : (t.relocated f).span = t.span.relocated f := by
  cases t <;> rfl

theorem PropertyType.span_relocated (f : Nat → Nat) (t : PropertyType) :
    (t.relocated f).span = t.span.relocated f := by
  cases t with
  | single t => exact t.span_relocated f
  | vector v => rfl

namespace Parser

variable (f : Nat → Nat)

/-- The tokens that lie ahead, with every place moved. -/
def allRelocated (tokens : Tokens) : Tokens :=
  tokens.map (Located.relocated f)

@[simp] theorem allRelocated_nil : allRelocated f [] = [] := rfl

@[simp] theorem allRelocated_cons (t : Located) (rest : Tokens) :
    allRelocated f (t :: rest) = t.relocated f :: allRelocated f rest := rfl

@[simp] theorem length_allRelocated (tokens : Tokens) : (allRelocated f tokens).length = tokens.length :=
  List.length_map _

@[simp] theorem token_relocated (t : Located) : (t.relocated f).token = t.token := rfl

@[simp] theorem span_relocated (t : Located) : (t.relocated f).span = t.span.relocated f := rfl

@[simp] theorem tail_allRelocated (tokens : Tokens) : (allRelocated f tokens).tail = allRelocated f tokens.tail := by
  cases tokens <;> rfl

@[simp] theorem startsWith_allRelocated (mark : Mark) (tokens : Tokens) :
    startsWith mark (allRelocated f tokens) = startsWith mark tokens := by
  cases tokens <;> rfl

/-- An outcome with every place in it moved: `g` moves what was read. -/
def moved {α : Type} (g : α → α) (outcome : Except Rejection α) : Except Rejection α :=
  (outcome.map g).mapError (Rejection.relocated f)

section Moved

variable {f} {α β : Type} {g : α → α} {g' : β → β} {x y : Except Rejection α}

@[simp] theorem moved_ok (a : α) : moved f g (.ok a) = .ok (g a) := rfl

@[simp] theorem moved_error (r : Rejection) : moved f g (.error r) = .error (r.relocated f) := rfl

theorem moved_bind {k k' : α → Except Rejection β} (hx : y = moved f g x)
    (hk : ∀ a, x = .ok a → k' (g a) = moved f g' (k a)) : (y >>= k') = moved f g' (x >>= k) := by
  subst hx
  cases x with
  | error e => rfl
  | ok a => exact hk a rfl

theorem moved_map {m m' : α → β} (hx : y = moved f g x) (hm : ∀ a, m' (g a) = g' (m a)) :
    y.map m' = moved f g' (x.map m) := by
  subst hx
  cases x with
  | error e => rfl
  | ok a => exact congrArg Except.ok (hm a)

end Moved

/-! ## Names and types -/

theorem name_relocated (context : ParseError.Context) (tokens : Tokens) :
    name context (allRelocated f tokens) =
      moved f (Prod.map (Identifier.relocated f) (allRelocated f)) (name context tokens) := by
  cases tokens with
  | nil => rfl
  | cons t rest =>
    simp only [allRelocated_cons, name, token_relocated]
    cases t.token.name? <;> rfl

theorem expect_relocated (mark : Mark) (tokens : Tokens) :
    expect mark (allRelocated f tokens) =
      moved f (Prod.map (Span.relocated f) (allRelocated f)) (expect mark tokens) := by
  cases tokens with
  | nil => rfl
  | cons t rest =>
    simp only [allRelocated_cons, expect, token_relocated]
    by_cases hmark : t.token = .mark mark
    · simp [hmark]
    · simp [hmark, Rejection.relocated, ParseError.Wanted.relocated, allRelocated]

theorem moreSegments_relocated (tokens : Tokens) :
    moreSegments (allRelocated f tokens) =
      moved f (Prod.map (List.map (Identifier.relocated f)) (allRelocated f)) (moreSegments tokens) := by
  fun_induction moreSegments tokens with
  | case1 => rfl
  | case2 t hdot => simp [moreSegments, hdot, Rejection.relocated, ParseError.Wanted.relocated]
  | case3 t hdot => simp [moreSegments, hdot]
  | case4 t u rest hdot text hname ih =>
    simp only [allRelocated_cons, moreSegments, token_relocated, hdot, hname, if_true]
    exact moved_map ih fun _ => rfl
  | case5 t u rest hdot hname =>
    simp [moreSegments, hdot, hname, Rejection.relocated, ParseError.Wanted.relocated, allRelocated]
  | case6 t u rest hdot => simp [moreSegments, hdot]

theorem path_relocated (tokens : Tokens) :
    path (allRelocated f tokens) = moved f (Prod.map (TypePath.relocated f) (allRelocated f)) (path tokens) := by
  apply moved_bind (name_relocated f .pathSegment tokens)
  rintro ⟨first, rest⟩ -
  apply moved_bind (moreSegments_relocated f rest)
  rintro ⟨more, left⟩ -
  have hlast : ((first :: more).map (Identifier.relocated f)).getLast (by simp) =
      ((first :: more).getLast (by simp)).relocated f := List.getLast_map ..
  simp only [List.map_cons] at hlast
  simp only [Prod.map, hlast]
  rfl

theorem literal_relocated (tokens : Tokens) :
    literal (allRelocated f tokens) = moved f (Prod.map (Literal.relocated f) (allRelocated f)) (literal tokens) := by
  cases tokens with
  | nil => rfl
  | cons t rest =>
    obtain ⟨token, span⟩ := t
    cases token <;> rfl

theorem typeName_relocated (tokens : Tokens) :
    typeName (allRelocated f tokens) =
      moved f (Prod.map (TypeName.relocated f) (allRelocated f)) (typeName tokens) := by
  apply moved_bind (path_relocated f tokens)
  rintro ⟨⟨segments, place⟩, rest⟩ -
  simp only [Prod.map, startsWith_allRelocated]
  by_cases hbracket : startsWith .leftBracket rest = true
  · simp only [hbracket, if_true]
    match segments with
    | [] => rfl
    | first :: second :: more => rfl
    | [base] =>
      rw [tail_allRelocated]
      apply moved_bind (literal_relocated f rest.tail)
      rintro ⟨size, after⟩ -
      apply moved_bind (expect_relocated f .rightBracket after)
      rintro ⟨closing, left⟩ -
      rfl
  · rw [if_neg hbracket, if_neg hbracket]
    rfl

theorem propertyType_relocated (tokens : Tokens) :
    propertyType (allRelocated f tokens) =
      moved f (Prod.map (PropertyType.relocated f) (allRelocated f)) (propertyType tokens) := by
  by_cases hvector : ∃ span less rest, tokens = ⟨.ident "Vector", span⟩ :: ⟨.mark .less, less⟩ :: rest
  · obtain ⟨span, less, rest, rfl⟩ := hvector
    apply moved_bind (typeName_relocated f rest)
    rintro ⟨item, after⟩ -
    apply moved_bind (expect_relocated f .greater after)
    rintro ⟨closing, left⟩ -
    rfl
  · have hvector' : ¬∃ span less rest,
        allRelocated f tokens = ⟨.ident "Vector", span⟩ :: ⟨.mark .less, less⟩ :: rest := by
      rintro ⟨span, less, rest, htokens⟩
      obtain ⟨⟨_, place⟩, after, rfl, ht, hafter⟩ := List.map_eq_cons_iff.mp htokens
      obtain ⟨⟨_, place'⟩, rest', rfl, hu, -⟩ := List.map_eq_cons_iff.mp hafter
      cases ht
      cases hu
      exact hvector ⟨place, place', rest', rfl⟩
    rw [propertyType_single hvector, propertyType_single hvector']
    exact moved_map (typeName_relocated f tokens) fun _ => rfl

theorem question_relocated (tokens : Tokens) :
    question (allRelocated f tokens) = ((question tokens).1, allRelocated f (question tokens).2) := by
  simp only [question, startsWith_allRelocated, tail_allRelocated]
  split <;> rfl

theorem property_relocated (tokens : Tokens) :
    property (allRelocated f tokens) = moved f (Prod.map (Property.relocated f) (allRelocated f)) (property tokens) := by
  apply moved_bind (name_relocated f .propertyName tokens)
  rintro ⟨key, rest⟩ -
  simp only [Prod.map, question_relocated]
  apply moved_bind (expect_relocated f .colon _)
  rintro ⟨colon, after⟩ -
  apply moved_bind (propertyType_relocated f after)
  rintro ⟨type, left⟩ -
  simp only [Prod.map, PropertyType.span_relocated]
  rfl

/-! ## Comments -/

theorem dashWords_relocated (tokens : Tokens) :
    dashWords (allRelocated f tokens) = moved f (Prod.map id (Prod.map f (allRelocated f))) (dashWords tokens) := by
  fun_induction dashWords tokens with
  | case1 => rfl
  | case2 t rest hdash => simp [dashWords, hdash, Span.relocated]
  | case3 t rest hdash ih =>
    rw [allRelocated_cons, dashWords, token_relocated, if_neg hdash]
    exact moved_map ih fun _ => rfl

theorem comment?_relocated (tokens : Tokens) :
    comment? (allRelocated f tokens) =
      moved f (Option.map (Prod.map (Comment.relocated f) (allRelocated f))) (comment? tokens) := by
  cases tokens with
  | nil => rfl
  | cons t rest =>
    obtain ⟨token, span⟩ := t
    cases token with
    | mark mark =>
      cases mark with
      | tripleDash => exact moved_map (dashWords_relocated f rest) fun _ => rfl
      | _ => rfl
    | _ => rfl

/-! ## Bodies -/

theorem braceEntries_relocated (separated : Bool) (tokens : Tokens) :
    braceEntries separated (allRelocated f tokens) =
      moved f (Prod.map (List.map (BodyEntry.relocated f)) (Prod.map f (allRelocated f)))
        (braceEntries separated tokens) := by
  induction hn : tokens.length using Nat.strongRecOn generalizing separated tokens with
  | ind n ih =>
    subst hn
    by_cases hclosing : startsWith .rightBrace tokens = true
    · obtain ⟨span, rest, rfl⟩ := exists_of_startsWith hclosing
      rw [braceEntries_rightBrace]
      exact braceEntries_rightBrace
    rw [Bool.not_eq_true] at hclosing
    rw [braceEntries_eq hclosing, braceEntries_eq (by rwa [startsWith_allRelocated])]
    apply moved_bind (comment?_relocated f tokens)
    rintro (_ | ⟨c, rest⟩) hc
    · cases separated with
      | true =>
        simp only [if_true]
        cases tokens with
        | nil => rfl
        | cons t after =>
          simp only [allRelocated_cons, reduceCtorEq, if_false]
          apply moved_bind (property_relocated f (t :: after))
          rintro ⟨p, rest⟩ hp
          exact moved_map (ih _ (length_of_property hp) _ _ rfl) fun _ => rfl
      | false =>
        apply moved_bind (expect_relocated f .semicolon tokens)
        rintro ⟨semicolon, rest⟩ hs
        exact ih _ (length_of_expect hs) _ _ rfl
    · exact moved_map (ih _ (length_of_comment? hc) _ _ rfl) fun _ => rfl

theorem arrowEntries_relocated (tokens : Tokens) :
    arrowEntries (allRelocated f tokens) =
      moved f (Prod.map (List.map (BodyEntry.relocated f)) (Prod.map f (allRelocated f))) (arrowEntries tokens) := by
  induction hn : tokens.length using Nat.strongRecOn generalizing tokens with
  | ind n ih =>
    subst hn
    rw [arrowEntries_eq, arrowEntries_eq]
    apply moved_bind (comment?_relocated f tokens)
    rintro (_ | ⟨c, rest⟩) hc
    · apply moved_bind (property_relocated f tokens)
      rintro ⟨p, rest⟩ hp
      have hshorter := length_of_property hp
      cases rest with
      | nil => rfl
      | cons t after =>
        obtain ⟨token, span⟩ := t
        cases token with
        | mark mark =>
          cases mark with
          | comma => exact moved_map (ih _ (by simp at hshorter; omega) _ rfl) fun _ => rfl
          | _ => rfl
        | _ => rfl
    · exact moved_map (ih _ (length_of_comment? hc) _ rfl) fun _ => rfl

theorem containerBody_relocated (before : Nat) (tokens : Tokens) :
    containerBody (f before) (allRelocated f tokens) =
      moved f (Prod.map (List.map (BodyEntry.relocated f)) (Prod.map f (allRelocated f)))
        (containerBody before tokens) := by
  cases tokens with
  | nil => rfl
  | cons t after =>
    obtain ⟨token, span⟩ := t
    cases token with
    | mark mark =>
      cases mark with
      | leftBrace => exact braceEntries_relocated f true after
      | arrow =>
        by_cases hsemicolon : startsWith .semicolon after = true
        · obtain ⟨span', rest, rfl⟩ := exists_of_startsWith hsemicolon
          rfl
        · rw [Bool.not_eq_true] at hsemicolon
          rw [containerBody_arrow before span hsemicolon, allRelocated_cons]
          exact (containerBody_arrow _ _ (by rwa [startsWith_allRelocated])).trans (arrowEntries_relocated f after)
      | _ => rfl
    | _ => rfl

/-! ## Items -/

theorem groupContainer_relocated (tokens : Tokens) :
    groupContainer (allRelocated f tokens) =
      moved f (Prod.map (GroupContainer.relocated f) (allRelocated f)) (groupContainer tokens) := by
  apply moved_bind (path_relocated f tokens)
  rintro ⟨name, rest⟩ -
  apply moved_bind (containerBody_relocated f name.span.stop rest)
  rintro ⟨body, stop, left⟩ -
  rfl

theorem members_relocated (tokens : Tokens) :
    members (allRelocated f tokens) =
      moved f (Prod.map (List.map (GroupMember.relocated f)) (Prod.map f (allRelocated f))) (members tokens) := by
  induction hn : tokens.length using Nat.strongRecOn generalizing tokens with
  | ind n ih =>
    subst hn
    by_cases hclosing : startsWith .rightBrace tokens = true
    · obtain ⟨span, rest, rfl⟩ := exists_of_startsWith hclosing
      rw [members_rightBrace]
      exact members_rightBrace
    rw [Bool.not_eq_true] at hclosing
    rw [members_eq hclosing, members_eq (by rwa [startsWith_allRelocated])]
    apply moved_bind (comment?_relocated f tokens)
    rintro (_ | ⟨c, rest⟩) hc
    · cases tokens with
      | nil => rfl
      | cons t after =>
        simp only [allRelocated_cons, reduceCtorEq, if_false]
        apply moved_bind (groupContainer_relocated f (t :: after))
        rintro ⟨c, rest⟩ hg
        exact moved_map (ih _ (length_of_groupContainer hg) _ rfl) fun _ => rfl
    · exact moved_map (ih _ (length_of_comment? hc) _ rfl) fun _ => rfl

theorem paths_relocated (tokens : Tokens) :
    paths (allRelocated f tokens) =
      moved f (Prod.map (List.map (TypePath.relocated f)) (allRelocated f)) (paths tokens) := by
  induction hn : tokens.length using Nat.strongRecOn generalizing tokens with
  | ind n ih =>
    subst hn
    rw [paths_eq, paths_eq]
    apply moved_bind (path_relocated f tokens)
    rintro ⟨p, rest⟩ hp
    have hshorter := length_of_path hp
    cases rest with
    | nil => rfl
    | cons t after =>
      obtain ⟨token, span⟩ := t
      cases token with
      | mark mark =>
        cases mark with
        | comma => exact moved_map (ih _ (by simp at hshorter; omega) _ rfl) fun _ => rfl
        | _ => rfl
      | _ => rfl

theorem implemented_relocated (tokens : Tokens) :
    implemented (allRelocated f tokens) =
      moved f (Prod.map (List.map (TypePath.relocated f)) (allRelocated f)) (implemented tokens) := by
  cases tokens with
  | nil => rfl
  | cons t after =>
    obtain ⟨token, span⟩ := t
    cases token with
    | keyword word =>
      cases word with
      | implementsWord => exact paths_relocated f after
      | _ => rfl
    | _ => rfl

theorem startsGroup_relocated (tokens : Tokens) : startsGroup (allRelocated f tokens) = startsGroup tokens := by
  match tokens with
  | [] => rfl
  | [_] => rfl
  | _ :: _ :: _ => rfl

theorem typeGroup_relocated (start : Nat) (tokens : Tokens) :
    typeGroup (f start) (allRelocated f tokens) =
      moved f (Prod.map (TypeGroup.relocated f) (allRelocated f)) (typeGroup start tokens) := by
  apply moved_bind (name_relocated f .typeName tokens)
  rintro ⟨name, rest⟩ -
  apply moved_bind (implemented_relocated f rest)
  rintro ⟨traits, rest'⟩ -
  apply moved_bind (expect_relocated f .leftBrace rest')
  rintro ⟨brace, inner⟩ -
  apply moved_bind (members_relocated f inner)
  rintro ⟨body, stop, left⟩ -
  rfl

theorem aliasDecl_relocated (start : Nat) (tokens : Tokens) :
    aliasDecl (f start) (allRelocated f tokens) =
      moved f (Prod.map (Alias.relocated f) (allRelocated f)) (aliasDecl start tokens) := by
  apply moved_bind (name_relocated f .aliasName tokens)
  rintro ⟨name, rest⟩ -
  apply moved_bind (expect_relocated f .equals rest)
  rintro ⟨equals, rest'⟩ -
  apply moved_bind (typeName_relocated f rest')
  rintro ⟨target, left⟩ -
  have hplain (left : Tokens) :
      (.ok (⟨name.relocated f, target.relocated f, ⟨f start, (target.relocated f).span.stop⟩⟩, allRelocated f left) :
        Except Rejection (Alias × Tokens)) =
      moved f (Prod.map (Alias.relocated f) (allRelocated f))
        (.ok (⟨name, target, ⟨start, target.span.stop⟩⟩, left)) := by
    rw [TypeName.span_relocated]
    rfl
  cases left with
  | nil => exact hplain []
  | cons t after =>
    obtain ⟨token, span⟩ := t
    cases token with
    | mark mark =>
      cases mark with
      | semicolon => rfl
      | _ => exact hplain (⟨.mark _, span⟩ :: after)
    | _ => exact hplain (⟨_, span⟩ :: after)

theorem traitDecl_relocated (start : Nat) (tokens : Tokens) :
    traitDecl (f start) (allRelocated f tokens) =
      moved f (Prod.map (TraitDeclaration.relocated f) (allRelocated f)) (traitDecl start tokens) := by
  apply moved_bind (name_relocated f .traitName tokens)
  rintro ⟨name, rest⟩ -
  cases rest with
  | nil => rfl
  | cons t after =>
    obtain ⟨token, span⟩ := t
    cases token with
    | mark mark =>
      cases mark with
      | leftBrace =>
        apply moved_bind (braceEntries_relocated f true after)
        rintro ⟨body, stop, left⟩ -
        rfl
      | _ => rfl
    | _ => rfl

theorem declarationNames_relocated (tokens : Tokens) :
    declarationNames (allRelocated f tokens) =
      moved f (Prod.map (TypePath.relocated f) (Prod.map (TypePath.relocated f) (Prod.map f (allRelocated f))))
        (declarationNames tokens) := by
  apply moved_bind (path_relocated f tokens)
  rintro ⟨first, rest⟩ -
  simp only [Prod.map, startsWith_allRelocated, tail_allRelocated]
  by_cases hcolon : startsWith .colon rest = true
  · simp only [hcolon, if_true]
    apply moved_bind (path_relocated f rest.tail)
    rintro ⟨name, left⟩ -
    rfl
  · simp only [hcolon]
    apply moved_bind (path_relocated f rest)
    rintro ⟨ctor, left⟩ -
    rfl

theorem declaration_relocated (t : Located) (rest : Tokens) :
    declaration (allRelocated f (t :: rest)) =
      moved f (Prod.map (Declaration.relocated f) (allRelocated f)) (declaration (t :: rest)) := by
  apply moved_bind (declarationNames_relocated f (t :: rest))
  rintro ⟨ctor, name, before, after⟩ -
  apply moved_bind (containerBody_relocated f before after)
  rintro ⟨body, stop, left⟩ -
  rfl

theorem keywordItem_relocated (tokens : Tokens) :
    keywordItem (allRelocated f tokens) =
      moved f (Prod.map (Item.relocated f) (allRelocated f)) (keywordItem tokens) := by
  cases tokens with
  | nil => rfl
  | cons t rest =>
    have hgroup := startsGroup_relocated f rest
    obtain ⟨token, span⟩ := t
    by_cases htype : token = .keyword .typeWord ∧ startsGroup rest = true
    · obtain ⟨rfl, hstarts⟩ := htype
      rw [keywordItem_group hstarts]
      exact (keywordItem_group (hgroup.trans hstarts)).trans
        (moved_map (typeGroup_relocated f span.start rest) fun _ => rfl)
    by_cases halias : token = .keyword .aliasWord
    · subst halias
      exact moved_map (aliasDecl_relocated f span.start rest) fun _ => rfl
    by_cases htrait : token = .keyword .traitWord
    · subst htrait
      exact moved_map (traitDecl_relocated f span.start rest) fun _ => rfl
    cases hname : token.name? with
    | some text =>
      have hstarts : token = .keyword .typeWord → startsGroup rest = false := by simpa using htype
      rw [keywordItem_declaration (by simp [hname]) hstarts halias htrait, allRelocated_cons,
        keywordItem_declaration (by simp [hname]) (hgroup ▸ hstarts) halias htrait]
      exact moved_map (declaration_relocated f ⟨token, span⟩ rest) fun _ => rfl
    | none =>
      rw [keywordItem_error hname, allRelocated_cons, keywordItem_error hname]
      rfl

theorem namespaceHead_relocated (tokens : Tokens) :
    namespaceHead (allRelocated f tokens) =
      moved f (Prod.map (Identifier.relocated f) (allRelocated f)) (namespaceHead tokens) := by
  apply moved_bind (name_relocated f .namespaceName tokens)
  rintro ⟨name, rest⟩ -
  apply moved_bind (expect_relocated f .leftBrace rest)
  rintro ⟨brace, left⟩ -
  rfl

theorem readItems_relocated (inside : Bool) (tokens : Tokens) :
    readItems inside (allRelocated f tokens) =
      moved f (Prod.map (List.map (Item.relocated f)) (allRelocated f)) (readItems inside tokens) := by
  induction hn : tokens.length using Nat.strongRecOn generalizing inside tokens with
  | ind n ih =>
    subst hn
    cases tokens with
    | nil =>
      cases inside with
      | true => rw [allRelocated_nil, readItems_unclosed]; rfl
      | false => rw [allRelocated_nil, readItems_nil]; rfl
    | cons t rest =>
      by_cases hclosing : inside = true ∧ t.token = .mark .rightBrace
      · obtain ⟨token, span⟩ := t
        obtain ⟨rfl, rfl⟩ := hclosing
        rw [readItems_rightBrace]
        exact readItems_rightBrace
      have hcomment := comment?_relocated f (t :: rest)
      cases hc : comment? (t :: rest) with
      | error e =>
        rw [hc] at hcomment
        rw [readItems_of_comment?_error hc, readItems_of_comment?_error hcomment]
        rfl
      | ok found =>
        rw [hc] at hcomment
        cases found with
        | some found =>
          obtain ⟨c, after⟩ := found
          rw [readItems_of_comment? hc, readItems_of_comment? hcomment]
          exact moved_map (ih _ (length_of_comment? hc) _ _ rfl) fun _ => rfl
        | none =>
          by_cases hword : t.token = .keyword .namespaceWord
          · obtain ⟨token, span⟩ := t
            cases hword
            rw [readItems_namespace_eq]
            refine readItems_namespace_eq.trans ?_
            apply moved_bind (namespaceHead_relocated f rest)
            rintro ⟨name, inner⟩ hhead
            have hinner := length_of_namespaceHead hhead
            apply moved_bind (ih _ (by simp; omega) true inner rfl)
            rintro ⟨body, closing⟩ hbody
            have hclosing := length_of_readItems hbody
            apply moved_bind (expect_relocated f .rightBrace closing)
            rintro ⟨brace, after⟩ hbrace
            have hafter := length_of_expect hbrace
            refine moved_map (ih _ (by simp; omega) inside after rfl) fun _ => ?_
            simp [Item.relocated, Item.bodyRelocated_eq, Prod.map, Span.relocated]
          · have hclosing' : inside = true → t.token ≠ .mark .rightBrace := fun h ht => hclosing ⟨h, ht⟩
            rw [readItems_item hc hword hclosing']
            refine (readItems_item hcomment hword hclosing').trans ?_
            apply moved_bind (keywordItem_relocated f (t :: rest))
            rintro ⟨item, after⟩ hitem
            exact moved_map (ih _ (length_of_keywordItem hitem) inside after rfl) fun _ => rfl

end Parser

namespace Located

/-- Tokens are moved with what comes before the end of the source. -/
theorem beforeEof_relocated (f : Nat → Nat) (tokens : List Located) :
    beforeEof (tokens.map (relocated f)) = (beforeEof tokens).map (relocated f) := by
  unfold beforeEof
  rw [List.takeWhile_map]
  rfl

end Located

end SchemaWire
