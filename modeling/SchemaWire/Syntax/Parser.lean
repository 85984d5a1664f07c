import SchemaWire.Syntax.Stream

/-!
# The grammar on lists of tokens

The readers of `TokenStream`, as functions on the tokens that lie ahead of a stream. A reader takes them and returns what
it read with the tokens it left, which are fewer: the `length_…` lemmas say so, and every loop ends by them. Places of
nodes are put together from those of their parts, and a rejection holds the tokens from the refused one on.

The tokens ahead of a stream end before the first end-of-source token, so that no reader here knows of it. That each of
them does what the reader of streams does is shown in `SchemaWire.Proofs.Agreement`.
-/

namespace SchemaWire

namespace Parser

/-- The tokens that lie ahead. -/
abbrev Tokens := List Located

/-- Reads a name, an identifier or a keyword. -/
def name (context : ParseError.Context) : Tokens → Except Rejection (Identifier × Tokens)
  | [] => .error ⟨.context context, []⟩
  | t :: rest =>
    match t.token.name? with
    | some text => .ok (⟨text, t.span⟩, rest)
    | none => .error ⟨.context context, t :: rest⟩

/-- Reads a mark, and returns its place. -/
def expect (mark : Mark) : Tokens → Except Rejection (Span × Tokens)
  | [] => .error ⟨.mark mark, []⟩
  | t :: rest => if t.token = .mark mark then .ok (t.span, rest) else .error ⟨.mark mark, t :: rest⟩

/-- Whether the next token is the mark. -/
def startsWith (mark : Mark) : Tokens → Bool
  | [] => false
  | t :: _ => t.token = .mark mark

/-- Reads `.name` as often as it comes. -/
def moreSegments : Tokens → Except Rejection (List Identifier × Tokens)
  | [] => .ok ([], [])
  | [t] => if t.token = .mark .dot then .error ⟨.context .pathSegment, []⟩ else .ok ([], [t])
  | t :: u :: rest =>
    if t.token = .mark .dot then
      match u.token.name? with
      | some text => (moreSegments rest).map fun (segments, rest) => (⟨text, u.span⟩ :: segments, rest)
      | none => .error ⟨.context .pathSegment, u :: rest⟩
    else .ok ([], t :: u :: rest)

/-- Reads a dotted name. -/
def path (tokens : Tokens) : Except Rejection (TypePath × Tokens) := do
  let (first, rest) ← name .pathSegment tokens
  let (more, rest) ← moreSegments rest
  return (⟨first :: more, ⟨first.span.start, ((first :: more).getLast (by simp)).span.stop⟩⟩, rest)

/-- Reads an integer. -/
def literal : Tokens → Except Rejection (Literal × Tokens)
  | ⟨.integer value, span⟩ :: rest => .ok (⟨value, span⟩, rest)
  | tokens => .error ⟨.context .size, tokens⟩

/-- Reads a dotted name, or a name with a size. -/
def typeName (tokens : Tokens) : Except Rejection (TypeName × Tokens) := do
  let (p, rest) ← path tokens
  if startsWith .leftBracket rest then
    match p.segments with
    | [base] =>
      let (size, rest) ← literal rest.tail
      let (closing, rest) ← expect .rightBracket rest
      return (.sized ⟨base, size, ⟨p.span.start, closing.stop⟩⟩, rest)
    | _ => .error ⟨.noSize p, rest⟩
  else return (.path p, rest)

/-- Reads the type of a property: `Vector<item>`, or a type name. -/
def propertyType : Tokens → Except Rejection (PropertyType × Tokens)
  | ⟨.ident "Vector", span⟩ :: ⟨.mark .less, _⟩ :: rest => do
    let (item, rest) ← typeName rest
    let (closing, rest) ← expect .greater rest
    return (.vector ⟨item, ⟨span.start, closing.stop⟩⟩, rest)
  | tokens => do
    let (type, rest) ← typeName tokens
    return (.single type, rest)

/-- Reads a question mark if there is one, and says whether there was. -/
def question (tokens : Tokens) : Bool × Tokens :=
  if startsWith .question tokens then (true, tokens.tail) else (false, tokens)

/-- Reads `key?: type`. -/
def property (tokens : Tokens) : Except Rejection (Property × Tokens) := do
  let (key, rest) ← name .propertyName tokens
  let (optional, rest) := question rest
  let (_, rest) ← expect .colon rest
  let (type, rest) ← propertyType rest
  return (⟨key, optional, type, ⟨key.span.start, type.span.stop⟩⟩, rest)

/-- Reads the words of a `--- … ---` block and its closing mark, whose end comes second. -/
def dashWords : Tokens → Except Rejection (List String × Nat × Tokens)
  | [] => .error ⟨.mark .tripleDash, []⟩
  | t :: rest =>
    if t.token = .mark .tripleDash then .ok ([], t.span.stop, rest)
    else (dashWords rest).map fun (words, stop, rest) => (t.token.spelling :: words, stop, rest)

/-- Reads a comment if the tokens begin with one. The words of a `--- … ---` block are joined by spaces. -/
def comment? : Tokens → Except Rejection (Option (Comment × Tokens))
  | ⟨.comment text, span⟩ :: rest => .ok (some (⟨text, span⟩, rest))
  | ⟨.mark .tripleDash, span⟩ :: rest =>
    (dashWords rest).map fun (words, stop, rest) =>
      some (⟨" ".intercalate words, ⟨span.start, stop⟩⟩, rest)
  | _ => .ok none

/-! ### What these readers leave is shorter -/

theorem length_of_name {context : ParseError.Context} {tokens : Tokens} {i : Identifier} {rest : Tokens}
    (h : name context tokens = .ok (i, rest)) : rest.length < tokens.length := by
  unfold name at h
  grind

theorem length_of_expect {mark : Mark} {tokens : Tokens} {span : Span} {rest : Tokens}
    (h : expect mark tokens = .ok (span, rest)) : rest.length < tokens.length := by
  unfold expect at h
  grind

theorem length_of_moreSegments {tokens : Tokens} {segments : List Identifier} {rest : Tokens}
    (h : moreSegments tokens = .ok (segments, rest)) : rest.length ≤ tokens.length := by
  fun_induction moreSegments tokens generalizing segments rest <;> grind [→ exists_of_map_eq_ok]

theorem length_of_path {tokens : Tokens} {p : TypePath} {rest : Tokens} (h : path tokens = .ok (p, rest)) :
    rest.length < tokens.length := by
  simp only [path, bind, Except.bind, pure, Except.pure] at h
  grind [→ length_of_name, → length_of_moreSegments]

theorem length_of_literal {tokens : Tokens} {l : Literal} {rest : Tokens}
    (h : literal tokens = .ok (l, rest)) : rest.length < tokens.length := by
  unfold literal at h
  grind

theorem length_of_typeName {tokens : Tokens} {type : TypeName} {rest : Tokens}
    (h : typeName tokens = .ok (type, rest)) : rest.length < tokens.length := by
  simp only [typeName, bind, Except.bind, pure, Except.pure] at h
  grind [→ length_of_path, → length_of_literal, → length_of_expect]

theorem length_of_propertyType {tokens : Tokens} {type : PropertyType} {rest : Tokens}
    (h : propertyType tokens = .ok (type, rest)) : rest.length < tokens.length := by
  simp only [propertyType, bind, Except.bind, pure, Except.pure] at h
  grind [→ length_of_typeName, → length_of_expect]

theorem length_question_le (tokens : Tokens) : (question tokens).2.length ≤ tokens.length := by
  unfold question
  split <;> simp

theorem length_of_property {tokens : Tokens} {p : Property} {rest : Tokens}
    (h : property tokens = .ok (p, rest)) : rest.length < tokens.length := by
  simp only [property, bind, Except.bind, pure, Except.pure] at h
  grind [→ length_of_name, length_question_le, → length_of_expect, → length_of_propertyType]

theorem length_of_dashWords {tokens : Tokens} {words : List String} {stop : Nat} {rest : Tokens}
    (h : dashWords tokens = .ok (words, stop, rest)) : rest.length < tokens.length := by
  fun_induction dashWords tokens generalizing words <;> grind [→ exists_of_map_eq_ok]

theorem length_of_comment? {tokens : Tokens} {c : Comment} {rest : Tokens}
    (h : comment? tokens = .ok (some (c, rest))) : rest.length < tokens.length := by
  unfold comment? at h
  grind [→ exists_of_map_eq_ok, → length_of_dashWords]

/-! ## Bodies -/

/-- Reads the entries of a body up to its closing brace, whose end comes second. Entries are comments and
properties; `separated` says whether a property may come next, or a semicolon has to come before it. The
last property needs none. -/
def braceEntries (separated : Bool) (tokens : Tokens) : Except Rejection (List BodyEntry × Nat × Tokens) :=
  match tokens with
  | ⟨.mark .rightBrace, span⟩ :: rest => .ok ([], span.stop, rest)
  | tokens =>
    match hc : comment? tokens with
    | .error e => .error e
    | .ok (some (c, rest)) =>
      have := length_of_comment? hc
      (braceEntries separated rest).map fun (entries, stop, rest) => (.comment c :: entries, stop, rest)
    | .ok none =>
      if separated then
        match tokens with
        | [] => .error ⟨.mark .rightBrace, []⟩
        | tokens =>
          match hp : property tokens with
          | .error e => .error e
          | .ok (p, rest) =>
            have := length_of_property hp
            (braceEntries false rest).map fun (entries, stop, rest) => (.property p :: entries, stop, rest)
      else
        match hs : expect .semicolon tokens with
        | .error e => .error e
        | .ok (_, rest) =>
          have := length_of_expect hs
          braceEntries true rest
termination_by tokens.length

/-- Reads the properties of a body that an arrow began, with the place where the body ends second. Commas
separate them, comments may come before each of them, and a semicolon may end them. -/
def arrowEntries (tokens : Tokens) : Except Rejection (List BodyEntry × Nat × Tokens) :=
  match hc : comment? tokens with
  | .error e => .error e
  | .ok (some (c, rest)) =>
    have := length_of_comment? hc
    (arrowEntries rest).map fun (entries, stop, rest) => (.comment c :: entries, stop, rest)
  | .ok none =>
    match hp : property tokens with
    | .error e => .error e
    | .ok (p, ⟨.mark .comma, _⟩ :: rest) =>
      have := length_of_property hp
      (arrowEntries rest).map fun (entries, stop, rest) => (.property p :: entries, stop, rest)
    | .ok (p, ⟨.mark .semicolon, span⟩ :: rest) => .ok ([.property p], span.stop, rest)
    | .ok (p, rest) => .ok ([.property p], p.span.stop, rest)
termination_by tokens.length
decreasing_by all_goals grind

/-- Reads the body after a container's name, which ended at `stop`: in braces, after an arrow, or nothing
at all. The last two may end with a semicolon. The place where the body ends comes second. -/
def containerBody (stop : Nat) : Tokens → Except Rejection (List BodyEntry × Nat × Tokens)
  | ⟨.mark .leftBrace, _⟩ :: rest => braceEntries true rest
  | ⟨.mark .arrow, _⟩ :: ⟨.mark .semicolon, span⟩ :: rest => .ok ([], span.stop, rest)
  | ⟨.mark .arrow, _⟩ :: rest => arrowEntries rest
  | ⟨.mark .semicolon, span⟩ :: rest => .ok ([], span.stop, rest)
  | tokens => .ok ([], stop, tokens)

theorem length_of_braceEntries {separated : Bool} {tokens : Tokens} {entries : List BodyEntry} {stop : Nat}
    {rest : Tokens} (h : braceEntries separated tokens = .ok (entries, stop, rest)) :
    rest.length < tokens.length := by
  fun_induction braceEntries separated tokens generalizing entries <;>
    grind [→ exists_of_map_eq_ok, → length_of_comment?, → length_of_property, → length_of_expect]

theorem length_of_arrowEntries {tokens : Tokens} {entries : List BodyEntry} {stop : Nat} {rest : Tokens}
    (h : arrowEntries tokens = .ok (entries, stop, rest)) : rest.length < tokens.length := by
  fun_induction arrowEntries tokens generalizing entries <;>
    grind [→ exists_of_map_eq_ok, → length_of_comment?, → length_of_property]

theorem length_of_containerBody {before : Nat} {tokens : Tokens} {entries : List BodyEntry} {stop : Nat}
    {rest : Tokens} (h : containerBody before tokens = .ok (entries, stop, rest)) :
    rest.length ≤ tokens.length := by
  unfold containerBody at h
  grind [→ length_of_braceEntries, → length_of_arrowEntries]

/-! ## Items -/

/-- Reads a constructor of a type group. -/
def groupContainer (tokens : Tokens) : Except Rejection (GroupContainer × Tokens) := do
  let (name, rest) ← path tokens
  let (body, stop, rest) ← containerBody name.span.stop rest
  return (⟨name, body, ⟨name.span.start, stop⟩⟩, rest)

theorem length_of_groupContainer {tokens : Tokens} {c : GroupContainer} {rest : Tokens}
    (h : groupContainer tokens = .ok (c, rest)) : rest.length < tokens.length := by
  simp only [groupContainer, bind, Except.bind, pure, Except.pure] at h
  grind [→ length_of_path, → length_of_containerBody]

/-- Reads the members of a type group up to its closing brace, whose end comes second. -/
def members (tokens : Tokens) : Except Rejection (List GroupMember × Nat × Tokens) :=
  match tokens with
  | ⟨.mark .rightBrace, span⟩ :: rest => .ok ([], span.stop, rest)
  | tokens =>
    match hc : comment? tokens with
    | .error e => .error e
    | .ok (some (c, rest)) =>
      have := length_of_comment? hc
      (members rest).map fun (members, stop, rest) => (.comment c :: members, stop, rest)
    | .ok none =>
      match tokens with
      | [] => .error ⟨.mark .rightBrace, []⟩
      | tokens =>
        match hg : groupContainer tokens with
        | .error e => .error e
        | .ok (c, rest) =>
          have := length_of_groupContainer hg
          (members rest).map fun (members, stop, rest) => (.container c :: members, stop, rest)
termination_by tokens.length

/-- Reads dotted names with commas between them. -/
def paths (tokens : Tokens) : Except Rejection (List TypePath × Tokens) :=
  match hp : path tokens with
  | .error e => .error e
  | .ok (p, ⟨.mark .comma, _⟩ :: rest) =>
    have := length_of_path hp
    (paths rest).map fun (more, rest) => (p :: more, rest)
  | .ok (p, rest) => .ok ([p], rest)
termination_by tokens.length
decreasing_by grind

/-- Reads `implements` and the traits after it, if it comes next. -/
def implemented : Tokens → Except Rejection (List TypePath × Tokens)
  | ⟨.keyword .implementsWord, _⟩ :: rest => paths rest
  | tokens => .ok ([], tokens)

/-- Whether what follows the word `type` makes it the start of a group: a name, and then a brace or
`implements`. Anything else makes it a name. -/
def startsGroup : Tokens → Bool
  | t :: u :: _ =>
    t.token.name?.isSome && (u.token = .mark .leftBrace || u.token = .keyword .implementsWord)
  | _ => false

/-- Reads a type group after its keyword, which began at `start`. -/
def typeGroup (start : Nat) (tokens : Tokens) : Except Rejection (TypeGroup × Tokens) := do
  let (name, rest) ← name .typeName tokens
  let (traits, rest) ← implemented rest
  let (_, rest) ← expect .leftBrace rest
  let (body, stop, rest) ← members rest
  return (⟨name, traits, body, ⟨start, stop⟩⟩, rest)

/-- Reads an alias after its keyword, which began at `start`. -/
def aliasDecl (start : Nat) (tokens : Tokens) : Except Rejection (Alias × Tokens) := do
  let (name, rest) ← name .aliasName tokens
  let (_, rest) ← expect .equals rest
  let (target, rest) ← typeName rest
  match rest with
  | ⟨.mark .semicolon, span⟩ :: rest => return (⟨name, target, ⟨start, span.stop⟩⟩, rest)
  | rest => return (⟨name, target, ⟨start, target.span.stop⟩⟩, rest)

/-- Reads a trait after its keyword, which began at `start`. -/
def traitDecl (start : Nat) (tokens : Tokens) : Except Rejection (TraitDeclaration × Tokens) := do
  let (name, rest) ← name .traitName tokens
  match rest with
  | ⟨.mark .leftBrace, _⟩ :: rest =>
    let (body, stop, rest) ← braceEntries true rest
    return (⟨name, body, ⟨start, stop⟩⟩, rest)
  | ⟨.mark .semicolon, span⟩ :: rest => return (⟨name, [], ⟨start, span.stop⟩⟩, rest)
  | rest => throw ⟨.context .afterTraitName, rest⟩

/-- Reads the two names of a declaration, with the constructor's first: `ctor : Type` or `Type ctor`. The
place where they end comes last. -/
def declarationNames (tokens : Tokens) : Except Rejection (TypePath × TypePath × Nat × Tokens) := do
  let (first, rest) ← path tokens
  if startsWith .colon rest then
    let (name, rest) ← path rest.tail
    return (first, name, name.span.stop, rest)
  else
    let (ctor, rest) ← path rest
    return (ctor, first, ctor.span.stop, rest)

/-- Where the next token begins. -/
def startOf : Tokens → Nat
  | [] => 0
  | t :: _ => t.span.start

/-- Reads a declaration. -/
def declaration (tokens : Tokens) : Except Rejection (Declaration × Tokens) := do
  let (ctor, name, before, rest) ← declarationNames tokens
  let (body, stop, rest) ← containerBody before rest
  return (⟨ctor, name, body, ⟨startOf tokens, stop⟩⟩, rest)

/-- Reads an item that is no comment and no namespace, by its first token. -/
def keywordItem : Tokens → Except Rejection (Item × Tokens)
  | [] => .error ⟨.context .declaration, []⟩
  | t :: rest =>
    if t.token = .keyword .typeWord ∧ startsGroup rest then
      (typeGroup t.span.start rest).map fun (group, rest) => (.typeGroup group, rest)
    else if t.token = .keyword .aliasWord then
      (aliasDecl t.span.start rest).map fun (declaration, rest) => (.aliasDecl declaration, rest)
    else if t.token = .keyword .traitWord then
      (traitDecl t.span.start rest).map fun (declaration, rest) => (.traitDecl declaration, rest)
    else if t.token.name?.isSome then
      (declaration (t :: rest)).map fun (declaration, rest) => (.declaration declaration, rest)
    else .error ⟨.context .declaration, t :: rest⟩

theorem length_of_members {tokens : Tokens} {ms : List GroupMember} {stop : Nat} {rest : Tokens}
    (h : members tokens = .ok (ms, stop, rest)) : rest.length < tokens.length := by
  fun_induction members tokens generalizing ms <;>
    grind [→ exists_of_map_eq_ok, → length_of_comment?, → length_of_groupContainer]

theorem length_of_paths {tokens : Tokens} {ps : List TypePath} {rest : Tokens}
    (h : paths tokens = .ok (ps, rest)) : rest.length < tokens.length := by
  fun_induction paths tokens generalizing ps <;> grind [→ exists_of_map_eq_ok, → length_of_path]

theorem length_of_implemented {tokens : Tokens} {ps : List TypePath} {rest : Tokens}
    (h : implemented tokens = .ok (ps, rest)) : rest.length ≤ tokens.length := by
  unfold implemented at h
  grind [→ length_of_paths]

theorem length_of_typeGroup {start : Nat} {tokens : Tokens} {g : TypeGroup} {rest : Tokens}
    (h : typeGroup start tokens = .ok (g, rest)) : rest.length < tokens.length := by
  simp only [typeGroup, bind, Except.bind, pure, Except.pure] at h
  grind [→ length_of_name, → length_of_implemented, → length_of_expect, → length_of_members]

theorem length_of_aliasDecl {start : Nat} {tokens : Tokens} {a : Alias} {rest : Tokens}
    (h : aliasDecl start tokens = .ok (a, rest)) : rest.length < tokens.length := by
  simp only [aliasDecl, bind, Except.bind, pure, Except.pure] at h
  grind [→ length_of_name, → length_of_expect, → length_of_typeName]

theorem length_of_traitDecl {start : Nat} {tokens : Tokens} {d : TraitDeclaration} {rest : Tokens}
    (h : traitDecl start tokens = .ok (d, rest)) : rest.length < tokens.length := by
  simp only [traitDecl, bind, Except.bind, pure, Except.pure, throw, throwThe, MonadExceptOf.throw] at h
  grind [→ length_of_name, → length_of_braceEntries]

theorem length_of_declarationNames {tokens : Tokens} {ctor name : TypePath} {stop : Nat} {rest : Tokens}
    (h : declarationNames tokens = .ok (ctor, name, stop, rest)) : rest.length < tokens.length := by
  simp only [declarationNames, bind, Except.bind, pure, Except.pure] at h
  grind [→ length_of_path]

theorem length_of_declaration {tokens : Tokens} {d : Declaration} {rest : Tokens}
    (h : declaration tokens = .ok (d, rest)) : rest.length < tokens.length := by
  simp only [declaration, bind, Except.bind, pure, Except.pure] at h
  grind [→ length_of_declarationNames, → length_of_containerBody]

theorem length_of_keywordItem {tokens : Tokens} {item : Item} {rest : Tokens}
    (h : keywordItem tokens = .ok (item, rest)) : rest.length < tokens.length := by
  unfold keywordItem at h
  grind [→ exists_of_map_eq_ok, → length_of_typeGroup, → length_of_aliasDecl, → length_of_traitDecl,
    → length_of_declaration]

/-- Tokens that are no more than the given ones. -/
abbrev Remainder (tokens : Tokens) := { rest : Tokens // rest.length ≤ tokens.length }

/-- Reads the name of a namespace and its opening brace. -/
def namespaceHead (tokens : Tokens) : Except Rejection (Identifier × Tokens) := do
  let (name, rest) ← name .namespaceName tokens
  let (_, rest) ← expect .leftBrace rest
  return (name, rest)

theorem length_of_namespaceHead {tokens : Tokens} {i : Identifier} {rest : Tokens}
    (h : namespaceHead tokens = .ok (i, rest)) : rest.length < tokens.length := by
  simp only [namespaceHead, bind, Except.bind, pure, Except.pure] at h
  grind [→ length_of_name, → length_of_expect]

/-- Reads items: inside a namespace up to its closing brace, which is left, and otherwise up to the end. -/
def items (inside : Bool) (tokens : Tokens) : Except Rejection (List Item × Remainder tokens) :=
  match tokens with
  | [] => if inside then .error ⟨.mark .rightBrace, []⟩ else .ok ([], ⟨[], Nat.le_refl _⟩)
  | t :: rest =>
    if inside && t.token = .mark .rightBrace then .ok ([], ⟨t :: rest, Nat.le_refl _⟩)
    else
      match hc : comment? (t :: rest) with
      | .error e => .error e
      | .ok (some (c, after)) =>
        have := length_of_comment? hc
        (items inside after).map fun (more, left) =>
          (.comment c :: more, ⟨left.1, by have := left.2; omega⟩)
      | .ok none =>
        if t.token = .keyword .namespaceWord then
          match hn : namespaceHead rest with
          | .error e => .error e
          | .ok (name, inner) =>
            have := length_of_namespaceHead hn
            match items true inner with
            | .error e => .error e
            | .ok (body, ⟨closing, hbody⟩) =>
              match he : expect .rightBrace closing with
              | .error e => .error e
              | .ok (brace, after) =>
                have := length_of_expect he
                (items inside after).map fun (more, left) =>
                  (.namespaceBlock name body ⟨t.span.start, brace.stop⟩ :: more,
                    ⟨left.1, by have := left.2; simp only [List.length_cons]; omega⟩)
        else
          match hk : keywordItem (t :: rest) with
          | .error e => .error e
          | .ok (item, after) =>
            have := length_of_keywordItem hk
            (items inside after).map fun (more, left) =>
              (item :: more, ⟨left.1, by have := left.2; omega⟩)
termination_by tokens.length
decreasing_by all_goals simp only [List.length_cons] at *; omega

end Parser

/-- The tokens before the first end-of-source token. -/
def Located.beforeEof (tokens : List Located) : List Located :=
  tokens.takeWhile (·.token ≠ .eof)

/-- Where tokens end: the place of the first end-of-source token, or else of the last token. -/
def Located.endSpan (tokens : List Located) : Span :=
  match tokens.find? (·.token = .eof) with
  | some t => t.span
  | none => (tokens.getLast?.map Located.span).getD ⟨0, 0⟩

end SchemaWire
