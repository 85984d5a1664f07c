import SchemaWire.Syntax.Stream

/-!
# From tokens to syntax trees

One reader for each rule of the grammar. A reader takes a stream and returns what it read with the stream behind it, or
the report of the first token that fits no rule. Every list of the grammar is a `Loop`, but for the items of a namespace,
which hold namespaces again: `item` and `namespaceItems` call each other, and return with the stream the proof that it
went forward.

A reader looks at most two tokens past the next one, to tell a type group from a declaration that begins with the name
`type`.
-/

namespace SchemaWire.TokenStream

variable {tokens : Array Located} {s s' : TokenStream tokens}

/-! ## Names and types -/

/-- Reads a name, an identifier or a keyword. -/
def name (context : ParseError.Context) (s : TokenStream tokens) : Except ParseError (Identifier × TokenStream tokens) :=
  match s.peek with
  | none => .error (s.refusal (.context context))
  | some token =>
    match token.name? with
    | some text => .ok (⟨text, s.currentSpan⟩, s.advance)
    | none => .error (s.refusal (.context context))

theorem pos_lt_of_name {context : ParseError.Context} {i : Identifier} (h : s.name context = .ok (i, s')) :
    s.pos < s'.pos := by
  unfold name at h
  split at h
  · cases h
  split at h
  · rename_i hpeek _ _ hname
    cases h
    refine pos_lt_advance hpeek ?_
    rintro rfl
    cases hname
  · cases h

/-- The names of a dotted name behind its first, as often as a dot comes next. -/
def segments : Loop tokens Identifier where
  turn s :=
    match s.eat (.mark .dot) with
    | (false, s) => .ok (.leave, s)
    | (true, s) => (s.name .pathSegment).map fun (i, s) => (.again i, s)
  pos_le {s _ _} h := by
    have := s.pos_le_eat (.mark .dot)
    grind [→ exists_of_map_eq_ok, → pos_lt_of_name]
  pos_lt h := by grind [→ exists_of_map_eq_ok, → pos_lt_of_eat, → pos_lt_of_name]

/-- Reads a dotted name. -/
def path (s : TokenStream tokens) : Except ParseError (TypePath × TokenStream tokens) := do
  let (first, next) ← s.name .pathSegment
  let (more, next) ← segments.run next
  return (⟨first :: more, next.spanFrom s.pos⟩, next)

theorem pos_lt_of_path {p : TypePath} (h : s.path = .ok (p, s')) : s.pos < s'.pos := by
  simp only [path, bind, Except.bind, pure, Except.pure] at h
  grind [→ pos_lt_of_name, → Loop.pos_le_of_run]

/-- Reads an integer. -/
def literal (s : TokenStream tokens) : Except ParseError (Literal × TokenStream tokens) :=
  match s.peek with
  | some (.integer value) => .ok (⟨value, s.currentSpan⟩, s.advance)
  | _ => .error (s.refusal (.context .size))

/-- Reads a dotted name, or a name with a size. -/
def typeName (s : TokenStream tokens) : Except ParseError (TypeName × TokenStream tokens) := do
  let (p, next) ← s.path
  if next.check (.mark .leftBracket) then
    match p.segments with
    | [base] =>
      let (size, next) ← next.advance.literal
      let (_, next) ← next.expect .rightBracket
      return (.sized ⟨base, size, next.spanFrom s.pos⟩, next)
    | _ => throw (next.refusal (.noSize p))
  else return (.path p, next)

theorem pos_le_of_literal {l : Literal} (h : s.literal = .ok (l, s')) : s.pos ≤ s'.pos := by
  unfold literal at h
  grind [pos_le_advance]

theorem pos_lt_of_typeName {type : TypeName} (h : s.typeName = .ok (type, s')) : s.pos < s'.pos := by
  simp only [typeName, bind, Except.bind, pure, Except.pure, throw, throwThe, MonadExceptOf.throw] at h
  grind [→ pos_lt_of_path, pos_le_advance, → pos_le_of_literal, → pos_lt_of_expect]

/-- Reads the type of a property: `Vector<item>`, or a type name. -/
def propertyType (s : TokenStream tokens) : Except ParseError (PropertyType × TokenStream tokens) :=
  if s.peek = some (.ident "Vector") ∧ s.peekNth 1 = some (.mark .less) then do
    let (_, next) ← s.advance.expect .less
    let (item, next) ← next.typeName
    let (_, next) ← next.expect .greater
    return (.vector ⟨item, next.spanFrom s.pos⟩, next)
  else s.typeName.map fun (type, next) => (.single type, next)

theorem pos_lt_of_propertyType {type : PropertyType} (h : s.propertyType = .ok (type, s')) : s.pos < s'.pos := by
  simp only [propertyType, bind, Except.bind, pure, Except.pure] at h
  grind [→ exists_of_map_eq_ok, pos_le_advance, → pos_lt_of_typeName, → pos_lt_of_expect]

/-! ## Properties and comments -/

/-- Reads `key?: type`. -/
def property (s : TokenStream tokens) : Except ParseError (Property × TokenStream tokens) := do
  let (key, next) ← s.name .propertyName
  let (optional, next) := next.eat (.mark .question)
  let (_, next) ← next.expect .colon
  let (type, next) ← next.propertyType
  return (⟨key, optional, type, next.spanFrom s.pos⟩, next)

theorem pos_lt_of_property {p : Property} (h : s.property = .ok (p, s')) : s.pos < s'.pos := by
  simp only [property, bind, Except.bind, pure, Except.pure] at h
  grind [→ pos_lt_of_name, pos_le_eat, → pos_lt_of_expect, → pos_lt_of_propertyType]

/-- The words of a `--- … ---` block, up to its closing mark. -/
def words : Loop tokens String where
  turn s :=
    match s.peek with
    | some (.mark .tripleDash) => .ok (.leave, s)
    | none => .error (s.refusal (.mark .tripleDash))
    | some .eof => .error (s.refusal (.mark .tripleDash))
    | some token => .ok (.again token.spelling, s.advance)
  pos_le h := by grind [pos_le_advance]
  pos_lt h := by grind [→ pos_lt_advance]

/-- Reads a `--- … ---` block. Its words are joined by spaces. -/
def dashBlock (s : TokenStream tokens) : Except ParseError (Comment × TokenStream tokens) := do
  let (_, next) ← s.expect .tripleDash
  let (texts, next) ← words.run next
  return (⟨" ".intercalate texts, next.advance.spanFrom s.pos⟩, next.advance)

/-- Reads a comment if one comes next. -/
def comment? (s : TokenStream tokens) : Except ParseError (Option (Comment × TokenStream tokens)) :=
  match s.peek with
  | some (.comment text) => .ok (some (⟨text, s.currentSpan⟩, s.advance))
  | some (.mark .tripleDash) => s.dashBlock.map some
  | _ => .ok none

theorem pos_lt_of_dashBlock {c : Comment} (h : s.dashBlock = .ok (c, s')) : s.pos < s'.pos := by
  simp only [dashBlock, bind, Except.bind, pure, Except.pure] at h
  grind [→ pos_lt_of_expect, → Loop.pos_le_of_run, pos_le_advance]

theorem pos_lt_of_comment? {c : Comment} (h : s.comment? = .ok (some (c, s'))) : s.pos < s'.pos := by
  unfold comment? at h
  grind [→ exists_of_map_eq_ok, → pos_lt_advance, → pos_lt_of_dashBlock]

/-- Comments, as many as come next. -/
def comments : Loop tokens Comment where
  turn s :=
    match s.comment? with
    | .error e => .error e
    | .ok none => .ok (.leave, s)
    | .ok (some (c, s)) => .ok (.again c, s)
  pos_le h := by grind [→ pos_lt_of_comment?]
  pos_lt h := by grind [→ pos_lt_of_comment?]

/-! ## Bodies -/

/-- Reads a property in braces with the semicolon behind it, which may be left out before the closing brace. Comments may
come between the two. -/
def closedProperty (s : TokenStream tokens) : Except ParseError (List BodyEntry × TokenStream tokens) := do
  let (p, next) ← s.property
  let (found, next) ← comments.run next
  if next.check (.mark .rightBrace) then return (.property p :: found.map .comment, next)
  let (_, next) ← next.expect .semicolon
  return (.property p :: found.map .comment, next)

theorem pos_lt_of_closedProperty {entries : List BodyEntry} (h : s.closedProperty = .ok (entries, s')) :
    s.pos < s'.pos := by
  simp only [closedProperty, bind, Except.bind, pure, Except.pure] at h
  grind [→ pos_lt_of_property, → Loop.pos_le_of_run, → pos_lt_of_expect]

/-- The entries of a body in braces, up to its closing brace. A turn reads a comment, or a property with what ends it. -/
def bracedEntries : Loop tokens (List BodyEntry) where
  turn s :=
    if s.check (.mark .rightBrace) then .ok (.leave, s)
    else
      match s.comment? with
      | .error e => .error e
      | .ok (some (c, s)) => .ok (.again [.comment c], s)
      | .ok none =>
        if s.atEnd then .error (s.refusal (.mark .rightBrace))
        else s.closedProperty.map fun (entries, s) => (.again entries, s)
  pos_le h := by grind [→ exists_of_map_eq_ok, → pos_lt_of_comment?, → pos_lt_of_closedProperty]
  pos_lt h := by grind [→ exists_of_map_eq_ok, → pos_lt_of_comment?, → pos_lt_of_closedProperty]

/-- Reads the entries of a body in braces, and the closing brace behind them. -/
def bracedRest (s : TokenStream tokens) : Except ParseError (List BodyEntry × TokenStream tokens) := do
  let (entries, next) ← bracedEntries.run s
  let (_, next) ← next.expect .rightBrace
  return (entries.flatten, next)

/-- Reads a body in braces. -/
def bracedBody (s : TokenStream tokens) : Except ParseError (List BodyEntry × TokenStream tokens) := do
  let (_, next) ← s.expect .leftBrace
  next.bracedRest

/-- Reads a property, with the comments before it. -/
def commentedProperty (s : TokenStream tokens) : Except ParseError (List BodyEntry × TokenStream tokens) := do
  let (found, next) ← comments.run s
  let (p, next) ← next.property
  return (found.map .comment ++ [.property p], next)

theorem pos_lt_of_commentedProperty {entries : List BodyEntry} (h : s.commentedProperty = .ok (entries, s')) :
    s.pos < s'.pos := by
  simp only [commentedProperty, bind, Except.bind, pure, Except.pure] at h
  grind [→ Loop.pos_le_of_run, → pos_lt_of_property]

/-- The entries of a body that an arrow began. -/
def arrowEntries : Loop tokens (List BodyEntry) :=
  .separated commentedProperty pos_lt_of_commentedProperty

/-- Reads the entries after an arrow. A semicolon may end them. -/
def arrowRest (s : TokenStream tokens) : Except ParseError (List BodyEntry × TokenStream tokens) := do
  let (entries, next) ← arrowEntries.run s
  return (entries.flatten, (next.eat (.mark .semicolon)).2)

/-- Reads a body that an arrow begins. Right after the arrow a semicolon ends it. -/
def arrowBody (s : TokenStream tokens) : Except ParseError (List BodyEntry × TokenStream tokens) := do
  let (_, next) ← s.expect .arrow
  match next.eat (.mark .semicolon) with
  | (true, next) => return ([], next)
  | (false, next) => next.arrowRest

/-- Reads the body after a container's name: in braces, after an arrow, or none but for a semicolon. -/
def containerBody (s : TokenStream tokens) : Except ParseError (List BodyEntry × TokenStream tokens) :=
  match s.peek with
  | some (.mark .leftBrace) => s.bracedBody
  | some (.mark .arrow) => s.arrowBody
  | _ => .ok ([], (s.eat (.mark .semicolon)).2)

theorem pos_lt_of_bracedBody {entries : List BodyEntry} (h : s.bracedBody = .ok (entries, s')) : s.pos < s'.pos := by
  simp only [bracedBody, bracedRest, bind, Except.bind, pure, Except.pure] at h
  grind [→ pos_lt_of_expect, → Loop.pos_le_of_run]

theorem pos_lt_of_arrowBody {entries : List BodyEntry} (h : s.arrowBody = .ok (entries, s')) : s.pos < s'.pos := by
  simp only [arrowBody, arrowRest, bind, Except.bind, pure, Except.pure] at h
  grind [→ pos_lt_of_expect, pos_le_eat, → Loop.pos_le_of_run]

theorem pos_le_of_containerBody {entries : List BodyEntry} (h : s.containerBody = .ok (entries, s')) :
    s.pos ≤ s'.pos := by
  unfold containerBody at h
  grind [→ pos_lt_of_bracedBody, → pos_lt_of_arrowBody, pos_le_eat]

/-! ## Items -/

/-- Reads a constructor of a type group. -/
def groupContainer (s : TokenStream tokens) : Except ParseError (GroupContainer × TokenStream tokens) := do
  let (name, next) ← s.path
  let (body, next) ← next.containerBody
  return (⟨name, body, next.spanFrom s.pos⟩, next)

theorem pos_lt_of_groupContainer {c : GroupContainer} (h : s.groupContainer = .ok (c, s')) : s.pos < s'.pos := by
  simp only [groupContainer, bind, Except.bind, pure, Except.pure] at h
  grind [→ pos_lt_of_path, → pos_le_of_containerBody]

/-- Reads a member of a type group. -/
def member (s : TokenStream tokens) : Except ParseError (GroupMember × TokenStream tokens) :=
  match s.comment? with
  | .error e => .error e
  | .ok (some (c, s)) => .ok (.comment c, s)
  | .ok none =>
    if s.atEnd then .error (s.refusal (.mark .rightBrace))
    else s.groupContainer.map fun (c, s) => (.container c, s)

theorem pos_lt_of_member {m : GroupMember} (h : s.member = .ok (m, s')) : s.pos < s'.pos := by
  unfold member at h
  grind [→ exists_of_map_eq_ok, → pos_lt_of_comment?, → pos_lt_of_groupContainer]

/-- The members of a type group, up to its closing brace. -/
def members : Loop tokens GroupMember where
  turn s :=
    if s.check (.mark .rightBrace) then .ok (.leave, s) else s.member.map fun (m, s) => (.again m, s)
  pos_le h := by grind [→ exists_of_map_eq_ok, → pos_lt_of_member]
  pos_lt h := by grind [→ exists_of_map_eq_ok, → pos_lt_of_member]

/-- Reads the members of a type group, and the closing brace behind them. -/
def membersRest (s : TokenStream tokens) : Except ParseError (List GroupMember × TokenStream tokens) := do
  let (body, next) ← members.run s
  let (_, next) ← next.expect .rightBrace
  return (body, next)

theorem pos_lt_of_membersRest {ms : List GroupMember} (h : s.membersRest = .ok (ms, s')) : s.pos < s'.pos := by
  simp only [membersRest, bind, Except.bind, pure, Except.pure] at h
  grind [→ Loop.pos_le_of_run, → pos_lt_of_expect]

/-- Dotted names with commas between them. -/
def paths : Loop tokens TypePath :=
  .separated path pos_lt_of_path

/-- Reads `implements` and the traits after it, if it comes next. -/
def implemented (s : TokenStream tokens) : Except ParseError (List TypePath × TokenStream tokens) :=
  match s.eat (.keyword .implementsWord) with
  | (true, s) => paths.run s
  | (false, s) => .ok ([], s)

/-- Whether the next token, the word `type`, begins a group: a name follows, and then a brace or `implements`. Anything
else makes the word a name. -/
def startsGroup (s : TokenStream tokens) : Bool :=
  (s.peekNth 1).any (·.name?.isSome) &&
    (s.peekNth 2 = some (.mark .leftBrace) || s.peekNth 2 = some (.keyword .implementsWord))

/-- Reads a type group. Its keyword comes next. -/
def typeGroup (s : TokenStream tokens) : Except ParseError (TypeGroup × TokenStream tokens) := do
  let (name, next) ← s.advance.name .typeName
  let (traits, next) ← next.implemented
  let (_, next) ← next.expect .leftBrace
  let (body, next) ← next.membersRest
  return (⟨name, traits, body, next.spanFrom s.pos⟩, next)

/-- Reads an alias. Its keyword comes next. -/
def aliasDecl (s : TokenStream tokens) : Except ParseError (Alias × TokenStream tokens) := do
  let (name, next) ← s.advance.name .aliasName
  let (_, next) ← next.expect .equals
  let (target, next) ← next.typeName
  let (_, next) := next.eat (.mark .semicolon)
  return (⟨name, target, next.spanFrom s.pos⟩, next)

/-- Reads the body of a trait, or the semicolon in its place. -/
def traitBody (s : TokenStream tokens) : Except ParseError (List BodyEntry × TokenStream tokens) :=
  match s.peek with
  | some (.mark .leftBrace) => s.bracedBody
  | some (.mark .semicolon) => .ok ([], s.advance)
  | _ => .error (s.refusal (.context .afterTraitName))

/-- Reads a trait. Its keyword comes next. -/
def traitDecl (s : TokenStream tokens) : Except ParseError (TraitDeclaration × TokenStream tokens) := do
  let (name, next) ← s.advance.name .traitName
  let (body, next) ← next.traitBody
  return (⟨name, body, next.spanFrom s.pos⟩, next)

/-- Reads the two names of a declaration, with the constructor's first: `ctor : Type` or `Type ctor`. -/
def declarationNames (s : TokenStream tokens) : Except ParseError ((TypePath × TypePath) × TokenStream tokens) := do
  let (first, next) ← s.path
  match next.eat (.mark .colon) with
  | (true, next) =>
    let (name, next) ← next.path
    return ((first, name), next)
  | (false, next) =>
    let (ctor, next) ← next.path
    return ((ctor, first), next)

/-- Reads a declaration. -/
def declaration (s : TokenStream tokens) : Except ParseError (Declaration × TokenStream tokens) := do
  let ((ctor, name), next) ← s.declarationNames
  let (body, next) ← next.containerBody
  return (⟨ctor, name, body, next.spanFrom s.pos⟩, next)

/-- Reads an item that is no comment and no namespace, by its first token. -/
def keywordItem (s : TokenStream tokens) : Except ParseError (Item × TokenStream tokens) :=
  match s.peek with
  | none => .error (s.refusal (.context .declaration))
  | some token =>
    if token = .keyword .typeWord ∧ s.startsGroup then s.typeGroup.map fun (g, s) => (.typeGroup g, s)
    else if token = .keyword .aliasWord then s.aliasDecl.map fun (a, s) => (.aliasDecl a, s)
    else if token = .keyword .traitWord then s.traitDecl.map fun (d, s) => (.traitDecl d, s)
    else if token.name?.isSome then s.declaration.map fun (d, s) => (.declaration d, s)
    else .error (s.refusal (.context .declaration))

theorem pos_le_of_implemented {ps : List TypePath} (h : s.implemented = .ok (ps, s')) : s.pos ≤ s'.pos := by
  have := s.pos_le_eat (.keyword .implementsWord)
  unfold implemented at h
  grind [→ Loop.pos_le_of_run]

theorem pos_lt_of_typeGroup {g : TypeGroup} (h : s.typeGroup = .ok (g, s')) : s.pos < s'.pos := by
  simp only [typeGroup, bind, Except.bind, pure, Except.pure] at h
  grind [pos_le_advance, → pos_lt_of_name, → pos_le_of_implemented, → pos_lt_of_expect, → pos_lt_of_membersRest]

theorem pos_lt_of_aliasDecl {a : Alias} (h : s.aliasDecl = .ok (a, s')) : s.pos < s'.pos := by
  simp only [aliasDecl, bind, Except.bind, pure, Except.pure] at h
  grind [pos_le_advance, → pos_lt_of_name, → pos_lt_of_expect, → pos_lt_of_typeName, pos_le_eat]

theorem pos_lt_of_traitDecl {d : TraitDeclaration} (h : s.traitDecl = .ok (d, s')) : s.pos < s'.pos := by
  simp only [traitDecl, traitBody, bind, Except.bind, pure, Except.pure] at h
  grind [pos_le_advance, → pos_lt_of_name, → pos_lt_of_bracedBody]

theorem pos_lt_of_declaration {d : Declaration} (h : s.declaration = .ok (d, s')) : s.pos < s'.pos := by
  simp only [declaration, declarationNames, bind, Except.bind, pure, Except.pure] at h
  grind [→ pos_lt_of_path, pos_le_eat, → pos_le_of_containerBody]

theorem pos_lt_of_keywordItem {item : Item} (h : s.keywordItem = .ok (item, s')) : s.pos < s'.pos := by
  unfold keywordItem at h
  grind [→ exists_of_map_eq_ok, → pos_lt_of_typeGroup, → pos_lt_of_aliasDecl, → pos_lt_of_traitDecl, → pos_lt_of_declaration]

/-- Reads the name of a namespace and its opening brace. Its keyword comes next. -/
def namespaceHead (s : TokenStream tokens) : Except ParseError (Identifier × TokenStream tokens) := do
  let (name, next) ← s.advance.name .namespaceName
  let (_, next) ← next.expect .leftBrace
  return (name, next)

theorem pos_lt_of_namespaceHead {i : Identifier} (h : s.namespaceHead = .ok (i, s')) : s.pos < s'.pos := by
  simp only [namespaceHead, bind, Except.bind, pure, Except.pure] at h
  grind [pos_le_advance, → pos_lt_of_name, → pos_lt_of_expect]

mutual

/-- Reads an item. -/
def item (s : TokenStream tokens) :
    Except ParseError (Item × { s' : TokenStream tokens // s.pos < s'.pos }) :=
  match hc : s.comment? with
  | .error e => .error e
  | .ok (some (c, next)) => .ok (.comment c, ⟨next, pos_lt_of_comment? hc⟩)
  | .ok none =>
    if s.peek = some (.keyword .namespaceWord) then
      match hn : s.namespaceHead with
      | .error e => .error e
      | .ok (name, next) =>
        have := pos_lt_of_namespaceHead hn
        match namespaceItems next with
        | .error e => .error e
        | .ok (body, ⟨next, hbody⟩) =>
          match hb : next.expect .rightBrace with
          | .error e => .error e
          | .ok (_, next) =>
            .ok (.namespaceBlock name body (next.spanFrom s.pos), ⟨next, by have := pos_lt_of_expect hb; omega⟩)
    else
      match hk : s.keywordItem with
      | .error e => .error e
      | .ok (item, next) => .ok (item, ⟨next, pos_lt_of_keywordItem hk⟩)
termination_by (tokens.size - s.pos, 0)
decreasing_by
  have := next.inside
  exact .left _ _ (by omega)

/-- Reads items up to the closing brace of their namespace, which is left. -/
def namespaceItems (s : TokenStream tokens) :
    Except ParseError (List Item × { s' : TokenStream tokens // s.pos ≤ s'.pos }) :=
  if s.check (.mark .rightBrace) then .ok ([], ⟨s, Nat.le_refl _⟩)
  else if s.atEnd then .error (s.refusal (.mark .rightBrace))
  else
    match item s with
    | .error e => .error e
    | .ok (found, ⟨next, hitem⟩) =>
      (namespaceItems next).map fun (more, left) => (found :: more, ⟨left.1, by have := left.2; omega⟩)
termination_by (tokens.size - s.pos, 1)
decreasing_by
  · exact .right _ (by omega)
  · have := next.inside
    exact .left _ _ (by omega)

end

/-- Reads an item. -/
def nextItem (s : TokenStream tokens) : Except ParseError (Item × TokenStream tokens) :=
  (item s).map fun (found, next) => (found, next.1)

theorem pos_lt_of_nextItem {found : Item} (h : s.nextItem = .ok (found, s')) : s.pos < s'.pos := by
  obtain ⟨⟨i, next⟩, -, heq⟩ := exists_of_map_eq_ok h
  cases heq
  exact next.2

/-- The items of a namespace, up to its closing brace. -/
def blockItems : Loop tokens Item where
  turn s :=
    if s.check (.mark .rightBrace) then .ok (.leave, s)
    else if s.atEnd then .error (s.refusal (.mark .rightBrace))
    else s.nextItem.map fun (found, s) => (.again found, s)
  pos_le h := by grind [→ exists_of_map_eq_ok, → pos_lt_of_nextItem]
  pos_lt h := by grind [→ exists_of_map_eq_ok, → pos_lt_of_nextItem]

/-- The items of a source, up to its end. -/
def items : Loop tokens Item where
  turn s := if s.atEnd then .ok (.leave, s) else s.nextItem.map fun (found, s) => (.again found, s)
  pos_le h := by grind [→ exists_of_map_eq_ok, → pos_lt_of_nextItem]
  pos_lt h := by grind [→ exists_of_map_eq_ok, → pos_lt_of_nextItem]

/-- The items of a namespace are read by a loop. -/
theorem namespaceItems_eq (s : TokenStream tokens) :
    ((namespaceItems s).map fun (found, next) => (found, next.1)) = blockItems.run s := by
  induction hn : tokens.size - s.pos using Nat.strongRecOn generalizing s with
  | ind n ih =>
    rw [namespaceItems]
    by_cases hbrace : s.check (.mark .rightBrace) = true
    · have hturn : blockItems.turn s = .ok (.leave, s) := if_pos hbrace
      rw [Loop.run_of_leave hturn, if_pos hbrace]
      rfl
    by_cases hend : s.atEnd = true
    · have hturn : blockItems.turn s = .error (s.refusal (.mark .rightBrace)) := by simp [blockItems, hbrace, hend]
      rw [Loop.run_of_error hturn, if_neg hbrace, if_pos hend]
      rfl
    have hturn : blockItems.turn s = s.nextItem.map fun (found, next) => (.again found, next) := by
      simp [blockItems, hbrace, hend]
    rw [Loop.run_of_again hturn, if_neg hbrace, if_neg hend, nextItem]
    cases item s with
    | error e => rfl
    | ok found =>
      obtain ⟨i, next, hnext⟩ := found
      have hlt : tokens.size - next.pos < n := by
        have := next.inside
        omega
      simp only [Except.map, bind, Except.bind]
      rw [← ih _ hlt next rfl]
      cases namespaceItems next <;> rfl

/-- A namespace holds the items of a loop. -/
theorem nextItem_eq (s : TokenStream tokens) :
    s.nextItem = match s.comment? with
      | .error e => .error e
      | .ok (some (c, next)) => .ok (.comment c, next)
      | .ok none =>
        if s.peek = some (.keyword .namespaceWord) then do
          let (name, next) ← s.namespaceHead
          let (body, next) ← blockItems.run next
          let (_, next) ← next.expect .rightBrace
          return (.namespaceBlock name body (next.spanFrom s.pos), next)
        else s.keywordItem := by
  rw [nextItem, item]
  split
  · simp [*, Except.map]
  · simp [*, Except.map]
  · rename_i hnone
    rw [hnone]
    simp only
    split
    · split
      · simp [*, Except.map, bind, Except.bind]
      · rename_i name next hhead
        simp only [hhead, bind, Except.bind, ← namespaceItems_eq]
        cases namespaceItems next with
        | error e => rfl
        | ok found =>
          simp only [pure, Except.pure]
          grind [Except.map]
    · split <;> simp [*, Except.map]

end SchemaWire.TokenStream

namespace SchemaWire

/-- The tree of tokens. It ends where the last of them does. -/
def Schema.ofTokens (tokens : List Located) : Except ParseError Schema := do
  let (body, _) ← TokenStream.items.run (.ofTokens tokens.toArray)
  return ⟨body, ⟨0, (tokens.getLast?.map (·.span.stop)).getD 0⟩⟩

end SchemaWire
