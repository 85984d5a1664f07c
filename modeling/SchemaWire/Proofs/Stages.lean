import SchemaWire.Proofs.Steps

/-!
# Readers in stages

A reader reads a first part and hands it to what reads the rest. The definitions here are the second stages of the
readers, each with the equation that says so. Items, comments among them, are all read by `nextItem`, and their lists item
by item (`readItems_cons`).
-/

namespace SchemaWire.Parser

variable {tokens rest others : Tokens} {t : Located} {span : Span}

/-! ## Types and properties -/

/-- What a dotted name begins: a name with a size, or nothing more. -/
def sizeAfter (p : TypePath) (tokens : Tokens) : Except Rejection (TypeName × Tokens) :=
  if startsWith .leftBracket tokens then
    match p.segments with
    | [base] => do
      let (size, rest) ← literal tokens.tail
      let (closing, rest) ← expect .rightBracket rest
      return (.sized ⟨base, size, ⟨p.span.start, closing.stop⟩⟩, rest)
    | _ => .error ⟨.noSize p, tokens⟩
  else return (.path p, tokens)

theorem sizeAfter_of_not_leftBracket (p : TypePath) (h : startsWith .leftBracket tokens = false) :
    sizeAfter p tokens = .ok (.path p, tokens) := by
  simp [sizeAfter, h, pure, Except.pure]

/-- What follows the key of a property and the question mark after it. -/
def typeAfter (key : Identifier) (optional : Bool) (tokens : Tokens) : Except Rejection (Property × Tokens) := do
  let (_, rest) ← expect .colon tokens
  let (type, rest) ← propertyType rest
  return (⟨key, optional, type, ⟨key.span.start, type.span.stop⟩⟩, rest)

theorem property_eq (tokens : Tokens) :
    property tokens = name .propertyName tokens >>= fun (key, rest) =>
      typeAfter key (question rest).1 (question rest).2 := rfl

theorem length_of_typeAfter {key : Identifier} {optional : Bool} {p : Property}
    (h : typeAfter key optional tokens = .ok (p, rest)) : rest.length < tokens.length := by
  simp only [typeAfter, bind, Except.bind, pure, Except.pure] at h
  grind [→ length_of_expect, → length_of_propertyType]

/-! ## Bodies -/

theorem containerBody_none (before : Nat) (hbrace : startsWith .leftBrace tokens = false)
    (harrow : startsWith .arrow tokens = false) (hsemicolon : startsWith .semicolon tokens = false) :
    containerBody before tokens = .ok ([], before, tokens) := by
  unfold containerBody
  split <;> simp_all [startsWith]

/-- The comments that come next. -/
def comments (tokens : Tokens) : Except Rejection (List Comment × Tokens) :=
  match h : comment? tokens with
  | .error e => .error e
  | .ok none => .ok ([], tokens)
  | .ok (some (c, rest)) =>
    have := length_of_comment? h
    (comments rest).map fun (more, rest) => (c :: more, rest)
termination_by tokens.length

theorem comments_of_none (h : comment? tokens = .ok none) : comments tokens = .ok ([], tokens) := by
  rw [comments]
  split <;> simp_all

theorem comments_of_error {e : Rejection} (h : comment? tokens = .error e) : comments tokens = .error e := by
  rw [comments]
  split <;> simp_all

theorem comments_of_some {c : Comment} (h : comment? tokens = .ok (some (c, rest))) :
    comments tokens = (comments rest).map fun (more, rest) => (c :: more, rest) := by
  rw [comments]
  split <;> simp_all

theorem comment?_of_comments {cs : List Comment} (h : comments tokens = .ok (cs, rest)) : comment? rest = .ok none := by
  fun_induction comments tokens generalizing cs with
  | case1 => cases h
  | case2 tokens hnone =>
    cases h
    exact hnone
  | case3 tokens c after hc _ ih =>
    obtain ⟨⟨more, left⟩, hmore, heq⟩ := exists_of_map_eq_ok h
    cases heq
    exact ih hmore

/-- Entries in front of those of a body that was read. -/
def inFront {α : Type} (entries : List BodyEntry) (found : List BodyEntry × α) : List BodyEntry × α :=
  (entries ++ found.1, found.2)

theorem map_inFront_nil {α : Type} (x : Except Rejection (List BodyEntry × α)) : x.map (inFront []) = x := by
  cases x <;> rfl

theorem map_inFront_append {α : Type} (x : Except Rejection (List BodyEntry × α)) (entries more : List BodyEntry) :
    x.map (inFront (entries ++ more)) = (x.map (inFront more)).map (inFront entries) := by
  rw [Except.map_map]
  exact congrArg (x.map ·) (funext fun found => by simp [inFront])

theorem braceEntries_comments (separated : Bool) (tokens : Tokens) :
    braceEntries separated tokens = comments tokens >>= fun (cs, rest) =>
      (braceEntries separated rest).map (inFront (cs.map .comment)) := by
  fun_induction comments tokens with
  | case1 tokens e hc =>
    rw [braceEntries_eq (startsWith_of_comment?_error hc .rightBrace nofun), hc]
    rfl
  | case2 tokens hnone => exact (map_inFront_nil _).symm
  | case3 tokens c rest hc _ ih =>
    obtain ⟨t, after, rfl, hclosing⟩ := exists_of_comment? hc rfl
    rw [braceEntries_eq (by simpa [startsWith] using hclosing), hc]
    simp only [bind, Except.bind] at ih ⊢
    rw [ih]
    cases comments rest with
    | error e => rfl
    | ok found => exact (map_inFront_append _ [.comment c] _).symm

/-- A property in braces with the semicolon behind it, and the comments between the two. -/
def closedProperty (tokens : Tokens) : Except Rejection (List BodyEntry × Tokens) := do
  let (p, rest) ← property tokens
  let (found, rest) ← comments rest
  if startsWith .rightBrace rest then return (.property p :: found.map .comment, rest)
  let (_, rest) ← expect .semicolon rest
  return (.property p :: found.map .comment, rest)

theorem braceEntries_closedProperty (hc : comment? tokens = .ok none) (hclosing : startsWith .rightBrace tokens = false)
    (hne : tokens ≠ []) :
    braceEntries true tokens = closedProperty tokens >>= fun (entries, rest) =>
      (braceEntries true rest).map (inFront entries) := by
  rw [braceEntries_eq hclosing, hc, closedProperty]
  simp only [bind, Except.bind, if_true, if_neg hne]
  cases property tokens with
  | error e => rfl
  | ok found =>
    obtain ⟨p, after⟩ := found
    simp only
    rw [braceEntries_comments]
    cases hcomments : comments after with
    | error e => rfl
    | ok found =>
      obtain ⟨cs, rest⟩ := found
      simp only [bind, Except.bind]
      by_cases hbrace : startsWith .rightBrace rest = true
      · obtain ⟨span, left, rfl⟩ := exists_of_startsWith hbrace
        simp only [hbrace, if_true, pure, Except.pure, braceEntries_rightBrace]
        rfl
      · rw [braceEntries_eq (by simpa using hbrace), comment?_of_comments hcomments]
        simp only [bind, Except.bind, hbrace]
        cases expect .semicolon rest with
        | error e => rfl
        | ok found => exact (map_inFront_append _ [.property p] _).symm

theorem arrowEntries_comments (tokens : Tokens) :
    arrowEntries tokens = comments tokens >>= fun (cs, rest) => property rest >>= fun (p, rest) =>
      (arrowAfter p rest).map (inFront (cs.map .comment)) := by
  fun_induction comments tokens with
  | case1 tokens e hc =>
    rw [arrowEntries_eq, hc]
    rfl
  | case2 tokens hnone =>
    rw [arrowEntries_of_none hnone]
    simp [map_inFront_nil, bind, Except.bind]
  | case3 tokens c rest hc _ ih =>
    rw [arrowEntries_eq, hc]
    simp only [bind, Except.bind] at ih ⊢
    rw [ih]
    cases comments rest with
    | error e => rfl
    | ok found =>
      simp only [Except.map]
      cases property found.2 with
      | error e => rfl
      | ok last => exact (map_inFront_append _ [.comment c] _).symm

/-! ## Type groups, aliases and traits -/

/-- A member of a type group: a comment, or a constructor. -/
def nextMember (tokens : Tokens) : Except Rejection (GroupMember × Tokens) :=
  comment? tokens >>= fun
    | some (c, rest) => .ok (.comment c, rest)
    | none =>
      if tokens = [] then .error ⟨.mark .rightBrace, []⟩
      else (groupContainer tokens).map fun (c, rest) => (.container c, rest)

theorem members_nextMember (h : startsWith .rightBrace tokens = false) :
    members tokens = nextMember tokens >>= fun (m, rest) =>
      (members rest).map fun (more, stop, rest) => (m :: more, stop, rest) := by
  rw [members_eq h, nextMember]
  simp only [bind, Except.bind]
  cases comment? tokens with
  | error e => rfl
  | ok found =>
    cases found with
    | some found => rfl
    | none =>
      simp only
      split
      · rfl
      · cases groupContainer tokens <;> rfl

/-- The members of a type group, from its opening brace on. -/
def groupBody (start : Nat) (name : Identifier) (traits : List TypePath) (tokens : Tokens) :
    Except Rejection (TypeGroup × Tokens) :=
  expect .leftBrace tokens >>= fun (_, rest) =>
    (members rest).map fun (body, stop, rest) => (⟨name, traits, body, ⟨start, stop⟩⟩, rest)

theorem typeGroup_cons {text : String} (start : Nat) (hname : t.token.name? = some text) (rest : Tokens) :
    typeGroup start (t :: rest) =
      implemented rest >>= fun (traits, rest) => groupBody start ⟨text, t.span⟩ traits rest := by
  simp only [typeGroup, name, hname]
  rfl

/-- What follows the target of an alias. -/
def aliasAfter (start : Nat) (name : Identifier) (target : TypeName) : Tokens → Except Rejection (Alias × Tokens)
  | ⟨.mark .semicolon, span⟩ :: rest => .ok (⟨name, target, ⟨start, span.stop⟩⟩, rest)
  | rest => .ok (⟨name, target, ⟨start, target.span.stop⟩⟩, rest)

theorem aliasAfter_last (start : Nat) (name : Identifier) (target : TypeName)
    (hsemicolon : startsWith .semicolon rest = false) :
    aliasAfter start name target rest = .ok (⟨name, target, ⟨start, target.span.stop⟩⟩, rest) := by
  unfold aliasAfter
  split <;> simp_all [startsWith]

theorem aliasDecl_eq (start : Nat) (tokens : Tokens) :
    aliasDecl start tokens = name .aliasName tokens >>= fun (name, rest) =>
      expect .equals rest >>= fun (_, rest) => typeName rest >>= fun (target, rest) => aliasAfter start name target rest := by
  unfold aliasDecl aliasAfter
  rfl

/-- What follows the name of a trait. -/
def traitAfter (start : Nat) (name : Identifier) : Tokens → Except Rejection (TraitDeclaration × Tokens)
  | ⟨.mark .leftBrace, _⟩ :: rest =>
    (braceEntries true rest).map fun (body, stop, rest) => (⟨name, body, ⟨start, stop⟩⟩, rest)
  | ⟨.mark .semicolon, span⟩ :: rest => .ok (⟨name, [], ⟨start, span.stop⟩⟩, rest)
  | rest => .error ⟨.context .afterTraitName, rest⟩

theorem name_of_traitAfter {start : Nat} {name : Identifier} {d : TraitDeclaration}
    (h : traitAfter start name tokens = .ok (d, rest)) : d.name = name := by
  unfold traitAfter at h
  split at h
  · obtain ⟨found, -, heq⟩ := exists_of_map_eq_ok h
    cases heq
    rfl
  · cases h
    rfl
  · cases h

theorem traitDecl_eq (start : Nat) (tokens : Tokens) :
    traitDecl start tokens = name .traitName tokens >>= fun (name, rest) => traitAfter start name rest := by
  unfold traitDecl
  cases name .traitName tokens with
  | error e => rfl
  | ok found =>
    obtain ⟨i, rest⟩ := found
    by_cases hbrace : startsWith .leftBrace rest = true
    · obtain ⟨span, after, rfl⟩ := exists_of_startsWith hbrace
      simp only [traitAfter, bind, Except.bind]
      cases braceEntries true after <;> rfl
    · simp only [traitAfter, bind, Except.bind]
      split <;> simp_all [startsWith] <;> rfl

/-! ## Declarations -/

/-- The body of a declaration, the names of which end at `before`. -/
def declarationBody (start : Nat) (ctor name : TypePath) (before : Nat) (tokens : Tokens) :
    Except Rejection (Declaration × Tokens) :=
  (containerBody before tokens).map fun (body, stop, rest) => (⟨ctor, name, body, ⟨start, stop⟩⟩, rest)

/-- What follows the first name of a declaration. -/
def declarationAfter (start : Nat) (first : TypePath) (tokens : Tokens) : Except Rejection (Declaration × Tokens) :=
  if startsWith .colon tokens then
    path tokens.tail >>= fun (name, rest) => declarationBody start first name name.span.stop rest
  else path tokens >>= fun (ctor, rest) => declarationBody start ctor first ctor.span.stop rest

theorem declaration_cons (t : Located) (rest : Tokens) :
    declaration (t :: rest) =
      path (t :: rest) >>= fun (first, rest) => declarationAfter t.span.start first rest := by
  unfold declaration declarationNames
  cases path (t :: rest) with
  | error e => rfl
  | ok found =>
    obtain ⟨first, after⟩ := found
    by_cases hcolon : startsWith .colon after = true
    · simp only [declarationAfter, declarationBody, hcolon, if_true, bind, Except.bind]
      cases path after.tail with
      | error e => rfl
      | ok found => cases containerBody found.1.span.stop found.2 <;> rfl
    · simp only [declarationAfter, declarationBody, hcolon, bind, Except.bind]
      cases path after with
      | error e => rfl
      | ok found => cases containerBody found.1.span.stop found.2 <;> rfl

theorem length_of_declarationAfter {start : Nat} {first : TypePath} {d : Declaration}
    (h : declarationAfter start first tokens = .ok (d, rest)) : rest.length < tokens.length := by
  simp only [declarationAfter, declarationBody, bind, Except.bind] at h
  grind [→ exists_of_map_eq_ok, → length_of_path, → length_of_containerBody]

/-- A declaration that begins with its type, which has no dot. -/
theorem declaration_cons_name {first second : String} {u : Located} (ht : t.token.name? = some first)
    (hu : u.token.name? = some second) (rest : Tokens) :
    declaration (t :: u :: rest) = path (u :: rest) >>= fun (ctor, rest) =>
      declarationBody t.span.start ctor (pathOf ⟨first, t.span⟩ []) ctor.span.stop rest := by
  have hnot (mark : Mark) : startsWith mark (u :: rest) = false := startsWith_of_name?_isSome (by simp [hu]) mark rest
  rw [declaration_cons, path_cons ht, moreSegments_of_not_dot (hnot .dot)]
  simp only [Except.map, bind, Except.bind, declarationAfter, hnot]
  rfl

theorem length_of_declaration_cons {d : Declaration} {left : Tokens} (h : declaration (t :: rest) = .ok (d, left)) :
    left.length < rest.length := by
  rw [declaration_cons] at h
  obtain ⟨⟨first, after⟩, hfirst, h⟩ := Except.bind_eq_ok_iff.mp h
  have hafter := length_of_path hfirst
  have hleft := length_of_declarationAfter h
  rw [List.length_cons] at hafter
  omega

/-! ## The word that begins an item -/

theorem startsGroup_congr {u : Located} (h : others.head? = rest.head?) :
    startsGroup (u :: others) = startsGroup (u :: rest) := by
  cases rest with
  | nil => rw [List.head?_eq_none_iff.mp h]
  | cons v after =>
    obtain ⟨more, rfl⟩ := List.head?_eq_some_iff.mp h
    rfl

theorem startsGroup_of_not_name (h : ∀ u ∈ tokens.head?, u.token.name? = none) : startsGroup tokens = false := by
  match tokens with
  | [] => rfl
  | [_] => rfl
  | u :: v :: after => simp [startsGroup, h u rfl]

theorem exists_of_startsGroup (h : startsGroup tokens = true) :
    ∃ u v after, tokens = u :: v :: after ∧ u.token.name?.isSome ∧
      (v.token = .mark .leftBrace ∨ v.token = .keyword .implementsWord) := by
  match tokens with
  | u :: v :: after =>
    simp only [startsGroup, Bool.and_eq_true, Bool.or_eq_true, decide_eq_true_eq] at h
    exact ⟨u, v, after, rfl, h.1, h.2⟩

/-- What follows the word `type` where no type group follows: the rest of a declaration that this name begins. -/
theorem keywordItem_typeWord (span : Span) (h : startsGroup rest = false) :
    keywordItem (⟨.keyword .typeWord, span⟩ :: rest) =
      (declaration (⟨.keyword .typeWord, span⟩ :: rest)).map fun (declaration, rest) => (.declaration declaration, rest) :=
  keywordItem_declaration rfl (fun _ => h) nofun nofun

/-! ## Items one after the other -/

/-- The items of a namespace up to its closing brace, which is read as well. -/
def block (tokens : Tokens) : Except Rejection (List Item × Span × Tokens) :=
  readItems true tokens >>= fun (body, closing) =>
    (expect .rightBrace closing).map fun (brace, rest) => (body, brace, rest)

/-- What follows the word `namespace`. -/
def namespaceAfter (start : Nat) (tokens : Tokens) : Except Rejection (Item × Tokens) :=
  namespaceHead tokens >>= fun (name, inner) =>
    (block inner).map fun (body, brace, rest) => (.namespaceBlock name body ⟨start, brace.stop⟩, rest)

/-- An item, by its first token. -/
def nextItem : Tokens → Except Rejection (Item × Tokens)
  | ⟨.comment text, span⟩ :: rest => .ok (.comment ⟨text, span⟩, rest)
  | ⟨.mark .tripleDash, span⟩ :: rest =>
    (dashWords rest).map fun (words, stop, rest) => (.comment ⟨" ".intercalate words, ⟨span.start, stop⟩⟩, rest)
  | ⟨.keyword .namespaceWord, span⟩ :: rest => namespaceAfter span.start rest
  | tokens => keywordItem tokens

theorem nextItem_of_comment? {c : Comment} (hc : comment? tokens = .ok (some (c, rest))) :
    nextItem tokens = .ok (.comment c, rest) := by
  have hsome : comment? tokens ≠ .ok none := by simp [hc]
  rcases comment_or_tripleDash hsome with ⟨text, span, after, rfl⟩ | ⟨span, after, rfl⟩
  · cases hc
    rfl
  · obtain ⟨⟨words, stop, left⟩, hwords, heq⟩ := exists_of_map_eq_ok hc
    cases heq
    simp [nextItem, hwords, Except.map]

theorem nextItem_of_comment?_error {e : Rejection} (hc : comment? tokens = .error e) : nextItem tokens = .error e := by
  have hsome : comment? tokens ≠ .ok none := by simp [hc]
  rcases comment_or_tripleDash hsome with ⟨text, span, after, rfl⟩ | ⟨span, after, rfl⟩
  · cases hc
  · have hwords : dashWords after = .error e := Except.map_eq_error_iff.mp hc
    simp [nextItem, hwords, Except.map]

theorem nextItem_of_none (hc : comment? (t :: rest) = .ok none) (hword : t.token ≠ .keyword .namespaceWord) :
    nextItem (t :: rest) = keywordItem (t :: rest) := by
  obtain ⟨token, span⟩ := t
  cases token with
  | comment => cases hc
  | mark mark =>
    cases mark with
    | tripleDash =>
      obtain ⟨_, -, heq⟩ := exists_of_map_eq_ok hc
      cases heq
    | _ => rfl
  | keyword word =>
    cases word with
    | namespaceWord => exact absurd rfl hword
    | _ => rfl
  | _ => rfl

/-- How an item is read: as a comment, as a namespace, or as any other. -/
theorem nextItem_cases {item : Item} (h : nextItem tokens = .ok (item, rest)) :
    (∃ c, comment? tokens = .ok (some (c, rest)) ∧ item = .comment c) ∨
      (∃ span after, tokens = ⟨.keyword .namespaceWord, span⟩ :: after ∧ namespaceAfter span.start after = .ok (item, rest)) ∨
      keywordItem tokens = .ok (item, rest) := by
  cases tokens with
  | nil => cases h
  | cons t after =>
    cases hc : comment? (t :: after) with
    | error r =>
      rw [nextItem_of_comment?_error hc] at h
      cases h
    | ok found =>
      cases found with
      | some found =>
        rw [nextItem_of_comment? hc] at h
        cases h
        exact .inl ⟨found.1, rfl, rfl⟩
      | none =>
        by_cases hword : t.token = .keyword .namespaceWord
        · obtain ⟨token, span⟩ := t
          cases hword
          exact .inr (.inl ⟨span, after, rfl, h⟩)
        · rw [nextItem_of_none hc hword] at h
          exact .inr (.inr h)

theorem exists_of_namespaceAfter {start : Nat} {item : Item} (h : namespaceAfter start tokens = .ok (item, rest)) :
    ∃ name inner body closing brace, namespaceHead tokens = .ok (name, inner) ∧
      readItems true inner = .ok (body, closing) ∧ expect .rightBrace closing = .ok (brace, rest) ∧
      item = .namespaceBlock name body ⟨start, brace.stop⟩ := by
  obtain ⟨⟨name, inner⟩, hhead, h⟩ := Except.bind_eq_ok_iff.mp h
  obtain ⟨⟨body, brace, left⟩, hblock, heq⟩ := Except.map_eq_ok_iff.mp h
  cases heq
  obtain ⟨⟨_, closing⟩, hbody, hblock⟩ := Except.bind_eq_ok_iff.mp hblock
  obtain ⟨⟨_, left⟩, hbrace, heq⟩ := Except.map_eq_ok_iff.mp hblock
  cases heq
  exact ⟨name, inner, body, closing, brace, hhead, hbody, hbrace, rfl⟩

theorem length_of_namespaceAfter {start : Nat} {item : Item} (h : namespaceAfter start tokens = .ok (item, rest)) :
    rest.length < tokens.length := by
  obtain ⟨name, inner, body, closing, brace, hhead, hbody, hbrace, rfl⟩ := exists_of_namespaceAfter h
  have := length_of_namespaceHead hhead
  have := length_of_readItems hbody
  have := length_of_expect hbrace
  omega

theorem length_of_nextItem {item : Item} (h : nextItem tokens = .ok (item, rest)) : rest.length < tokens.length := by
  unfold nextItem at h
  grind [→ exists_of_map_eq_ok, → length_of_dashWords, → length_of_namespaceAfter, → length_of_keywordItem]

/-- Items are read one after the other. -/
theorem readItems_cons {inside : Bool} (hclosing : inside = true → t.token ≠ .mark .rightBrace) :
    readItems inside (t :: rest) = nextItem (t :: rest) >>= fun (item, rest) =>
      (readItems inside rest).map fun (more, left) => (item :: more, left) := by
  cases hc : comment? (t :: rest) with
  | error e => rw [readItems_of_comment?_error hc, nextItem_of_comment?_error hc]; rfl
  | ok found =>
    cases found with
    | some found => rw [readItems_of_comment? hc, nextItem_of_comment? hc]; rfl
    | none =>
      obtain ⟨token, span⟩ := t
      by_cases hword : token = .keyword .namespaceWord
      · subst hword
        rw [readItems_namespace_eq]
        simp only [nextItem, namespaceAfter, block, bind, Except.bind]
        cases namespaceHead rest with
        | error e => rfl
        | ok head =>
          simp only
          cases readItems true head.2 with
          | error e => rfl
          | ok found =>
            simp only
            cases expect .rightBrace found.2 <;> rfl
      · rw [readItems_item hc hword hclosing, nextItem_of_none hc hword]

/-- Outside of all namespaces, items are read up to the end. -/
theorem readItems_false_cons (t : Located) (rest : Tokens) :
    readItems false (t :: rest) = nextItem (t :: rest) >>= fun (item, rest) =>
      (readItems false rest).map fun (more, left) => (item :: more, left) :=
  readItems_cons (by simp)

theorem readItems_of_nextItem_error {r : Rejection} (h : nextItem tokens = .error r) (hne : tokens ≠ []) :
    readItems false tokens = .error r := by
  cases tokens with
  | nil => exact absurd rfl hne
  | cons t rest =>
    rw [readItems_false_cons, h]
    rfl

theorem readItems_of_nextItem {item : Item} (h : nextItem tokens = .ok (item, rest)) :
    readItems false tokens = (readItems false rest).map fun (more, left) => (item :: more, left) := by
  cases tokens with
  | nil => cases h
  | cons t more =>
    rw [readItems_false_cons, h]
    rfl

theorem block_cons (hclosing : t.token ≠ .mark .rightBrace) :
    block (t :: rest) = nextItem (t :: rest) >>= fun (item, rest) =>
      (block rest).map fun (more, brace, left) => (item :: more, brace, left) := by
  unfold block
  rw [readItems_cons fun _ => hclosing]
  cases nextItem (t :: rest) with
  | error e => rfl
  | ok found =>
    simp only [bind, Except.bind]
    cases readItems true found.2 with
    | error e => rfl
    | ok more =>
      simp only [Except.map]
      cases expect .rightBrace more.2 <;> rfl

theorem block_rightBrace : block (⟨.mark .rightBrace, span⟩ :: rest) = .ok ([], span, rest) := by
  unfold block
  rw [readItems_rightBrace]
  rfl

theorem length_of_block {body : List Item} {brace : Span} (h : block tokens = .ok (body, brace, rest)) :
    rest.length < tokens.length := by
  obtain ⟨⟨body', closing⟩, hbody, h⟩ := Except.bind_eq_ok_iff.mp h
  obtain ⟨⟨brace', left⟩, hbrace, heq⟩ := exists_of_map_eq_ok h
  cases heq
  have := length_of_readItems hbody
  have := length_of_expect hbrace
  omega

end SchemaWire.Parser
