import SchemaWire.Proofs.Outcome
import SchemaWire.Syntax.Parser

/-!
# The loops of the parser, step by step

Every loop looks at the next token and then goes on with fewer. The lemmas here say what each of them does with the
token that it stands on, and what it stood on if it succeeded, so that proofs about whole sources need not open the
loops.
-/

namespace SchemaWire.Parser

variable {tokens rest : Tokens} {t : Located} {span : Span} {text : String} {mark : Mark}

theorem comment?_of_name?_isSome (rest : Tokens) (h : t.token.name?.isSome) : comment? (t :: rest) = .ok none := by
  obtain ⟨token, span⟩ := t
  cases token with
  | ident => rfl
  | keyword => rfl
  | _ => cases h

/-- Whether a comment comes next is seen from the next token. -/
theorem comment?_none_congr (h : comment? (t :: rest) = .ok none) (more : Tokens) : comment? (t :: more) = .ok none := by
  obtain ⟨token, span⟩ := t
  cases token with
  | comment => cases h
  | mark mark =>
    cases mark with
    | tripleDash =>
      obtain ⟨_, -, heq⟩ := exists_of_map_eq_ok h
      cases heq
    | _ => rfl
  | _ => rfl

theorem exists_of_comment? {found : Option (Comment × Tokens)} (hc : comment? tokens = .ok found) (h : found.isSome) :
    ∃ t after, tokens = t :: after ∧ t.token ≠ .mark .rightBrace := by
  unfold comment? at hc
  grind

theorem comment_or_tripleDash (h : comment? tokens ≠ .ok none) :
    (∃ text span rest, tokens = ⟨.comment text, span⟩ :: rest) ∨ ∃ span rest, tokens = ⟨.mark .tripleDash, span⟩ :: rest := by
  unfold comment? at h
  split at h
  · exact .inl ⟨_, _, _, rfl⟩
  · exact .inr ⟨_, _, rfl⟩
  · exact absurd rfl h

/-- Where a comment is not closed, a `--- … ---` block begins. -/
theorem startsWith_of_comment?_error {e : Rejection} (hc : comment? tokens = .error e) (mark : Mark)
    (hmark : mark ≠ .tripleDash) : startsWith mark tokens = false := by
  unfold comment? at hc
  grind [startsWith]

/-! ## Readers that begin with a name or a mark -/

theorem exists_of_name {context : ParseError.Context} {i : Identifier} (h : name context tokens = .ok (i, rest)) :
    ∃ t, tokens = t :: rest ∧ t.token.name? = some i.name ∧ t.span = i.span := by
  cases tokens with
  | nil => cases h
  | cons t after =>
    simp only [name] at h
    split at h
    · rename_i text hname
      cases h
      exact ⟨t, rfl, hname, rfl⟩
    · cases h

theorem eq_of_expect (h : expect mark tokens = .ok (span, rest)) : tokens = ⟨.mark mark, span⟩ :: rest := by
  cases tokens with
  | nil => cases h
  | cons t after =>
    obtain ⟨token, place⟩ := t
    simp only [expect] at h
    split at h
    · rename_i htoken
      cases h
      rw [htoken]
    · cases h

theorem startsWith_congr {others : Tokens} (h : others.head? = tokens.head?) (mark : Mark) :
    startsWith mark others = startsWith mark tokens := by
  cases tokens with
  | nil => rw [List.head?_eq_none_iff.mp h]
  | cons t rest =>
    obtain ⟨more, rfl⟩ := List.head?_eq_some_iff.mp h
    rfl

theorem startsWith_of_name?_isSome (h : t.token.name?.isSome) (mark : Mark) (rest : Tokens) :
    startsWith mark (t :: rest) = false := by
  have hne : t.token ≠ .mark mark := by
    intro heq
    simp [heq, Token.name?] at h
  simpa [startsWith] using hne

theorem exists_of_startsWith (h : startsWith mark tokens = true) : ∃ span rest, tokens = ⟨.mark mark, span⟩ :: rest := by
  cases tokens with
  | nil => cases h
  | cons t after =>
    obtain ⟨token, span⟩ := t
    simp only [startsWith, decide_eq_true_eq] at h
    exact ⟨span, after, by rw [h]⟩

theorem startsWith_of_expect (h : expect mark tokens = .ok (span, rest)) : startsWith mark tokens = true := by
  rw [eq_of_expect h]
  simp [startsWith]

theorem exists_of_property {p : Property} (h : property tokens = .ok (p, rest)) :
    ∃ t after, tokens = t :: after ∧ t.token.name?.isSome := by
  obtain ⟨⟨key, after⟩, hkey, -⟩ := Except.bind_eq_ok_iff.mp h
  obtain ⟨t, rfl, hname, -⟩ := exists_of_name hkey
  exact ⟨t, after, rfl, hname ▸ rfl⟩

theorem exists_of_path {p : TypePath} (h : path tokens = .ok (p, rest)) :
    ∃ t after, tokens = t :: after ∧ t.token.name?.isSome := by
  obtain ⟨⟨first, after⟩, hfirst, -⟩ := Except.bind_eq_ok_iff.mp h
  obtain ⟨t, rfl, hname, -⟩ := exists_of_name hfirst
  exact ⟨t, after, rfl, hname ▸ rfl⟩

theorem exists_of_groupContainer {c : GroupContainer} (h : groupContainer tokens = .ok (c, rest)) :
    ∃ t after, tokens = t :: after ∧ t.token.name?.isSome := by
  obtain ⟨⟨p, after⟩, hpath, -⟩ := Except.bind_eq_ok_iff.mp h
  exact exists_of_path hpath

theorem moreSegments_of_not_dot {rest : Tokens} (h : startsWith .dot rest = false) :
    moreSegments rest = .ok ([], rest) := by
  have hdot {t : Located} {after : Tokens} (h : startsWith .dot (t :: after) = false) : t.token ≠ .mark .dot := by
    simpa [startsWith] using h
  cases rest with
  | nil => rfl
  | cons t after =>
    cases after with
    | nil => simp [moreSegments, hdot h]
    | cons u after => simp [moreSegments, hdot h]

theorem moreSegments_dot (span : Span) (rest : Tokens) :
    moreSegments (⟨.mark .dot, span⟩ :: rest) = (do
      let (i, rest) ← name .pathSegment rest
      let (more, rest) ← moreSegments rest
      return (i :: more, rest)) := by
  cases rest with
  | nil => rfl
  | cons u after =>
    cases hname : u.token.name? with
    | none => simp [moreSegments, name, hname, bind, Except.bind]
    | some text =>
      simp only [moreSegments, name, hname, if_true, bind, Except.bind]
      cases moreSegments after <;> rfl

/-- The dotted name of its first name and the ones behind it. -/
def pathOf (first : Identifier) (more : List Identifier) : TypePath :=
  ⟨first :: more, ⟨first.span.start, ((first :: more).getLast (List.cons_ne_nil _ _)).span.stop⟩⟩

theorem path_eq (tokens : Tokens) :
    path tokens = name .pathSegment tokens >>= fun (first, rest) =>
      (moreSegments rest).map fun (more, rest) => (pathOf first more, rest) := by
  unfold path
  cases name .pathSegment tokens with
  | error e => rfl
  | ok found => rfl

theorem path_cons (h : t.token.name? = some text) (rest : Tokens) :
    path (t :: rest) = (moreSegments rest).map fun (more, rest) => (pathOf ⟨text, t.span⟩ more, rest) := by
  simp only [path_eq, name, h]
  rfl

/-- A name alone is a type. -/
theorem typeName_of_name (h : t.token.name? = some text) (hdot : startsWith .dot rest = false)
    (hbracket : startsWith .leftBracket rest = false) :
    typeName (t :: rest) = .ok (.path ⟨[⟨text, t.span⟩], t.span⟩, rest) := by
  simp [typeName, path_cons h, moreSegments_of_not_dot hdot, bind, Except.bind, pure, Except.pure, Except.map, hbracket,
    pathOf]

/-- A type is a vector only if it begins with the name `Vector` and `<`. -/
theorem propertyType_single
    (h : ¬∃ span less rest, tokens = ⟨.ident "Vector", span⟩ :: ⟨.mark .less, less⟩ :: rest) :
    propertyType tokens = (typeName tokens).map fun (t, rest) => (.single t, rest) := by
  unfold propertyType
  split
  · rename_i span less rest
    exact absurd ⟨span, less, rest, rfl⟩ h
  · cases typeName tokens <;> rfl

theorem propertyType_of_name (h : t.token.name? = some text) (hdot : startsWith .dot rest = false)
    (hbracket : startsWith .leftBracket rest = false) (hless : startsWith .less rest = false) :
    propertyType (t :: rest) = .ok (.single (.path ⟨[⟨text, t.span⟩], t.span⟩), rest) := by
  rw [propertyType_single, typeName_of_name h hdot hbracket]
  · rfl
  · rintro ⟨span, less, more, heq⟩
    obtain ⟨-, rfl⟩ := List.cons.inj heq
    simp [startsWith] at hless

theorem propertyType_of_not_name (h : t.token.name? = none) (rest : Tokens) :
    propertyType (t :: rest) = .error ⟨.context .pathSegment, t :: rest⟩ := by
  rw [propertyType_single]
  · simp [typeName, path, name, h, bind, Except.bind, Except.map]
  · rintro ⟨span, less, more, heq⟩
    obtain ⟨rfl, -⟩ := List.cons.inj heq
    cases h

/-! ## Entries in braces -/

theorem braceEntries_eq {separated : Bool} (h : startsWith .rightBrace tokens = false) :
    braceEntries separated tokens = comment? tokens >>= fun
      | some (c, rest) =>
        (braceEntries separated rest).map fun (entries, stop, rest) => (.comment c :: entries, stop, rest)
      | none =>
        if separated then
          if tokens = [] then .error ⟨.mark .rightBrace, []⟩
          else property tokens >>= fun (p, rest) =>
            (braceEntries false rest).map fun (entries, stop, rest) => (.property p :: entries, stop, rest)
        else expect .semicolon tokens >>= fun (_, rest) => braceEntries true rest := by
  cases tokens with
  | nil => cases separated <;> rw [braceEntries] <;> simp [comment?, expect, bind, Except.bind]
  | cons t after =>
    rw [braceEntries]
    · simp only [bind, Except.bind]
      grind
    · grind [startsWith]

theorem braceEntries_rightBrace {separated : Bool} :
    braceEntries separated (⟨.mark .rightBrace, span⟩ :: rest) = .ok ([], span.stop, rest) := by
  rw [braceEntries]

theorem braceEntries_comment {separated : Bool} :
    braceEntries separated (⟨.comment text, span⟩ :: rest) =
      (braceEntries separated rest).map fun (entries, stop, rest) =>
        (.comment ⟨text, span⟩ :: entries, stop, rest) := by
  rw [braceEntries]
  · simp [comment?]
  · simp

theorem braceEntries_property {after : Tokens} {p : Property} (ht : t.token.name?.isSome)
    (h : property (t :: after) = .ok (p, rest)) :
    braceEntries true (t :: after) =
      (braceEntries false rest).map fun (entries, stop, rest) => (.property p :: entries, stop, rest) := by
  have hc := comment?_of_name?_isSome after ht
  rw [braceEntries]
  · grind
  · rintro span' rest' heq
    cases heq
    cases ht

theorem braceEntries_semicolon : braceEntries false (⟨.mark .semicolon, span⟩ :: rest) = braceEntries true rest := by
  rw [braceEntries]
  · simp [comment?, expect]
  · simp

/-! ## Entries after an arrow -/

/-- What follows a property after an arrow: more entries, or the end of them. -/
def arrowAfter (p : Property) : Tokens → Except Rejection (List BodyEntry × Nat × Tokens)
  | ⟨.mark .comma, _⟩ :: rest =>
    (arrowEntries rest).map fun (entries, stop, rest) => (.property p :: entries, stop, rest)
  | ⟨.mark .semicolon, span⟩ :: rest => .ok ([.property p], span.stop, rest)
  | rest => .ok ([.property p], p.span.stop, rest)

theorem arrowAfter_last (p : Property) (hcomma : startsWith .comma rest = false)
    (hsemicolon : startsWith .semicolon rest = false) : arrowAfter p rest = .ok ([.property p], p.span.stop, rest) := by
  unfold arrowAfter
  split <;> simp_all [startsWith]

theorem arrowEntries_eq :
    arrowEntries tokens = comment? tokens >>= fun
      | some (c, rest) => (arrowEntries rest).map fun (entries, stop, rest) => (.comment c :: entries, stop, rest)
      | none => property tokens >>= fun (p, rest) => arrowAfter p rest := by
  rw [arrowEntries]
  simp only [bind, Except.bind]
  unfold arrowAfter
  grind

theorem arrowEntries_of_none (hc : comment? tokens = .ok none) :
    arrowEntries tokens = property tokens >>= fun (p, rest) => arrowAfter p rest := by
  rw [arrowEntries_eq, hc]
  rfl

theorem arrowEntries_comma {p : Property} (hc : comment? tokens = .ok none)
    (hp : property tokens = .ok (p, ⟨.mark .comma, span⟩ :: rest)) :
    arrowEntries tokens =
      (arrowEntries rest).map fun (entries, stop, rest) => (.property p :: entries, stop, rest) := by
  rw [arrowEntries]
  grind

theorem arrowEntries_semicolon {p : Property} (hc : comment? tokens = .ok none)
    (hp : property tokens = .ok (p, ⟨.mark .semicolon, span⟩ :: rest)) :
    arrowEntries tokens = .ok ([.property p], span.stop, rest) := by
  rw [arrowEntries]
  grind

theorem arrowEntries_last {p : Property} (hc : comment? tokens = .ok none) (hp : property tokens = .ok (p, rest))
    (hcomma : startsWith .comma rest = false) (hsemicolon : startsWith .semicolon rest = false) :
    arrowEntries tokens = .ok ([.property p], p.span.stop, rest) := by
  rw [arrowEntries]
  grind [startsWith]

theorem containerBody_arrow (before : Nat) (span : Span) (h : startsWith .semicolon rest = false) :
    containerBody before (⟨.mark .arrow, span⟩ :: rest) = arrowEntries rest := by
  unfold containerBody
  split <;> simp_all [startsWith]

/-- But for comments, what follows an arrow begins with a name. -/
theorem exists_of_arrowEntries {entries : List BodyEntry} {stop : Nat} (hc : comment? tokens = .ok none)
    (h : arrowEntries tokens = .ok (entries, stop, rest)) : ∃ t after, tokens = t :: after ∧ t.token.name?.isSome := by
  revert h
  fun_cases arrowEntries tokens with
  | case4 _ p _ _ hp => exact fun _ => exists_of_property hp
  | case5 _ p _ _ hp => exact fun _ => exists_of_property hp
  | case6 _ p _ _ _ hp => exact fun _ => exists_of_property hp
  | _ => simp_all

/-! ## Members of a type group -/

theorem members_eq (h : startsWith .rightBrace tokens = false) :
    members tokens = comment? tokens >>= fun
      | some (c, rest) => (members rest).map fun (members, stop, rest) => (.comment c :: members, stop, rest)
      | none =>
        if tokens = [] then .error ⟨.mark .rightBrace, []⟩
        else groupContainer tokens >>= fun (c, rest) =>
          (members rest).map fun (members, stop, rest) => (.container c :: members, stop, rest) := by
  cases tokens with
  | nil => rw [members] <;> simp [comment?, bind, Except.bind]
  | cons t after =>
    rw [members]
    · simp only [bind, Except.bind]
      grind
    · grind [startsWith]

theorem members_rightBrace : members (⟨.mark .rightBrace, span⟩ :: rest) = .ok ([], span.stop, rest) := by
  rw [members]

theorem members_comment :
    members (⟨.comment text, span⟩ :: rest) =
      (members rest).map fun (members, stop, rest) => (.comment ⟨text, span⟩ :: members, stop, rest) := by
  rw [members]
  · simp [comment?]
  · simp

theorem members_container {after : Tokens} {c : GroupContainer} (ht : t.token.name?.isSome)
    (h : groupContainer (t :: after) = .ok (c, rest)) :
    members (t :: after) = (members rest).map fun (members, stop, rest) => (.container c :: members, stop, rest) := by
  have hc := comment?_of_name?_isSome after ht
  rw [members]
  · grind
  · rintro span' rest' heq
    cases heq
    cases ht

/-! ## Dotted names between commas -/

/-- What follows a dotted name in a list of them: more of them, or the end of the list. -/
def pathsAfter (p : TypePath) : Tokens → Except Rejection (List TypePath × Tokens)
  | ⟨.mark .comma, _⟩ :: rest => (paths rest).map fun (more, rest) => (p :: more, rest)
  | rest => .ok ([p], rest)

theorem pathsAfter_last (p : TypePath) (hcomma : startsWith .comma rest = false) :
    pathsAfter p rest = .ok ([p], rest) := by
  unfold pathsAfter
  split <;> simp_all [startsWith]

theorem paths_eq (tokens : Tokens) : paths tokens = path tokens >>= fun (p, rest) => pathsAfter p rest := by
  rw [paths]
  simp only [bind, Except.bind]
  unfold pathsAfter
  grind

theorem paths_comma {p : TypePath} (h : path tokens = .ok (p, ⟨.mark .comma, span⟩ :: rest)) :
    paths tokens = (paths rest).map fun (more, rest) => (p :: more, rest) := by
  rw [paths]
  grind

theorem paths_last {p : TypePath} (h : path tokens = .ok (p, rest)) (hcomma : startsWith .comma rest = false) :
    paths tokens = .ok ([p], rest) := by
  rw [paths]
  grind [startsWith]

/-! ## Items -/

theorem keywordItem_group (h : startsGroup rest = true) :
    keywordItem (⟨.keyword .typeWord, span⟩ :: rest) =
      (typeGroup span.start rest).map fun (group, rest) => (.typeGroup group, rest) := by
  simp [keywordItem, h]

/-- A name begins a declaration, unless it is a keyword that begins another item there. -/
theorem keywordItem_declaration (hname : t.token.name?.isSome)
    (hgroup : t.token = .keyword .typeWord → startsGroup rest = false) (halias : t.token ≠ .keyword .aliasWord)
    (htrait : t.token ≠ .keyword .traitWord) :
    keywordItem (t :: rest) =
      (declaration (t :: rest)).map fun (declaration, rest) => (.declaration declaration, rest) := by
  unfold keywordItem
  grind

theorem keywordItem_error (hname : t.token.name? = none) :
    keywordItem (t :: rest) = .error ⟨.context .declaration, t :: rest⟩ := by
  unfold keywordItem
  grind [Token.name?]

/-- The items that are read, with the tokens that are left. -/
def readItems (inside : Bool) (tokens : Tokens) : Except Rejection (List Item × Tokens) :=
  (items inside tokens).map fun (body, left) => (body, left.1)

variable {inside : Bool} {e : Rejection} {c : Comment}

theorem readItems_nil : readItems false [] = .ok ([], []) := by
  unfold readItems
  rw [items]
  rfl

theorem length_of_readItems {body : List Item} (h : readItems inside tokens = .ok (body, rest)) :
    rest.length ≤ tokens.length := by
  obtain ⟨⟨body', left⟩, -, heq⟩ := exists_of_map_eq_ok h
  cases heq
  exact left.2

theorem readItems_unclosed : readItems true [] = .error ⟨.mark .rightBrace, []⟩ := by
  unfold readItems
  rw [items]
  rfl

theorem readItems_rightBrace :
    readItems true (⟨.mark .rightBrace, span⟩ :: rest) = .ok ([], ⟨.mark .rightBrace, span⟩ :: rest) := by
  unfold readItems
  rw [items]
  rfl

theorem readItems_comment :
    readItems inside (⟨.comment text, span⟩ :: rest) =
      (readItems inside rest).map fun (more, left) => (.comment ⟨text, span⟩ :: more, left) := by
  unfold readItems
  rw [items]
  cases hmore : items inside rest <;> simp [comment?, Except.map, hmore]

theorem readItems_of_comment?_error (hc : comment? tokens = .error e) : readItems inside tokens = .error e := by
  cases tokens with
  | nil => cases hc
  | cons t after =>
    have hclosing : t.token ≠ .mark .rightBrace := by
      unfold comment? at hc
      grind
    unfold readItems
    rw [items]
    grind [Except.map]

theorem readItems_of_comment? (hc : comment? tokens = .ok (some (c, rest))) :
    readItems inside tokens = (readItems inside rest).map fun (more, left) => (.comment c :: more, left) := by
  obtain ⟨t, after, rfl, hclosing⟩ := exists_of_comment? hc rfl
  unfold readItems
  rw [items]
  cases hmore : items inside rest <;> grind [Except.map]

theorem name_of_keywordItem {after : Tokens} {item : Item} (h : keywordItem (t :: rest) = .ok (item, after)) :
    t.token.name?.isSome := by
  simp only [keywordItem] at h
  split at h
  · rename_i hword
    rw [hword.1]
    rfl
  split at h
  · rename_i hword
    rw [hword]
    rfl
  split at h
  · rename_i hword
    rw [hword]
    rfl
  split at h
  · assumption
  · cases h

theorem readItems_keywordItem {after : Tokens} {item : Item} (ht : t.token.name?.isSome)
    (hword : t.token ≠ .keyword .namespaceWord) (h : keywordItem (t :: rest) = .ok (item, after)) :
    readItems inside (t :: rest) = (readItems inside after).map fun (more, left) => (item :: more, left) := by
  have hc := comment?_of_name?_isSome rest ht
  have hclosing : t.token ≠ .mark .rightBrace := by
    intro heq
    simp [heq, Token.name?] at ht
  unfold readItems
  rw [items]
  cases hmore : items inside after <;> grind [Except.map]

theorem readItems_namespace {body : List Item} {after closing : Tokens} {i : Identifier} {brace : Span}
    (hhead : namespaceHead tokens = .ok (i, rest)) (hbody : readItems true rest = .ok (body, closing))
    (hbrace : expect .rightBrace closing = .ok (brace, after)) :
    readItems inside (⟨.keyword .namespaceWord, span⟩ :: tokens) =
      (readItems inside after).map fun (more, left) =>
        (.namespaceBlock i body ⟨span.start, brace.stop⟩ :: more, left) := by
  obtain ⟨⟨body', left⟩, hitems, heq⟩ := exists_of_map_eq_ok hbody
  obtain ⟨rfl, rfl⟩ := Prod.mk.inj heq
  unfold readItems
  rw [items]
  have hnone : comment? (⟨.keyword .namespaceWord, span⟩ :: tokens) = .ok none := rfl
  cases hmore : items inside after <;> grind [Except.map]

theorem readItems_item (hc : comment? (t :: tokens) = .ok none) (hword : t.token ≠ .keyword .namespaceWord)
    (hclosing : inside = true → t.token ≠ .mark .rightBrace) :
    readItems inside (t :: tokens) = (do
      let (item, rest) ← keywordItem (t :: tokens)
      (readItems inside rest).map fun (more, left) => (item :: more, left)) := by
  cases hitem : keywordItem (t :: tokens) with
  | ok result => rw [readItems_keywordItem (name_of_keywordItem hitem) hword hitem]; rfl
  | error e =>
    have hread : readItems inside (t :: tokens) = .error e := by
      unfold readItems
      rw [items]
      grind [Except.map]
    rw [hread]
    rfl

theorem readItems_namespace_eq :
    readItems inside (⟨.keyword .namespaceWord, span⟩ :: tokens) = (do
      let (name, inner) ← namespaceHead tokens
      let (body, closing) ← readItems true inner
      let (brace, rest) ← expect .rightBrace closing
      (readItems inside rest).map fun (more, left) =>
        (.namespaceBlock name body ⟨span.start, brace.stop⟩ :: more, left)) := by
  have hnone : comment? (⟨.keyword .namespaceWord, span⟩ :: tokens) = .ok none := rfl
  cases hhead : namespaceHead tokens with
  | error e =>
    have hread : readItems inside (⟨.keyword .namespaceWord, span⟩ :: tokens) = .error e := by
      unfold readItems
      rw [items]
      grind [Except.map]
    rw [hread]
    rfl
  | ok head =>
    obtain ⟨name, inner⟩ := head
    cases hbody : items true inner with
    | error e =>
      have hread : readItems inside (⟨.keyword .namespaceWord, span⟩ :: tokens) = .error e := by
        unfold readItems
        rw [items]
        grind [Except.map]
      have hinner : readItems true inner = .error e := by
        rw [readItems, hbody]
        rfl
      simp only [hread, hinner, bind, Except.bind]
    | ok block =>
      obtain ⟨body, closing⟩ := block
      have hinner : readItems true inner = .ok (body, closing.1) := by
        rw [readItems, hbody]
        rfl
      cases hbrace : expect .rightBrace closing.1 with
      | error e =>
        have hread : readItems inside (⟨.keyword .namespaceWord, span⟩ :: tokens) = .error e := by
          unfold readItems
          rw [items]
          grind [Except.map]
        simp only [hread, hinner, hbrace, bind, Except.bind]
      | ok brace =>
        simp only [readItems_namespace hhead hinner hbrace, hinner, hbrace, bind, Except.bind]

theorem exists_of_readItems_name {body : List Item} {left : Tokens} (ht : t.token.name?.isSome)
    (hword : t.token ≠ .keyword .namespaceWord) (h : readItems inside (t :: rest) = .ok (body, left)) :
    ∃ item after more, keywordItem (t :: rest) = .ok (item, after) ∧ readItems inside after = .ok (more, left) ∧
      body = item :: more := by
  cases hitem : keywordItem (t :: rest) with
  | ok result =>
    obtain ⟨item, after⟩ := result
    rw [readItems_keywordItem ht hword hitem] at h
    obtain ⟨⟨more, left'⟩, hmore, heq⟩ := exists_of_map_eq_ok h
    cases heq
    exact ⟨item, after, more, rfl, hmore, rfl⟩
  | error e =>
    have hc := comment?_of_name?_isSome rest ht
    have hclosing : t.token ≠ .mark .rightBrace := by
      intro heq
      simp [heq, Token.name?] at ht
    unfold readItems at h
    rw [items] at h
    grind [Except.map]

theorem exists_of_readItems_namespace {body : List Item} {inner left : Tokens} {i : Identifier}
    (hhead : namespaceHead tokens = .ok (i, inner))
    (h : readItems inside (⟨.keyword .namespaceWord, span⟩ :: tokens) = .ok (body, left)) :
    ∃ members closing brace after more, readItems true inner = .ok (members, closing) ∧
      expect .rightBrace closing = .ok (brace, after) ∧ readItems inside after = .ok (more, left) ∧
      body = .namespaceBlock i members ⟨span.start, brace.stop⟩ :: more := by
  cases hmembers : readItems true inner with
  | ok result =>
    obtain ⟨members, closing⟩ := result
    cases hbrace : expect .rightBrace closing with
    | ok result =>
      obtain ⟨brace, after⟩ := result
      rw [readItems_namespace hhead hmembers hbrace] at h
      obtain ⟨⟨more, left'⟩, hmore, heq⟩ := exists_of_map_eq_ok h
      cases heq
      exact ⟨members, closing, brace, after, more, rfl, hbrace, hmore, rfl⟩
    | error e =>
      obtain ⟨⟨members', left'⟩, hitems, heq⟩ := exists_of_map_eq_ok hmembers
      have hnone : comment? (⟨.keyword .namespaceWord, span⟩ :: tokens) = .ok none := rfl
      unfold readItems at h
      rw [items] at h
      grind [Except.map]
  | error e =>
    have hnone : comment? (⟨.keyword .namespaceWord, span⟩ :: tokens) = .ok none := rfl
    unfold readItems at h hmembers
    rw [items] at h
    grind [Except.map]

end SchemaWire.Parser
