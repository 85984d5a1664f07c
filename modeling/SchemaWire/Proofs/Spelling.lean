import SchemaWire.Proofs.Agreement
import SchemaWire.Proofs.Outcome

/-!
# Parsing undoes spelling

Every tree has a canonical spelling: names as identifiers, all bodies in braces, and no mark left out. The names in it
may be any texts at all. Parsing a spelling gives back the tree, places aside (`ofTokens_spelled`).
-/

namespace SchemaWire

/-! ## Spellings -/

def Identifier.spelled (i : Identifier) : List Token :=
  [.ident i.name]

/-- The names with dots between them. -/
def TypePath.spelled (p : TypePath) : List Token :=
  match p.segments with
  | [] => []
  | first :: more => first.spelled ++ more.flatMap (.mark .dot :: ·.spelled)

def TypeName.spelled : TypeName → List Token
  | .path p => p.spelled
  | .sized s => s.name.spelled ++ [.mark .leftBracket, .integer s.size.value, .mark .rightBracket]

def PropertyType.spelled : PropertyType → List Token
  | .single t => t.spelled
  | .vector v => .ident "Vector" :: .mark .less :: (v.item.spelled ++ [.mark .greater])

/-- The property without the semicolon after it. -/
def Property.spelled (p : Property) : List Token :=
  p.key.spelled ++ ((if p.optional then [.mark .question] else []) ++ .mark .colon :: p.type.spelled)

def Comment.spelled (c : Comment) : List Token :=
  [.comment c.text]

def BodyEntry.spelled : BodyEntry → List Token
  | .comment c => c.spelled
  | .property p => p.spelled ++ [.mark .semicolon]

/-- Entries in braces. -/
def BodyEntry.bodySpelled (body : List BodyEntry) : List Token :=
  .mark .leftBrace :: (body.flatMap spelled ++ [.mark .rightBrace])

def GroupContainer.spelled (c : GroupContainer) : List Token :=
  c.name.spelled ++ BodyEntry.bodySpelled c.body

def GroupMember.spelled : GroupMember → List Token
  | .comment c => c.spelled
  | .container c => c.spelled

/-- `implements` and the traits with commas between them, if there are any. -/
def TypeGroup.traitsSpelled : List TypePath → List Token
  | [] => []
  | first :: more => .keyword .implementsWord :: (first.spelled ++ more.flatMap (.mark .comma :: ·.spelled))

def TypeGroup.spelled (g : TypeGroup) : List Token :=
  .keyword .typeWord :: (g.name.spelled ++ (traitsSpelled g.traits ++
    .mark .leftBrace :: (g.body.flatMap GroupMember.spelled ++ [.mark .rightBrace])))

def Alias.spelled (a : Alias) : List Token :=
  .keyword .aliasWord :: (a.name.spelled ++ .mark .equals :: (a.target.spelled ++ [.mark .semicolon]))

def TraitDeclaration.spelled (t : TraitDeclaration) : List Token :=
  .keyword .traitWord :: (t.name.spelled ++ BodyEntry.bodySpelled t.body)

/-- `ctor : name body`. -/
def Declaration.spelled (d : Declaration) : List Token :=
  d.ctor.spelled ++ .mark .colon :: (d.name.spelled ++ BodyEntry.bodySpelled d.body)

/-- Items one after the other. -/
def Item.spelled : List Item → List Token
  | [] => []
  | .comment c :: rest => c.spelled ++ spelled rest
  | .namespaceBlock name body _ :: rest =>
    .keyword .namespaceWord :: (name.spelled ++ .mark .leftBrace :: (spelled body ++ .mark .rightBrace :: spelled rest))
  | .typeGroup g :: rest => g.spelled ++ spelled rest
  | .aliasDecl a :: rest => a.spelled ++ spelled rest
  | .traitDecl t :: rest => t.spelled ++ spelled rest
  | .declaration d :: rest => d.spelled ++ spelled rest

/-- A whole source, up to its end. -/
def Schema.spelled (s : Schema) : List Token :=
  Item.spelled s.body ++ [.eof]

/-! ## Trees without places -/

/-- The place of everything in a tree the places of which do not count. -/
def Span.nowhere : Span :=
  ⟨0, 0⟩

def Identifier.unplaced (i : Identifier) : Identifier :=
  ⟨i.name, .nowhere⟩

def TypePath.unplaced (p : TypePath) : TypePath :=
  ⟨p.segments.map Identifier.unplaced, .nowhere⟩

def SizedType.unplaced (s : SizedType) : SizedType :=
  ⟨s.name.unplaced, ⟨s.size.value, .nowhere⟩, .nowhere⟩

def TypeName.unplaced : TypeName → TypeName
  | .path p => .path p.unplaced
  | .sized s => .sized s.unplaced

def PropertyType.unplaced : PropertyType → PropertyType
  | .single t => .single t.unplaced
  | .vector v => .vector ⟨v.item.unplaced, .nowhere⟩

def Property.unplaced (p : Property) : Property :=
  ⟨p.key.unplaced, p.optional, p.type.unplaced, .nowhere⟩

def Comment.unplaced (c : Comment) : Comment :=
  ⟨c.text, .nowhere⟩

def BodyEntry.unplaced : BodyEntry → BodyEntry
  | .comment c => .comment c.unplaced
  | .property p => .property p.unplaced

def GroupContainer.unplaced (c : GroupContainer) : GroupContainer :=
  ⟨c.name.unplaced, c.body.map BodyEntry.unplaced, .nowhere⟩

def GroupMember.unplaced : GroupMember → GroupMember
  | .comment c => .comment c.unplaced
  | .container c => .container c.unplaced

def TypeGroup.unplaced (g : TypeGroup) : TypeGroup :=
  ⟨g.name.unplaced, g.traits.map TypePath.unplaced, g.body.map GroupMember.unplaced, .nowhere⟩

def Alias.unplaced (a : Alias) : Alias :=
  ⟨a.name.unplaced, a.target.unplaced, .nowhere⟩

def TraitDeclaration.unplaced (t : TraitDeclaration) : TraitDeclaration :=
  ⟨t.name.unplaced, t.body.map BodyEntry.unplaced, .nowhere⟩

def Declaration.unplaced (d : Declaration) : Declaration :=
  ⟨d.ctor.unplaced, d.name.unplaced, d.body.map BodyEntry.unplaced, .nowhere⟩

def Item.unplaced : List Item → List Item
  | [] => []
  | .comment c :: rest => .comment c.unplaced :: unplaced rest
  | .namespaceBlock name body _ :: rest => .namespaceBlock name.unplaced (unplaced body) .nowhere :: unplaced rest
  | .typeGroup g :: rest => .typeGroup g.unplaced :: unplaced rest
  | .aliasDecl a :: rest => .aliasDecl a.unplaced :: unplaced rest
  | .traitDecl t :: rest => .traitDecl t.unplaced :: unplaced rest
  | .declaration d :: rest => .declaration d.unplaced :: unplaced rest

def Schema.unplaced (s : Schema) : Schema :=
  ⟨Item.unplaced s.body, .nowhere⟩

/-! ## The dotted names of a tree -/

/-- The dotted name that a type name is, if it is one. -/
def TypeName.typePaths : TypeName → List TypePath
  | .path p => [p]
  | .sized _ => []

/-- The dotted names in a body. -/
def BodyEntry.typePaths (body : List BodyEntry) : List TypePath :=
  (typeNames body).flatMap TypeName.typePaths

/-- The dotted names in a member of a type group. -/
def GroupMember.typePaths : GroupMember → List TypePath
  | .comment _ => []
  | .container c => c.name :: BodyEntry.typePaths c.body

/-- The dotted names in an item, without those in the items of a namespace. -/
def Item.typePaths : Item → List TypePath
  | .comment _ => []
  | .namespaceBlock .. => []
  | .typeGroup g => g.traits ++ g.body.flatMap GroupMember.typePaths
  | .aliasDecl a => a.target.typePaths
  | .traitDecl t => BodyEntry.typePaths t.body
  | .declaration d => d.ctor :: d.name :: BodyEntry.typePaths d.body

/-- The dotted names in a source. -/
def Schema.typePaths (s : Schema) : List TypePath :=
  (Item.flatten s.body).flatMap Item.typePaths

/-! ## Reading a spelling -/

namespace Parser

/-- A reader takes all tokens of a spelling, whatever their places, and returns something of which a relation holds. -/
def Reads {α : Type} (read : Tokens → Except Rejection (α × Tokens)) (spelling : List Token) (rest : Tokens)
    (Same : α → Prop) : Prop :=
  ∀ used : Tokens, used.map Located.token = spelling → ∃ x, read (used ++ rest) = .ok (x, rest) ∧ Same x

/-- The first of the tokens that spell something, wherever it stands. -/
theorem exists_of_map_eq_cons {used : Tokens} {token : Token} {ts : List Token}
    (h : used.map Located.token = token :: ts) :
    ∃ span after, used = ⟨token, span⟩ :: after ∧ after.map Located.token = ts := by
  obtain ⟨⟨token', span⟩, after, rfl, rfl, hafter⟩ := List.map_eq_cons_iff.mp h
  exact ⟨span, after, rfl, hafter⟩

/-! ### Types -/

theorem reads_name (context : ParseError.Context) (rest : Tokens) (i : Identifier) :
    Reads (name context) i.spelled rest (·.unplaced = i.unplaced) := by
  intro used h
  obtain ⟨span, after, rfl, hafter⟩ := exists_of_map_eq_cons h
  obtain rfl := List.map_eq_nil_iff.mp hafter
  exact ⟨⟨i.name, span⟩, rfl, rfl⟩

theorem reads_moreSegments (rest : Tokens) (segments : List Identifier) (hrest : startsWith .dot rest = false) :
    Reads moreSegments (segments.flatMap (.mark .dot :: ·.spelled)) rest
      (·.map Identifier.unplaced = segments.map Identifier.unplaced) := by
  induction segments with
  | nil =>
    intro used h
    obtain rfl := List.map_eq_nil_iff.mp h
    exact ⟨[], moreSegments_of_not_dot hrest, rfl⟩
  | cons i more ih =>
    intro used h
    obtain ⟨dot, after, rfl, hafter⟩ := exists_of_map_eq_cons h
    obtain ⟨span, left, rfl, hleft⟩ := exists_of_map_eq_cons hafter
    obtain ⟨found, hfound, hsame⟩ := ih left hleft
    refine ⟨⟨i.name, span⟩ :: found, ?_, by simp [Identifier.unplaced, hsame]⟩
    simp [moreSegments, Token.name?, hfound, Except.map]

theorem reads_path (rest : Tokens) {p : TypePath} (hp : p.segments ≠ []) (hrest : startsWith .dot rest = false) :
    Reads path p.spelled rest (·.unplaced = p.unplaced) := by
  obtain ⟨segments, span⟩ := p
  cases segments with
  | nil => exact absurd rfl hp
  | cons first more =>
    intro used h
    obtain ⟨us, vs, rfl, hus, hvs⟩ := List.map_eq_append_iff.mp h
    obtain ⟨i, hi, hfirst⟩ := reads_name .pathSegment (vs ++ rest) first us hus
    obtain ⟨found, hfound, hmore⟩ := reads_moreSegments rest more hrest vs hvs
    rw [List.append_assoc]
    refine ⟨_, Except.bind_eq_ok_iff.mpr ⟨_, hi, Except.bind_eq_ok_iff.mpr ⟨_, hfound, rfl⟩⟩, ?_⟩
    simp [TypePath.unplaced, hfirst, hmore]

/-- Whether a type ends before the tokens: a semicolon or the end of a vector comes next. -/
def EndsType (rest : Tokens) : Prop :=
  startsWith .semicolon rest = true ∨ startsWith .greater rest = true

theorem startsWith_eq_false {rest : Tokens} {mark other : Mark} (h : startsWith mark rest = true) (hne : mark ≠ other) :
    startsWith other rest = false := by
  cases rest with
  | nil => rfl
  | cons t after =>
    simp only [startsWith, decide_eq_true_eq] at h
    simp [startsWith, h, hne]

theorem EndsType.startsWith_eq_false {rest : Tokens} (h : EndsType rest) (mark : Mark) (hsemicolon : .semicolon ≠ mark)
    (hgreater : .greater ≠ mark) : startsWith mark rest = false := by
  rcases h with h | h
  · exact Parser.startsWith_eq_false h hsemicolon
  · exact Parser.startsWith_eq_false h hgreater

theorem reads_typeName (rest : Tokens) {t : TypeName} (ht : ∀ p ∈ t.typePaths, p.segments ≠ [])
    (hrest : EndsType rest) :
    Reads typeName t.spelled rest (·.unplaced = t.unplaced) := by
  intro used h
  cases t with
  | path p =>
    have hdot := hrest.startsWith_eq_false .dot (by decide) (by decide)
    have hbracket := hrest.startsWith_eq_false .leftBracket (by decide) (by decide)
    obtain ⟨found, hfound, hsame⟩ := reads_path rest (ht p (by simp [TypeName.typePaths])) hdot used h
    refine ⟨.path found, Except.bind_eq_ok_iff.mpr ⟨_, hfound, ?_⟩, by simp [TypeName.unplaced, hsame]⟩
    simp [hbracket, pure, Except.pure]
  | sized s =>
    obtain ⟨span, after, rfl, hafter⟩ := exists_of_map_eq_cons h
    obtain ⟨opening, after', rfl, hafter'⟩ := exists_of_map_eq_cons hafter
    obtain ⟨place, after'', rfl, hafter''⟩ := exists_of_map_eq_cons hafter'
    obtain ⟨closing, left, rfl, hleft⟩ := exists_of_map_eq_cons hafter''
    obtain rfl := List.map_eq_nil_iff.mp hleft
    exact ⟨.sized ⟨⟨s.name.name, span⟩, ⟨s.size.value, place⟩, ⟨span.start, closing.stop⟩⟩, rfl, rfl⟩

/-- A name that is `Vector` begins a vector only if `<` comes after it. -/
theorem propertyType_of_not_less {tokens : Tokens} (h : startsWith .less tokens.tail = false) :
    propertyType tokens = (typeName tokens).map fun (t, rest) => (.single t, rest) := by
  unfold propertyType
  split
  · cases h
  · cases typeName tokens <;> rfl

theorem startsWith_less_tail {used rest : Tokens} {t : TypeName} (ht : ∀ p ∈ t.typePaths, p.segments ≠ [])
    (hrest : EndsType rest) (h : used.map Located.token = t.spelled) :
    startsWith .less (used ++ rest).tail = false := by
  cases t with
  | path p =>
    obtain ⟨segments, span⟩ := p
    cases segments with
    | nil => exact absurd rfl (ht ⟨[], span⟩ (by simp [TypeName.typePaths]))
    | cons first more =>
      obtain ⟨place, after, rfl, hafter⟩ := exists_of_map_eq_cons h
      cases more with
      | nil =>
        obtain rfl := List.map_eq_nil_iff.mp hafter
        exact hrest.startsWith_eq_false .less (by decide) (by decide)
      | cons second more =>
        obtain ⟨dot, after', rfl, hafter'⟩ := exists_of_map_eq_cons hafter
        rfl
  | sized s =>
    obtain ⟨span, after, rfl, hafter⟩ := exists_of_map_eq_cons h
    obtain ⟨opening, after', rfl, hafter'⟩ := exists_of_map_eq_cons hafter
    rfl

theorem reads_propertyType (rest : Tokens) {t : PropertyType} (ht : ∀ p ∈ t.item.typePaths, p.segments ≠ [])
    (hrest : EndsType rest) :
    Reads propertyType t.spelled rest (·.unplaced = t.unplaced) := by
  intro used h
  cases t with
  | single t =>
    obtain ⟨found, hfound, hsame⟩ := reads_typeName rest ht hrest used h
    refine ⟨.single found, ?_, congrArg PropertyType.single hsame⟩
    rw [propertyType_of_not_less (startsWith_less_tail ht hrest h), hfound]
    rfl
  | vector v =>
    obtain ⟨span, after, rfl, hafter⟩ := exists_of_map_eq_cons h
    obtain ⟨less, after', rfl, hafter'⟩ := exists_of_map_eq_cons hafter
    obtain ⟨us, vs, rfl, hus, hvs⟩ := List.map_eq_append_iff.mp hafter'
    obtain ⟨greater, left, rfl, hleft⟩ := exists_of_map_eq_cons hvs
    obtain rfl := List.map_eq_nil_iff.mp hleft
    obtain ⟨found, hfound, hsame⟩ := reads_typeName (⟨.mark .greater, greater⟩ :: rest) ht (.inr rfl) us hus
    have hvector := congrArg (fun t => PropertyType.vector ⟨t, .nowhere⟩) hsame
    refine ⟨.vector ⟨found, ⟨span.start, greater.stop⟩⟩, ?_, hvector⟩
    simp [propertyType, hfound, expect, bind, Except.bind, pure, Except.pure]

/-! ### Bodies -/

theorem reads_property (rest : Tokens) {p : Property} (hp : ∀ q ∈ p.type.item.typePaths, q.segments ≠ [])
    (hrest : EndsType rest) :
    Reads property p.spelled rest (·.unplaced = p.unplaced) := by
  intro used h
  obtain ⟨us, vs, rfl, hus, hvs⟩ := List.map_eq_append_iff.mp h
  obtain ⟨i, hi, hkey⟩ := reads_name .propertyName (vs ++ rest) p.key us hus
  obtain ⟨marks, ws, rfl, hmarks, hws⟩ := List.map_eq_append_iff.mp hvs
  obtain ⟨colon, after, rfl, hafter⟩ := exists_of_map_eq_cons hws
  obtain ⟨type, htype, hsame⟩ := reads_propertyType rest hp hrest after hafter
  have hquestion : question (marks ++ ⟨.mark .colon, colon⟩ :: after ++ rest) =
      (p.optional, ⟨.mark .colon, colon⟩ :: after ++ rest) := by
    cases hoptional : p.optional with
    | false =>
      rw [hoptional] at hmarks
      obtain rfl := List.map_eq_nil_iff.mp hmarks
      rfl
    | true =>
      rw [hoptional] at hmarks
      obtain ⟨mark, none, rfl, hnone⟩ := exists_of_map_eq_cons hmarks
      obtain rfl := List.map_eq_nil_iff.mp hnone
      rfl
  rw [List.append_assoc]
  refine ⟨⟨i, p.optional, type, ⟨i.span.start, type.span.stop⟩⟩, ?_, by simp [Property.unplaced, hkey, hsame]⟩
  refine Except.bind_eq_ok_iff.mpr ⟨_, hi, ?_⟩
  simp only [hquestion, List.cons_append]
  simp [expect, htype, bind, Except.bind, pure, Except.pure]

/-- A loop up to a closing brace reads all that is spelled before the brace. -/
def ReadsUpTo {α : Type} (read : Tokens → Except Rejection (α × Nat × Tokens)) (spelling : List Token) (rest : Tokens)
    (Same : α → Prop) : Prop :=
  ∀ used : Tokens, used.map Located.token = spelling → ∃ x stop, read (used ++ rest) = .ok (x, stop, rest) ∧ Same x

theorem reads_braceEntries (rest : Tokens) {body : List BodyEntry}
    (h : ∀ p ∈ BodyEntry.typePaths body, p.segments ≠ []) :
    ReadsUpTo (braceEntries true) (body.flatMap BodyEntry.spelled ++ [.mark .rightBrace]) rest
      (·.map BodyEntry.unplaced = body.map BodyEntry.unplaced) := by
  induction body with
  | nil =>
    intro used hused
    obtain ⟨span, after, rfl, hafter⟩ := exists_of_map_eq_cons hused
    obtain rfl := List.map_eq_nil_iff.mp hafter
    exact ⟨[], span.stop, braceEntries_rightBrace, rfl⟩
  | cons entry more ih =>
    intro used hused
    cases entry with
    | comment c =>
      obtain ⟨span, after, rfl, hafter⟩ := exists_of_map_eq_cons hused
      obtain ⟨found, stop, hfound, hsame⟩ := ih (fun p hp => h p hp) after hafter
      refine ⟨.comment ⟨c.text, span⟩ :: found, stop, ?_, ?_⟩
      · rw [List.cons_append, braceEntries_comment, hfound]
        rfl
      · simp [BodyEntry.unplaced, Comment.unplaced, hsame]
    | property p =>
      simp only [List.flatMap_cons, BodyEntry.spelled, List.append_assoc] at hused
      obtain ⟨us, vs, rfl, hus, hvs⟩ := List.map_eq_append_iff.mp hused
      obtain ⟨semicolon, after, rfl, hafter⟩ := exists_of_map_eq_cons hvs
      obtain ⟨q, hq, hproperty⟩ :=
        reads_property (⟨.mark .semicolon, semicolon⟩ :: (after ++ rest))
          (fun q hq => h q (List.mem_append_left _ hq)) (.inl rfl) us hus
      obtain ⟨found, stop, hfound, hsame⟩ := ih (fun q hq => h q (List.mem_append_right _ hq)) after hafter
      obtain ⟨key, left, rfl, hleft⟩ := exists_of_map_eq_cons hus
      refine ⟨.property q :: found, stop, ?_, ?_⟩
      · simp only [List.cons_append, List.append_assoc] at hq ⊢
        rw [braceEntries_property rfl hq, braceEntries_semicolon, hfound]
        rfl
      · simp [BodyEntry.unplaced, hproperty, hsame]

theorem reads_containerBody (before : Nat) (rest : Tokens) {body : List BodyEntry}
    (h : ∀ p ∈ BodyEntry.typePaths body, p.segments ≠ []) :
    ReadsUpTo (containerBody before) (BodyEntry.bodySpelled body) rest
      (·.map BodyEntry.unplaced = body.map BodyEntry.unplaced) := by
  intro used hused
  obtain ⟨opening, after, rfl, hafter⟩ := exists_of_map_eq_cons hused
  exact reads_braceEntries rest h after hafter

/-! ### Items -/

theorem startsWith_dot_of_bodySpelled {used : Tokens} (rest : Tokens) {body : List BodyEntry}
    (h : used.map Located.token = BodyEntry.bodySpelled body) : startsWith .dot (used ++ rest) = false := by
  obtain ⟨opening, after, rfl, hafter⟩ := exists_of_map_eq_cons h
  rfl

theorem reads_groupContainer (rest : Tokens) {c : GroupContainer}
    (h : ∀ p ∈ (GroupMember.container c).typePaths, p.segments ≠ []) :
    Reads groupContainer c.spelled rest (·.unplaced = c.unplaced) := by
  intro used hused
  obtain ⟨us, vs, rfl, hus, hvs⟩ := List.map_eq_append_iff.mp hused
  have hdot := startsWith_dot_of_bodySpelled rest hvs
  obtain ⟨name, hname, hsame⟩ := reads_path (vs ++ rest) (h _ (by simp [GroupMember.typePaths])) hdot us hus
  obtain ⟨body, stop, hbody, hentries⟩ :=
    reads_containerBody name.span.stop rest (fun p hp => h p (List.mem_cons_of_mem _ hp)) vs hvs
  rw [List.append_assoc]
  refine ⟨_, Except.bind_eq_ok_iff.mpr ⟨_, hname, Except.bind_eq_ok_iff.mpr ⟨_, hbody, rfl⟩⟩, ?_⟩
  simp [GroupContainer.unplaced, hsame, hentries]

theorem exists_of_path_spelled {p : TypePath} (hp : p.segments ≠ []) {used : Tokens}
    (h : used.map Located.token = p.spelled) : ∃ text span after, used = ⟨.ident text, span⟩ :: after := by
  obtain ⟨segments, span⟩ := p
  cases segments with
  | nil => exact absurd rfl hp
  | cons first more =>
    obtain ⟨span, after, rfl, hafter⟩ := exists_of_map_eq_cons h
    exact ⟨_, span, after, rfl⟩

theorem reads_members (rest : Tokens) {body : List GroupMember}
    (h : ∀ p ∈ body.flatMap GroupMember.typePaths, p.segments ≠ []) :
    ReadsUpTo members (body.flatMap GroupMember.spelled ++ [.mark .rightBrace]) rest
      (·.map GroupMember.unplaced = body.map GroupMember.unplaced) := by
  induction body with
  | nil =>
    intro used hused
    obtain ⟨span, after, rfl, hafter⟩ := exists_of_map_eq_cons hused
    obtain rfl := List.map_eq_nil_iff.mp hafter
    exact ⟨[], span.stop, members_rightBrace, rfl⟩
  | cons member more ih =>
    intro used hused
    cases member with
    | comment c =>
      obtain ⟨span, after, rfl, hafter⟩ := exists_of_map_eq_cons hused
      obtain ⟨found, stop, hfound, hsame⟩ := ih (fun p hp => h p hp) after hafter
      refine ⟨.comment ⟨c.text, span⟩ :: found, stop, ?_, ?_⟩
      · rw [List.cons_append, members_comment, hfound]
        rfl
      · simp [GroupMember.unplaced, Comment.unplaced, hsame]
    | container c =>
      rw [List.flatMap_cons, List.append_assoc] at hused
      obtain ⟨us, vs, rfl, hus, hvs⟩ := List.map_eq_append_iff.mp hused
      obtain ⟨found, stop, hfound, hsame⟩ := ih (fun p hp => h p (List.mem_append_right _ hp)) vs hvs
      have hpaths : ∀ p ∈ (GroupMember.container c).typePaths, p.segments ≠ [] :=
        fun p hp => h p (List.mem_append_left _ hp)
      obtain ⟨c', hc, hcontainer⟩ := reads_groupContainer (vs ++ rest) hpaths us hus
      obtain ⟨names, entries, rfl, hnames, -⟩ := List.map_eq_append_iff.mp hus
      obtain ⟨text, span, after, rfl⟩ := exists_of_path_spelled (hpaths _ (by simp [GroupMember.typePaths])) hnames
      refine ⟨.container c' :: found, stop, ?_, ?_⟩
      · simp only [List.cons_append, List.append_assoc] at hc ⊢
        rw [members_container rfl hc, hfound]
        rfl
      · simp [GroupMember.unplaced, hcontainer, hsame]

theorem reads_paths (rest : Tokens) {first : TypePath} {more : List TypePath}
    (h : ∀ p ∈ first :: more, p.segments ≠ []) (hdot : startsWith .dot rest = false)
    (hcomma : startsWith .comma rest = false) :
    Reads paths (first.spelled ++ more.flatMap (.mark .comma :: ·.spelled)) rest
      (·.map TypePath.unplaced = (first :: more).map TypePath.unplaced) := by
  induction more generalizing first with
  | nil =>
    intro used hused
    obtain ⟨us, vs, rfl, hus, hvs⟩ := List.map_eq_append_iff.mp hused
    obtain rfl := List.map_eq_nil_iff.mp hvs
    obtain ⟨found, hfound, hsame⟩ := reads_path rest (h first (by simp)) hdot us hus
    exact ⟨[found], by rw [List.append_nil, paths_last hfound hcomma], by simp [hsame]⟩
  | cons second more ih =>
    intro used hused
    obtain ⟨us, vs, rfl, hus, hvs⟩ := List.map_eq_append_iff.mp hused
    obtain ⟨comma, after, rfl, hafter⟩ := exists_of_map_eq_cons hvs
    obtain ⟨found, hfound, hsame⟩ :=
      reads_path (⟨.mark .comma, comma⟩ :: (after ++ rest)) (h first (by simp)) rfl us hus
    obtain ⟨others, hothers, hrest⟩ := ih (fun p hp => h p (List.mem_cons_of_mem _ hp)) after hafter
    refine ⟨found :: others, ?_, by simp only [List.map_cons, hsame, hrest]⟩
    rw [List.append_assoc, List.cons_append, paths_comma hfound, hothers]
    rfl

theorem reads_implemented (rest : Tokens) {traits : List TypePath} (h : ∀ p ∈ traits, p.segments ≠ [])
    (hbrace : startsWith .leftBrace rest = true) :
    Reads implemented (TypeGroup.traitsSpelled traits) rest
      (·.map TypePath.unplaced = traits.map TypePath.unplaced) := by
  intro used hused
  cases traits with
  | nil =>
    obtain rfl := List.map_eq_nil_iff.mp hused
    refine ⟨[], ?_, rfl⟩
    cases rest with
    | nil => cases hbrace
    | cons t after =>
      obtain ⟨token, span⟩ := t
      simp only [startsWith, decide_eq_true_eq] at hbrace
      subst hbrace
      rfl
  | cons first more =>
    obtain ⟨word, after, rfl, hafter⟩ := exists_of_map_eq_cons hused
    have hdot : startsWith .dot rest = false := startsWith_eq_false hbrace (by decide)
    exact reads_paths rest h hdot (startsWith_eq_false hbrace (by decide)) after hafter

theorem reads_typeGroup (start : Nat) (rest : Tokens) {g : TypeGroup}
    (h : ∀ p ∈ (Item.typeGroup g).typePaths, p.segments ≠ []) :
    Reads (fun tokens => typeGroup start tokens.tail) g.spelled rest (·.unplaced = g.unplaced) := by
  intro used hused
  obtain ⟨word, after, rfl, hafter⟩ := exists_of_map_eq_cons hused
  obtain ⟨us, vs, rfl, hus, hvs⟩ := List.map_eq_append_iff.mp hafter
  obtain ⟨ts, ws, rfl, hts, hws⟩ := List.map_eq_append_iff.mp hvs
  obtain ⟨opening, inner, rfl, hinner⟩ := exists_of_map_eq_cons hws
  obtain ⟨i, hi, hname⟩ :=
    reads_name .typeName (ts ++ (⟨.mark .leftBrace, opening⟩ :: inner ++ rest)) g.name us hus
  obtain ⟨traits, htraits, hsame⟩ := reads_implemented (⟨.mark .leftBrace, opening⟩ :: inner ++ rest)
    (fun p hp => h p (List.mem_append_left _ hp)) rfl ts hts
  obtain ⟨body, stop, hbody, hmembers⟩ :=
    reads_members rest (fun p hp => h p (List.mem_append_right _ hp)) inner hinner
  refine ⟨⟨i, traits, body, ⟨start, stop⟩⟩, ?_, by simp [TypeGroup.unplaced, hname, hsame, hmembers]⟩
  simp only [List.cons_append, List.append_assoc, List.tail_cons]
  refine Except.bind_eq_ok_iff.mpr ⟨_, hi, Except.bind_eq_ok_iff.mpr ⟨_, htraits, ?_⟩⟩
  exact Except.bind_eq_ok_iff.mpr ⟨_, rfl, Except.bind_eq_ok_iff.mpr ⟨_, hbody, rfl⟩⟩

theorem startsGroup_of_spelled {used : Tokens} (rest : Tokens) {g : TypeGroup}
    (h : used.map Located.token = g.spelled) : startsGroup (used ++ rest).tail = true := by
  obtain ⟨word, after, rfl, hafter⟩ := exists_of_map_eq_cons h
  obtain ⟨name, after', rfl, hafter'⟩ := exists_of_map_eq_cons hafter
  obtain ⟨i, traits, body, span⟩ := g
  cases traits with
  | nil =>
    obtain ⟨opening, inner, rfl, hinner⟩ := exists_of_map_eq_cons hafter'
    rfl
  | cons first more =>
    obtain ⟨implementing, inner, rfl, hinner⟩ := exists_of_map_eq_cons hafter'
    rfl

theorem reads_aliasDecl (start : Nat) (rest : Tokens) {a : Alias}
    (h : ∀ p ∈ (Item.aliasDecl a).typePaths, p.segments ≠ []) :
    Reads (fun tokens => aliasDecl start tokens.tail) a.spelled rest (·.unplaced = a.unplaced) := by
  intro used hused
  obtain ⟨word, after, rfl, hafter⟩ := exists_of_map_eq_cons hused
  obtain ⟨us, vs, rfl, hus, hvs⟩ := List.map_eq_append_iff.mp hafter
  obtain ⟨equals, after', rfl, hafter'⟩ := exists_of_map_eq_cons hvs
  obtain ⟨ts, ws, rfl, hts, hws⟩ := List.map_eq_append_iff.mp hafter'
  obtain ⟨semicolon, left, rfl, hleft⟩ := exists_of_map_eq_cons hws
  obtain rfl := List.map_eq_nil_iff.mp hleft
  obtain ⟨target, htarget, hsame⟩ := reads_typeName (⟨.mark .semicolon, semicolon⟩ :: rest) h (.inl rfl) ts hts
  obtain ⟨i, hi, hname⟩ :=
    reads_name .aliasName (⟨.mark .equals, equals⟩ :: (ts ++ ⟨.mark .semicolon, semicolon⟩ :: rest)) a.name us hus
  refine ⟨⟨i, target, ⟨start, semicolon.stop⟩⟩, ?_, by simp [Alias.unplaced, hname, hsame]⟩
  simp only [List.cons_append, List.append_assoc, List.tail_cons, List.nil_append]
  refine Except.bind_eq_ok_iff.mpr ⟨_, hi, Except.bind_eq_ok_iff.mpr ⟨_, rfl, ?_⟩⟩
  exact Except.bind_eq_ok_iff.mpr ⟨_, htarget, rfl⟩

theorem reads_traitDecl (start : Nat) (rest : Tokens) {t : TraitDeclaration}
    (h : ∀ p ∈ (Item.traitDecl t).typePaths, p.segments ≠ []) :
    Reads (fun tokens => traitDecl start tokens.tail) t.spelled rest (·.unplaced = t.unplaced) := by
  intro used hused
  obtain ⟨word, after, rfl, hafter⟩ := exists_of_map_eq_cons hused
  obtain ⟨us, vs, rfl, hus, hvs⟩ := List.map_eq_append_iff.mp hafter
  obtain ⟨opening, inner, rfl, hinner⟩ := exists_of_map_eq_cons hvs
  obtain ⟨body, stop, hbody, hsame⟩ := reads_braceEntries rest h inner hinner
  obtain ⟨i, hi, hname⟩ :=
    reads_name .traitName (⟨.mark .leftBrace, opening⟩ :: (inner ++ rest)) t.name us hus
  refine ⟨⟨i, body, ⟨start, stop⟩⟩, ?_, by simp [TraitDeclaration.unplaced, hname, hsame]⟩
  simp only [List.cons_append, List.append_assoc, List.tail_cons]
  exact Except.bind_eq_ok_iff.mpr ⟨_, hi, Except.bind_eq_ok_iff.mpr ⟨_, hbody, rfl⟩⟩

theorem reads_declaration (rest : Tokens) {d : Declaration}
    (h : ∀ p ∈ (Item.declaration d).typePaths, p.segments ≠ []) :
    Reads declaration d.spelled rest (·.unplaced = d.unplaced) := by
  intro used hused
  obtain ⟨us, vs, rfl, hus, hvs⟩ := List.map_eq_append_iff.mp hused
  obtain ⟨colon, after, rfl, hafter⟩ := exists_of_map_eq_cons hvs
  obtain ⟨ts, ws, rfl, hts, hws⟩ := List.map_eq_append_iff.mp hafter
  have hdot := startsWith_dot_of_bodySpelled rest hws
  obtain ⟨name, hname, hsameName⟩ := reads_path (ws ++ rest) (h d.name (by simp [Item.typePaths])) hdot ts hts
  obtain ⟨ctor, hctor, hsameCtor⟩ := reads_path (⟨.mark .colon, colon⟩ :: (ts ++ (ws ++ rest)))
    (h d.ctor (by simp [Item.typePaths])) rfl us hus
  obtain ⟨body, stop, hbody, hsame⟩ := reads_containerBody name.span.stop rest
    (fun p hp => h p (List.mem_cons_of_mem _ (List.mem_cons_of_mem _ hp))) ws hws
  simp only [List.cons_append, List.append_assoc]
  have hnames : declarationNames (us ++ ⟨.mark .colon, colon⟩ :: (ts ++ (ws ++ rest))) =
      .ok (ctor, name, name.span.stop, ws ++ rest) :=
    Except.bind_eq_ok_iff.mpr ⟨_, hctor, Except.bind_eq_ok_iff.mpr ⟨_, hname, rfl⟩⟩
  refine ⟨_, Except.bind_eq_ok_iff.mpr ⟨_, hnames, Except.bind_eq_ok_iff.mpr ⟨_, hbody, rfl⟩⟩, ?_⟩
  simp [Declaration.unplaced, hsameCtor, hsameName, hsame]

/-- An item that is no comment and no namespace is told by its first token, and read from its spelling. -/
def ReadsItem (spelling : List Token) (item : Item) : Prop :=
  ∀ used rest : Tokens, used.map Located.token = spelling →
    ∃ t after found, used = t :: after ∧ t.token.name?.isSome ∧ t.token ≠ .keyword .namespaceWord ∧
      keywordItem (used ++ rest) = .ok (found, rest) ∧ Item.unplaced [found] = Item.unplaced [item]

/-- An item behind a word is read by that word's reader. -/
theorem ReadsItem.of_word {α : Type} {read : Nat → Tokens → Except Rejection (α × Tokens)} (wrap : α → Item)
    {Same : α → Prop} {word : Keyword} {ts : List Token} {item : Item} (hword : word ≠ .namespaceWord)
    (hread : ∀ start rest, Reads (fun tokens => read start tokens.tail) (.keyword word :: ts) rest Same)
    (hsame : ∀ found, Same found → Item.unplaced [wrap found] = Item.unplaced [item])
    (hitem : ∀ span rest (after : Tokens), after.map Located.token = ts →
      keywordItem (⟨.keyword word, span⟩ :: (after ++ rest)) =
        (read span.start (after ++ rest)).map fun (found, rest) => (wrap found, rest)) :
    ReadsItem (.keyword word :: ts) item := by
  intro used rest hused
  obtain ⟨span, after, rfl, hafter⟩ := exists_of_map_eq_cons hused
  obtain ⟨found, hfound, hfirst⟩ := hread span.start rest _ hused
  simp only [List.cons_append, List.tail_cons] at hfound
  refine ⟨_, after, wrap found, rfl, rfl, by simpa using hword, ?_, hsame found hfirst⟩
  rw [List.cons_append, hitem span rest after hafter, hfound]
  rfl

theorem readsItem_typeGroup {g : TypeGroup} (h : ∀ p ∈ (Item.typeGroup g).typePaths, p.segments ≠ []) :
    ReadsItem g.spelled (.typeGroup g) := by
  refine ReadsItem.of_word .typeGroup (by decide) (fun start rest => reads_typeGroup start rest h)
    (fun found hfound => by simp [Item.unplaced, hfound]) fun span rest after hafter => ?_
  have hused : (⟨.keyword .typeWord, span⟩ :: after : Tokens).map Located.token = g.spelled := by
    rw [List.map_cons, hafter]
    rfl
  have hgroup := startsGroup_of_spelled rest hused
  simp only [List.cons_append, List.tail_cons] at hgroup
  simp [keywordItem, hgroup]

theorem readsItem_aliasDecl {a : Alias} (h : ∀ p ∈ (Item.aliasDecl a).typePaths, p.segments ≠ []) :
    ReadsItem a.spelled (.aliasDecl a) :=
  ReadsItem.of_word .aliasDecl (by decide) (fun start rest => reads_aliasDecl start rest h)
    (fun found hfound => by simp [Item.unplaced, hfound]) fun _ _ _ _ => by simp [keywordItem]

theorem readsItem_traitDecl {t : TraitDeclaration} (h : ∀ p ∈ (Item.traitDecl t).typePaths, p.segments ≠ []) :
    ReadsItem t.spelled (.traitDecl t) :=
  ReadsItem.of_word .traitDecl (by decide) (fun start rest => reads_traitDecl start rest h)
    (fun found hfound => by simp [Item.unplaced, hfound]) fun _ _ _ _ => by simp [keywordItem]

theorem readsItem_declaration {d : Declaration} (h : ∀ p ∈ (Item.declaration d).typePaths, p.segments ≠ []) :
    ReadsItem d.spelled (.declaration d) := by
  intro used rest hused
  obtain ⟨found, hfound, hsame⟩ := reads_declaration rest h used hused
  obtain ⟨names, others, rfl, hnames, -⟩ := List.map_eq_append_iff.mp hused
  obtain ⟨text, span, after, rfl⟩ := exists_of_path_spelled (h d.ctor (by simp [Item.typePaths])) hnames
  refine ⟨_, after ++ others, .declaration found, rfl, rfl, by simp, ?_, by simp [Item.unplaced, hsame]⟩
  simp only [List.cons_append, List.append_assoc] at hfound ⊢
  simp [keywordItem, Token.name?, hfound, Except.map]

theorem Item.unplaced_cons (item : Item) (more : List Item) :
    Item.unplaced (item :: more) = Item.unplaced [item] ++ Item.unplaced more := by
  cases item <;> simp [Item.unplaced]

variable {rest : Tokens} {body : List Item}

theorem ReadsItem.cons {inside : Bool} {ts us : List Token} {item : Item} {more : List Item} (hitem : ReadsItem ts item)
    (hmore : Reads (readItems inside) us rest (Item.unplaced · = Item.unplaced more)) :
    Reads (readItems inside) (ts ++ us) rest (Item.unplaced · = Item.unplaced (item :: more)) := by
  intro used hused
  obtain ⟨vs, ws, rfl, hvs, hws⟩ := List.map_eq_append_iff.mp hused
  obtain ⟨others, hothers, hsame⟩ := hmore ws hws
  obtain ⟨t, after, found, rfl, hname, hword, hfound, hfirst⟩ := hitem vs (ws ++ rest) hvs
  have hunplaced : Item.unplaced (found :: others) = Item.unplaced (item :: more) := by
    rw [Item.unplaced_cons, hfirst, hsame, ← Item.unplaced_cons]
  refine ⟨found :: others, ?_, hunplaced⟩
  simp only [List.cons_append, List.append_assoc] at hfound ⊢
  rw [readItems_keywordItem hname hword hfound, hothers]
  rfl

/-- Whether items end before the tokens: inside of a namespace before a brace, else where no tokens are left. -/
def EndsItems (inside : Bool) (rest : Tokens) : Prop :=
  if inside then startsWith .rightBrace rest = true else rest = []

theorem readItems_of_endsItems {inside : Bool} (h : EndsItems inside rest) :
    readItems inside rest = .ok ([], rest) := by
  cases inside with
  | false =>
    obtain rfl : rest = [] := h
    exact readItems_nil
  | true =>
    cases rest with
    | nil => cases h
    | cons t after =>
      obtain ⟨token, span⟩ := t
      obtain rfl : token = .mark .rightBrace := by simpa [EndsItems, startsWith] using h
      exact readItems_rightBrace

theorem reads_items (inside : Bool) (rest : Tokens)
    (h : ∀ p ∈ (Item.flatten body).flatMap Item.typePaths, p.segments ≠ []) (hrest : EndsItems inside rest) :
    Reads (readItems inside) (Item.spelled body) rest (Item.unplaced · = Item.unplaced body) := by
  fun_induction Item.spelled body generalizing inside rest with
  | case1 =>
    intro used hused
    obtain rfl := List.map_eq_nil_iff.mp hused
    exact ⟨[], readItems_of_endsItems hrest, rfl⟩
  | case2 c more ih =>
    intro used hused
    obtain ⟨span, after, rfl, hafter⟩ := exists_of_map_eq_cons hused
    simp only [Item.flatten, List.flatMap_cons, List.mem_append] at h
    obtain ⟨found, hfound, hsame⟩ := ih inside rest (fun p hp => h p (.inr hp)) hrest after hafter
    refine ⟨.comment ⟨c.text, span⟩ :: found, ?_, by simp [Item.unplaced, Comment.unplaced, hsame]⟩
    rw [List.cons_append, readItems_comment, hfound]
    rfl
  | case3 name body span more ihbody ih =>
    simp only [Item.flatten, List.flatMap_cons, List.flatMap_append, List.mem_append] at h
    intro used hused
    obtain ⟨word, after, rfl, hafter⟩ := exists_of_map_eq_cons hused
    obtain ⟨us, vs, rfl, hus, hvs⟩ := List.map_eq_append_iff.mp hafter
    obtain ⟨opening, inner, rfl, hinner⟩ := exists_of_map_eq_cons hvs
    obtain ⟨ts, ws, rfl, hts, hws⟩ := List.map_eq_append_iff.mp hinner
    obtain ⟨closing, left, rfl, hleft⟩ := exists_of_map_eq_cons hws
    obtain ⟨i, hi, hname⟩ := reads_name .namespaceName
      (⟨.mark .leftBrace, opening⟩ :: (ts ++ ⟨.mark .rightBrace, closing⟩ :: (left ++ rest))) name us hus
    obtain ⟨found, hfound, hbody⟩ := ihbody true (⟨.mark .rightBrace, closing⟩ :: (left ++ rest))
      (fun p hp => h p (by simp [hp])) rfl ts hts
    obtain ⟨others, hothers, hsame⟩ := ih inside rest (fun p hp => h p (by simp [hp])) hrest left hleft
    have hhead : namespaceHead (us ++ ⟨.mark .leftBrace, opening⟩ ::
        (ts ++ ⟨.mark .rightBrace, closing⟩ :: (left ++ rest))) =
          .ok (i, ts ++ ⟨.mark .rightBrace, closing⟩ :: (left ++ rest)) :=
      Except.bind_eq_ok_iff.mpr ⟨_, hi, rfl⟩
    refine ⟨.namespaceBlock i found ⟨word.start, closing.stop⟩ :: others, ?_, ?_⟩
    · simp only [List.cons_append, List.append_assoc]
      rw [readItems_namespace hhead hfound rfl, hothers]
      rfl
    · simp [Item.unplaced, hname, hbody, hsame]
  | case4 g more ih =>
    simp only [Item.flatten, List.flatMap_cons, List.mem_append] at h
    have hgroup := readsItem_typeGroup fun p hp => h p (.inl hp)
    exact hgroup.cons (ih inside rest (fun p hp => h p (.inr hp)) hrest)
  | case5 a more ih =>
    simp only [Item.flatten, List.flatMap_cons, List.mem_append] at h
    have halias := readsItem_aliasDecl fun p hp => h p (.inl hp)
    exact halias.cons (ih inside rest (fun p hp => h p (.inr hp)) hrest)
  | case6 t more ih =>
    simp only [Item.flatten, List.flatMap_cons, List.mem_append] at h
    have htrait := readsItem_traitDecl fun p hp => h p (.inl hp)
    exact htrait.cons (ih inside rest (fun p hp => h p (.inr hp)) hrest)
  | case7 d more ih =>
    simp only [Item.flatten, List.flatMap_cons, List.mem_append] at h
    have hdeclaration := readsItem_declaration fun p hp => h p (.inl hp)
    exact hdeclaration.cons (ih inside rest (fun p hp => h p (.inr hp)) hrest)

end Parser

/-! ## The end of a source is no part of a spelling -/

theorem TypePath.eof_not_mem_spelled (p : TypePath) : .eof ∉ p.spelled := by
  unfold spelled
  split <;> simp [Identifier.spelled]

theorem TypeName.eof_not_mem_spelled (t : TypeName) : .eof ∉ t.spelled := by
  cases t <;> simp [spelled, Identifier.spelled, TypePath.eof_not_mem_spelled]

theorem Property.eof_not_mem_spelled (p : Property) : .eof ∉ p.spelled := by
  obtain ⟨key, optional, type, span⟩ := p
  cases optional <;> cases type <;>
    simp [spelled, PropertyType.spelled, Identifier.spelled, TypeName.eof_not_mem_spelled]

theorem BodyEntry.eof_not_mem_bodySpelled (body : List BodyEntry) : .eof ∉ bodySpelled body := by
  have hentry (entry : BodyEntry) : .eof ∉ entry.spelled := by
    cases entry <;> simp [spelled, Comment.spelled, Property.eof_not_mem_spelled]
  simp [bodySpelled, hentry]

theorem TypeGroup.eof_not_mem_spelled (g : TypeGroup) : .eof ∉ g.spelled := by
  have hmember (member : GroupMember) : .eof ∉ member.spelled := by
    cases member <;> simp [GroupMember.spelled, Comment.spelled, GroupContainer.spelled,
      TypePath.eof_not_mem_spelled, BodyEntry.eof_not_mem_bodySpelled]
  have htraits (traits : List TypePath) : .eof ∉ traitsSpelled traits := by
    cases traits <;> simp [traitsSpelled, TypePath.eof_not_mem_spelled]
  simp [spelled, Identifier.spelled, hmember, htraits]

theorem Item.eof_not_mem_spelled (body : List Item) : .eof ∉ spelled body := by
  fun_induction spelled body with
  | case1 => simp
  | case2 c more ih => simp [Comment.spelled, ih]
  | case3 name body span more ihbody ih => simp [Identifier.spelled, ihbody, ih]
  | case4 g more ih => simp [TypeGroup.eof_not_mem_spelled, ih]
  | case5 a more ih => simp [Alias.spelled, Identifier.spelled, TypeName.eof_not_mem_spelled, ih]
  | case6 t more ih =>
    simp [TraitDeclaration.spelled, Identifier.spelled, BodyEntry.eof_not_mem_bodySpelled, ih]
  | case7 d more ih =>
    simp [Declaration.spelled, TypePath.eof_not_mem_spelled, BodyEntry.eof_not_mem_bodySpelled, ih]

/-! ## Parsing undoes spelling -/

/-- Parsing the spelling of a tree gives back the tree, wherever the tokens stand, if no dotted name in it is empty. -/
theorem ofTokens_spelled {s : Schema} (h : ∀ p ∈ s.typePaths, p.segments ≠ []) {tokens : List Located}
    (htokens : tokens.map Located.token = s.spelled) :
    ∃ s', Schema.ofTokens tokens = .ok s' ∧ s'.unplaced = s.unplaced := by
  obtain ⟨used, ending, rfl, hused, hending⟩ := List.map_eq_append_iff.mp htokens
  obtain ⟨span, none, rfl, hnone⟩ := Parser.exists_of_map_eq_cons hending
  obtain rfl := List.map_eq_nil_iff.mp hnone
  have hall : ∀ t ∈ used, t.token ≠ .eof := by
    intro t ht heq
    have hmem : t.token ∈ used.map Located.token := List.mem_map_of_mem ht
    rw [heq, hused] at hmem
    exact Item.eof_not_mem_spelled s.body hmem
  have hbefore : Located.beforeEof (used ++ [⟨.eof, span⟩]) = used := by
    unfold Located.beforeEof
    rw [List.takeWhile_append_of_pos (by simpa using hall)]
    simp
  obtain ⟨found, hfound, hsame⟩ := Parser.reads_items false [] h rfl used hused
  rw [List.append_nil, ← hbefore] at hfound
  exact ⟨_, Parser.ofTokens_of_readItems hfound, by simp [Schema.unplaced, hsame]⟩

/-- A keyword as a name, a comment that looks like a mark, an empty name, and a type that is called `Vector`. -/
theorem ofTokens_spelled_vector :
    let s : Schema := ⟨[.namespaceBlock ⟨"type", .nowhere⟩ [.comment ⟨"\x7d", .nowhere⟩,
      .declaration ⟨⟨[⟨"a b", .nowhere⟩], .nowhere⟩, ⟨[⟨"", .nowhere⟩], .nowhere⟩,
        [.property ⟨⟨"k", .nowhere⟩, true, .single (.path ⟨[⟨"Vector", .nowhere⟩], .nowhere⟩), .nowhere⟩],
        .nowhere⟩] .nowhere], .nowhere⟩
    let tokens : List Located := [⟨.keyword .namespaceWord, ⟨0, 9⟩⟩, ⟨.ident "type", ⟨10, 14⟩⟩,
      ⟨.mark .leftBrace, ⟨15, 16⟩⟩, ⟨.comment "\x7d", ⟨17, 20⟩⟩, ⟨.ident "a b", ⟨21, 24⟩⟩, ⟨.mark .colon, ⟨25, 26⟩⟩,
      ⟨.ident "", ⟨27, 27⟩⟩, ⟨.mark .leftBrace, ⟨28, 29⟩⟩, ⟨.ident "k", ⟨30, 31⟩⟩, ⟨.mark .question, ⟨31, 32⟩⟩,
      ⟨.mark .colon, ⟨32, 33⟩⟩, ⟨.ident "Vector", ⟨34, 40⟩⟩, ⟨.mark .semicolon, ⟨40, 41⟩⟩,
      ⟨.mark .rightBrace, ⟨42, 43⟩⟩, ⟨.mark .rightBrace, ⟨44, 45⟩⟩, ⟨.eof, ⟨45, 45⟩⟩]
    tokens.map Located.token = s.spelled ∧ ∃ s', Schema.ofTokens tokens = .ok s' ∧ s'.unplaced = s.unplaced := by
  intro s tokens
  have hpaths : ∀ p ∈ s.typePaths, p.segments ≠ [] := by
    simp [s, Schema.typePaths, Item.flatten, Item.typePaths, BodyEntry.typePaths, BodyEntry.typeNames,
      PropertyType.item, TypeName.typePaths]
  have hspelled : tokens.map Located.token = s.spelled := by
    simp [s, tokens, Schema.spelled, Item.spelled, Comment.spelled, Declaration.spelled, BodyEntry.bodySpelled,
      BodyEntry.spelled, Property.spelled, PropertyType.spelled, TypeName.spelled, TypePath.spelled, Identifier.spelled]
  exact ⟨hspelled, ofTokens_spelled hpaths hspelled⟩

end SchemaWire
