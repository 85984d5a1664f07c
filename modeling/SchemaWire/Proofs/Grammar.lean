import SchemaWire.Proofs.Agreement
import SchemaWire.Proofs.Outcome

/-!
# The grammar of schemas

The relations of `Grammar` say which tokens spell which part of a tree, whatever the spans in it are. They are the
grammar of the language, with the tokens that may be left out and the places where comments may stand. Parsing only
accepts what the grammar derives: the tree of a parse is spelled by all tokens before the end of the source, each of
them used once (`isItems_of_ofTokens`).
-/

namespace SchemaWire

namespace Grammar

/-! ## Names and types -/

/-- A name is an identifier, or a keyword that is used as one. -/
inductive IsName : List Token → Identifier → Prop
  | ident {text : String} {span : Span} : IsName [.ident text] ⟨text, span⟩
  | keyword {word : Keyword} {span : Span} : IsName [.keyword word] ⟨word.text, span⟩

/-- Names with dots between them. -/
inductive IsSegments : List Token → List Identifier → Prop
  | last {ts : List Token} {i : Identifier} (h : IsName ts i) : IsSegments ts [i]
  | cons {ts us : List Token} {i : Identifier} {more : List Identifier} (h : IsName ts i) (hmore : IsSegments us more) :
    IsSegments (ts ++ .mark .dot :: us) (i :: more)

/-- A dotted name. -/
inductive IsPath : List Token → TypePath → Prop
  | mk {ts : List Token} {segments : List Identifier} {span : Span} (h : IsSegments ts segments) :
    IsPath ts ⟨segments, span⟩

/-- A dotted name, or a single name with an integer in brackets. -/
inductive IsTypeName : List Token → TypeName → Prop
  | path {ts : List Token} {p : TypePath} (h : IsPath ts p) : IsTypeName ts (.path p)
  | sized {ts : List Token} {i : Identifier} {size : UInt64} {place span : Span} (h : IsName ts i) :
    IsTypeName (ts ++ [.mark .leftBracket, .integer size, .mark .rightBracket]) (.sized ⟨i, ⟨size, place⟩, span⟩)

/-- A type name, or `Vector<type name>`. -/
inductive IsPropertyType : List Token → PropertyType → Prop
  | single {ts : List Token} {t : TypeName} (h : IsTypeName ts t) : IsPropertyType ts (.single t)
  | vector {ts : List Token} {t : TypeName} {span : Span} (h : IsTypeName ts t) :
    IsPropertyType (.ident "Vector" :: .mark .less :: ts ++ [.mark .greater]) (.vector ⟨t, span⟩)

/-! ## Bodies -/

/-- `key: type`, or `key?: type`. -/
inductive IsProperty : List Token → Property → Prop
  | required {ts us : List Token} {key : Identifier} {type : PropertyType} {span : Span} (hkey : IsName ts key)
    (htype : IsPropertyType us type) : IsProperty (ts ++ .mark .colon :: us) ⟨key, false, type, span⟩
  | optional {ts us : List Token} {key : Identifier} {type : PropertyType} {span : Span} (hkey : IsName ts key)
    (htype : IsPropertyType us type) :
    IsProperty (ts ++ .mark .question :: .mark .colon :: us) ⟨key, true, type, span⟩

/-- A comment is one token, or a `--- … ---` block, the text of which is that of its tokens with spaces between. -/
inductive IsComment : List Token → Comment → Prop
  | single {text : String} {span : Span} : IsComment [.comment text] ⟨text, span⟩
  | block {words : List Token} {span : Span} (h : .mark .tripleDash ∉ words) :
    IsComment (.mark .tripleDash :: words ++ [.mark .tripleDash]) ⟨" ".intercalate (words.map Token.spelling), span⟩

/-- Any comments. -/
inductive IsComments : List Token → List BodyEntry → Prop
  | nil : IsComments [] []
  | cons {ts us : List Token} {c : Comment} {more : List BodyEntry} (h : IsComment ts c) (hmore : IsComments us more) :
    IsComments (ts ++ us) (.comment c :: more)

/-- The entries between braces: comments anywhere, and properties with a semicolon after each of them, which the last
one may lack. -/
inductive IsEntries : List Token → List BodyEntry → Prop
  | nil : IsEntries [] []
  | comment {ts us : List Token} {c : Comment} {more : List BodyEntry} (h : IsComment ts c)
    (hmore : IsEntries us more) : IsEntries (ts ++ us) (.comment c :: more)
  | last {ts us : List Token} {p : Property} {comments : List BodyEntry} (h : IsProperty ts p)
    (hcomments : IsComments us comments) : IsEntries (ts ++ us) (.property p :: comments)
  | property {ts us vs : List Token} {p : Property} {comments more : List BodyEntry} (h : IsProperty ts p)
    (hcomments : IsComments us comments) (hmore : IsEntries vs more) :
    IsEntries (ts ++ us ++ .mark .semicolon :: vs) (.property p :: comments ++ more)

/-- The entries after an arrow: properties with commas between them, each with any comments before it. -/
inductive IsArrowEntries : List Token → List BodyEntry → Prop
  | last {ts us : List Token} {p : Property} {comments : List BodyEntry} (hcomments : IsComments ts comments)
    (h : IsProperty us p) : IsArrowEntries (ts ++ us) (comments ++ [.property p])
  | cons {ts us vs : List Token} {p : Property} {comments more : List BodyEntry} (hcomments : IsComments ts comments)
    (h : IsProperty us p) (hmore : IsArrowEntries vs more) :
    IsArrowEntries (ts ++ us ++ .mark .comma :: vs) (comments ++ .property p :: more)

/-- The body of a container: in braces, after an arrow, or nothing at all. The last two may end with a semicolon. -/
inductive IsBody : List Token → List BodyEntry → Prop
  | braces {ts : List Token} {entries : List BodyEntry} (h : IsEntries ts entries) :
    IsBody (.mark .leftBrace :: ts ++ [.mark .rightBrace]) entries
  | arrow {ts : List Token} {entries : List BodyEntry} (h : IsArrowEntries ts entries) :
    IsBody (.mark .arrow :: ts) entries
  | arrowEnded {ts : List Token} {entries : List BodyEntry} (h : IsArrowEntries ts entries) :
    IsBody (.mark .arrow :: ts ++ [.mark .semicolon]) entries
  | arrowEmpty : IsBody [.mark .arrow, .mark .semicolon] []
  | none : IsBody [] []
  | ended : IsBody [.mark .semicolon] []

/-! ## Items -/

/-- `constructor : Type body`, or `Type constructor body`. -/
inductive IsDeclaration : List Token → Declaration → Prop
  | constructorFirst {ts us vs : List Token} {ctor name : TypePath} {body : List BodyEntry} {span : Span}
    (hctor : IsPath ts ctor) (hname : IsPath us name) (hbody : IsBody vs body) :
    IsDeclaration (ts ++ .mark .colon :: us ++ vs) ⟨ctor, name, body, span⟩
  | typeFirst {ts us vs : List Token} {ctor name : TypePath} {body : List BodyEntry} {span : Span}
    (hname : IsPath ts name) (hctor : IsPath us ctor) (hbody : IsBody vs body) :
    IsDeclaration (ts ++ us ++ vs) ⟨ctor, name, body, span⟩

/-- The members of a type group: comments, and constructors with their bodies. -/
inductive IsMembers : List Token → List GroupMember → Prop
  | nil : IsMembers [] []
  | comment {ts us : List Token} {c : Comment} {more : List GroupMember} (h : IsComment ts c)
    (hmore : IsMembers us more) : IsMembers (ts ++ us) (.comment c :: more)
  | container {ts us vs : List Token} {name : TypePath} {body : List BodyEntry} {span : Span} {more : List GroupMember}
    (hname : IsPath ts name) (hbody : IsBody us body) (hmore : IsMembers vs more) :
    IsMembers (ts ++ us ++ vs) (.container ⟨name, body, span⟩ :: more)

/-- Dotted names with commas between them. -/
inductive IsPaths : List Token → List TypePath → Prop
  | last {ts : List Token} {p : TypePath} (h : IsPath ts p) : IsPaths ts [p]
  | cons {ts us : List Token} {p : TypePath} {more : List TypePath} (h : IsPath ts p) (hmore : IsPaths us more) :
    IsPaths (ts ++ .mark .comma :: us) (p :: more)

/-- The traits of a type group: nothing, or `implements` and at least one of them. -/
inductive IsImplemented : List Token → List TypePath → Prop
  | none : IsImplemented [] []
  | some {ts : List Token} {traits : List TypePath} (h : IsPaths ts traits) :
    IsImplemented (.keyword .implementsWord :: ts) traits

/-- `type name implements traits { members }`. -/
inductive IsTypeGroup : List Token → TypeGroup → Prop
  | mk {ts us vs : List Token} {name : Identifier} {traits : List TypePath} {body : List GroupMember} {span : Span}
    (hname : IsName ts name) (htraits : IsImplemented us traits) (hbody : IsMembers vs body) :
    IsTypeGroup (.keyword .typeWord :: (ts ++ us ++ .mark .leftBrace :: vs ++ [.mark .rightBrace]))
      ⟨name, traits, body, span⟩

/-- `alias name = target`, which may end with a semicolon. -/
inductive IsAlias : List Token → Alias → Prop
  | plain {ts us : List Token} {name : Identifier} {target : TypeName} {span : Span} (hname : IsName ts name)
    (htarget : IsTypeName us target) :
    IsAlias (.keyword .aliasWord :: (ts ++ .mark .equals :: us)) ⟨name, target, span⟩
  | ended {ts us : List Token} {name : Identifier} {target : TypeName} {span : Span} (hname : IsName ts name)
    (htarget : IsTypeName us target) :
    IsAlias (.keyword .aliasWord :: (ts ++ .mark .equals :: us ++ [.mark .semicolon])) ⟨name, target, span⟩

/-- `trait name;`, or `trait name { body }`. -/
inductive IsTrait : List Token → TraitDeclaration → Prop
  | ended {ts : List Token} {name : Identifier} {span : Span} (hname : IsName ts name) :
    IsTrait (.keyword .traitWord :: (ts ++ [.mark .semicolon])) ⟨name, [], span⟩
  | braces {ts us : List Token} {name : Identifier} {body : List BodyEntry} {span : Span} (hname : IsName ts name)
    (hbody : IsEntries us body) :
    IsTrait (.keyword .traitWord :: (ts ++ .mark .leftBrace :: us ++ [.mark .rightBrace])) ⟨name, body, span⟩

/-- The items of a source or of a namespace, one after the other. -/
inductive IsItems : List Token → List Item → Prop
  | nil : IsItems [] []
  | comment {ts us : List Token} {c : Comment} {more : List Item} (h : IsComment ts c) (hmore : IsItems us more) :
    IsItems (ts ++ us) (.comment c :: more)
  | namespaceBlock {ts us vs : List Token} {name : Identifier} {body more : List Item} {span : Span}
    (hname : IsName ts name) (hbody : IsItems us body) (hmore : IsItems vs more) :
    IsItems (.keyword .namespaceWord :: ts ++ .mark .leftBrace :: us ++ .mark .rightBrace :: vs)
      (.namespaceBlock name body span :: more)
  | typeGroup {ts us : List Token} {g : TypeGroup} {more : List Item} (h : IsTypeGroup ts g) (hmore : IsItems us more) :
    IsItems (ts ++ us) (.typeGroup g :: more)
  | aliasDecl {ts us : List Token} {a : Alias} {more : List Item} (h : IsAlias ts a) (hmore : IsItems us more) :
    IsItems (ts ++ us) (.aliasDecl a :: more)
  | traitDecl {ts us : List Token} {t : TraitDeclaration} {more : List Item} (h : IsTrait ts t)
    (hmore : IsItems us more) : IsItems (ts ++ us) (.traitDecl t :: more)
  | declaration {ts us : List Token} {d : Declaration} {more : List Item} (h : IsDeclaration ts d)
    (hmore : IsItems us more) : IsItems (ts ++ us) (.declaration d :: more)

/-- Comments stand before the first property of an arrow's entries. -/
theorem IsArrowEntries.comment {ts us : List Token} {c : Comment} {more : List BodyEntry} (h : IsComment ts c)
    (hmore : IsArrowEntries us more) : IsArrowEntries (ts ++ us) (.comment c :: more) := by
  cases hmore with
  | last hcomments hproperty =>
    rw [← List.append_assoc]
    exact .last (.cons h hcomments) hproperty
  | cons hcomments hproperty hrest =>
    rw [← List.append_assoc, ← List.append_assoc]
    exact .cons (.cons h hcomments) hproperty hrest

end Grammar

/-! ## Parsing derives -/

namespace Parser

open Grammar

/-- The tokens that were taken off the front of others, if a relation holds of them. -/
def Takes (tokens rest : Tokens) (Derives : List Token → Prop) : Prop :=
  ∃ used, tokens.map Located.token = used ++ rest.map Located.token ∧ Derives used

/-- The tokens that were taken off before a closing brace, which was taken off as well, if a relation holds of them. -/
def Closes (tokens rest : Tokens) (Derives : List Token → Prop) : Prop :=
  ∃ inner, tokens.map Located.token = inner ++ .mark .rightBrace :: rest.map Located.token ∧ Derives inner

variable {tokens after rest : Tokens}

/-- What one reader takes and what the next one takes after it stand one after the other. -/
theorem Takes.append {First Second Both : List Token → Prop} (hfirst : Takes tokens after First)
    (hsecond : Takes after rest Second) (hboth : ∀ {ts us}, First ts → Second us → Both (ts ++ us)) :
    Takes tokens rest Both := by
  obtain ⟨ts, hts, hderives⟩ := hfirst
  obtain ⟨us, hus, hmore⟩ := hsecond
  exact ⟨ts ++ us, by rw [hts, hus, List.append_assoc], hboth hderives hmore⟩

theorem Takes.closes {First Second Both : List Token → Prop} (hfirst : Takes tokens after First)
    (hsecond : Closes after rest Second) (hboth : ∀ {ts us}, First ts → Second us → Both (ts ++ us)) :
    Closes tokens rest Both := by
  obtain ⟨ts, hts, hderives⟩ := hfirst
  obtain ⟨us, hus, hmore⟩ := hsecond
  exact ⟨ts ++ us, by rw [hts, hus, List.append_assoc], hboth hderives hmore⟩

theorem isName_of_name? {t : Token} {text : String} {span : Span} (h : t.name? = some text) :
    IsName [t] ⟨text, span⟩ := by
  cases t <;> simp [Token.name?] at h
  · subst h
    exact .keyword
  · subst h
    exact .ident

theorem takes_name {context : ParseError.Context} {i : Identifier} (h : name context tokens = .ok (i, rest)) :
    Takes tokens rest (IsName · i) := by
  cases tokens with
  | nil => cases h
  | cons t after =>
    simp only [name] at h
    split at h
    · rename_i text hname
      cases h
      exact ⟨[t.token], rfl, isName_of_name? hname⟩
    · cases h

theorem takes_expect {mark : Mark} {span : Span} (h : expect mark tokens = .ok (span, rest)) :
    tokens.map Located.token = .mark mark :: rest.map Located.token := by
  cases tokens with
  | nil => cases h
  | cons t after =>
    simp only [expect] at h
    split at h
    · rename_i hmark
      cases h
      simp [hmark]
    · cases h

/-- Reading `.name` as often as it comes continues a dotted name. -/
theorem takes_moreSegments {segments : List Identifier} (h : moreSegments tokens = .ok (segments, rest)) :
    Takes tokens rest fun used => ∀ {ts i}, IsName ts i → IsSegments (ts ++ used) (i :: segments) := by
  have stops (tokens : Tokens) : Takes tokens tokens fun used => ∀ {ts i}, IsName ts i → IsSegments (ts ++ used) [i] :=
    ⟨[], rfl, fun h => by simpa using .last h⟩
  fun_induction moreSegments tokens generalizing segments with
  | case1 =>
    cases h
    exact stops []
  | case2 t hdot => cases h
  | case3 t hdot =>
    cases h
    exact stops _
  | case4 t u after hdot text hname ih =>
    obtain ⟨⟨more, left⟩, hmore, heq⟩ := Except.map_eq_ok_iff.mp h
    cases heq
    obtain ⟨used, hused, hderives⟩ := ih hmore
    refine ⟨.mark .dot :: u.token :: used, by simp [hdot, hused], fun h => ?_⟩
    exact .cons h (hderives (isName_of_name? hname))
  | case5 t u after hdot hname => cases h
  | case6 t u after hdot =>
    cases h
    exact stops _

theorem takes_path {p : TypePath} (h : path tokens = .ok (p, rest)) : Takes tokens rest (IsPath · p) := by
  obtain ⟨⟨first, after⟩, hfirst, h⟩ := Except.bind_eq_ok_iff.mp h
  obtain ⟨⟨more, left⟩, hmore, h⟩ := Except.bind_eq_ok_iff.mp h
  cases h
  exact (takes_name hfirst).append (takes_moreSegments hmore) fun hname hsegments => .mk (hsegments hname)

theorem takes_literal {l : Literal} (h : literal tokens = .ok (l, rest)) :
    tokens.map Located.token = .integer l.value :: rest.map Located.token := by
  unfold literal at h
  split at h
  · cases h
    rfl
  · cases h

theorem tail_of_startsWith {mark : Mark} (h : startsWith mark tokens = true) :
    tokens.map Located.token = .mark mark :: tokens.tail.map Located.token := by
  cases tokens with
  | nil => cases h
  | cons t after => simpa [startsWith] using h

theorem takes_typeName {type : TypeName} (h : typeName tokens = .ok (type, rest)) :
    Takes tokens rest (IsTypeName · type) := by
  obtain ⟨⟨p, after⟩, hpath, h⟩ := Except.bind_eq_ok_iff.mp h
  obtain ⟨ts, hts, hp⟩ := takes_path hpath
  simp only at h
  split at h
  · rename_i hbracket
    split at h
    · rename_i base hsegments
      obtain ⟨⟨size, after'⟩, hsize, h⟩ := Except.bind_eq_ok_iff.mp h
      obtain ⟨⟨closing, left⟩, hclosing, h⟩ := Except.bind_eq_ok_iff.mp h
      cases h
      have hname : IsName ts base := by
        obtain ⟨hall⟩ := hp
        simp only at hsegments
        subst hsegments
        cases hall with
        | last h => exact h
        | cons _ hmore => cases hmore
      refine ⟨_, ?_, .sized hname⟩
      rw [hts, tail_of_startsWith hbracket, takes_literal hsize, takes_expect hclosing]
      simp
    · cases h
  · cases h
    exact ⟨ts, hts, .path hp⟩

theorem takes_propertyType {type : PropertyType} (h : propertyType tokens = .ok (type, rest)) :
    Takes tokens rest (IsPropertyType · type) := by
  unfold propertyType at h
  split at h
  · obtain ⟨⟨item, after⟩, hitem, h⟩ := Except.bind_eq_ok_iff.mp h
    obtain ⟨⟨closing, left⟩, hclosing, h⟩ := Except.bind_eq_ok_iff.mp h
    cases h
    obtain ⟨ts, hts, hderives⟩ := takes_typeName hitem
    refine ⟨_, ?_, .vector hderives⟩
    simp [hts, takes_expect hclosing]
  · obtain ⟨⟨t, after⟩, htype, h⟩ := Except.bind_eq_ok_iff.mp h
    cases h
    obtain ⟨ts, hts, hderives⟩ := takes_typeName htype
    exact ⟨ts, hts, .single hderives⟩

theorem takes_question {optional : Bool} (h : question tokens = (optional, rest)) :
    tokens.map Located.token = (if optional then [.mark .question] else []) ++ rest.map Located.token := by
  unfold question at h
  split at h
  · rename_i hmark
    cases h
    exact tail_of_startsWith hmark
  · cases h
    rfl

theorem takes_property {p : Property} (h : property tokens = .ok (p, rest)) : Takes tokens rest (IsProperty · p) := by
  obtain ⟨⟨key, after⟩, hkey, h⟩ := Except.bind_eq_ok_iff.mp h
  simp only at h
  generalize hquestion : question after = marked at h
  obtain ⟨optional, after'⟩ := marked
  obtain ⟨⟨colon, after''⟩, hcolon, h⟩ := Except.bind_eq_ok_iff.mp h
  obtain ⟨⟨type, left⟩, htype, h⟩ := Except.bind_eq_ok_iff.mp h
  cases h
  obtain ⟨ts, hts, hname⟩ := takes_name hkey
  obtain ⟨us, hus, hderives⟩ := takes_propertyType htype
  have htokens := takes_question hquestion
  rw [takes_expect hcolon, hus] at htokens
  cases optional with
  | false => exact ⟨_, by rw [hts, htokens]; simp, .required hname hderives⟩
  | true => exact ⟨_, by rw [hts, htokens]; simp, .optional hname hderives⟩

theorem takes_dashWords {words : List String} {stop : Nat} (h : dashWords tokens = .ok (words, stop, rest)) :
    Takes tokens rest fun used => ∃ spelled, used = spelled ++ [.mark .tripleDash] ∧ .mark .tripleDash ∉ spelled ∧
      words = spelled.map Token.spelling := by
  fun_induction dashWords tokens generalizing words with
  | case1 => cases h
  | case2 t after hdash =>
    cases h
    exact ⟨[.mark .tripleDash], by simp [hdash], [], rfl, by simp, rfl⟩
  | case3 t after hdash ih =>
    obtain ⟨⟨more, stop', left⟩, hmore, heq⟩ := Except.map_eq_ok_iff.mp h
    cases heq
    obtain ⟨used, hused, spelled, rfl, hnot, rfl⟩ := ih hmore
    exact ⟨t.token :: spelled ++ [.mark .tripleDash], by simp [hused], t.token :: spelled, rfl,
      by simp [hnot, Ne.symm hdash], rfl⟩

theorem takes_comment? {c : Comment} (h : comment? tokens = .ok (some (c, rest))) :
    Takes tokens rest (IsComment · c) := by
  unfold comment? at h
  split at h
  · cases h
    exact ⟨_, rfl, .single⟩
  · obtain ⟨⟨words, stop, left⟩, hwords, heq⟩ := Except.map_eq_ok_iff.mp h
    cases heq
    obtain ⟨used, hused, spelled, rfl, hnot, rfl⟩ := takes_dashWords hwords
    refine ⟨_, ?_, .block hnot⟩
    simp [hused]
  · cases h

/-- What may stand between a property and the closing brace: comments, and then more entries after a semicolon. -/
inductive FollowsProperty : List Token → List BodyEntry → Prop
  | last {ts : List Token} {comments : List BodyEntry} (h : IsComments ts comments) : FollowsProperty ts comments
  | more {ts us : List Token} {comments more : List BodyEntry} (h : IsComments ts comments)
    (hmore : IsEntries us more) : FollowsProperty (ts ++ .mark .semicolon :: us) (comments ++ more)

theorem FollowsProperty.comment {ts us : List Token} {c : Comment} {more : List BodyEntry} (h : IsComment ts c)
    (hmore : FollowsProperty us more) : FollowsProperty (ts ++ us) (.comment c :: more) := by
  cases hmore with
  | last hcomments => exact .last (.cons h hcomments)
  | more hcomments hentries =>
    rw [← List.append_assoc]
    exact .more (.cons h hcomments) hentries

theorem FollowsProperty.entries {ts us : List Token} {p : Property} {more : List BodyEntry} (h : IsProperty ts p)
    (hmore : FollowsProperty us more) : IsEntries (ts ++ us) (.property p :: more) := by
  cases hmore with
  | last hcomments => exact .last h hcomments
  | more hcomments hentries =>
    rw [← List.append_assoc]
    exact .property h hcomments hentries

/-- What may stand before a closing brace: entries, or what follows a property that stands right before. -/
def IsInside : (separated : Bool) → List Token → List BodyEntry → Prop
  | true => IsEntries
  | false => FollowsProperty

theorem closes_braceEntries {separated : Bool} {entries : List BodyEntry} {stop : Nat}
    (h : braceEntries separated tokens = .ok (entries, stop, rest)) :
    Closes tokens rest (IsInside separated · entries) := by
  fun_induction braceEntries separated tokens generalizing entries with
  | case1 separated span after =>
    cases h
    refine ⟨[], rfl, ?_⟩
    cases separated with
    | true => exact .nil
    | false => exact .last .nil
  | case2 => cases h
  | case3 separated tokens _ c after hc _ ih =>
    obtain ⟨⟨more, stop', left⟩, hmore, heq⟩ := Except.map_eq_ok_iff.mp h
    cases heq
    refine (takes_comment? hc).closes (ih hmore) fun hcomment hderives => ?_
    cases separated with
    | true => exact IsEntries.comment hcomment hderives
    | false => exact FollowsProperty.comment hcomment hderives
  | case4 => cases h
  | case5 => cases h
  | case6 tokens _ _ p after hp _ _ ih =>
    obtain ⟨⟨more, stop', left⟩, hmore, heq⟩ := Except.map_eq_ok_iff.mp h
    cases heq
    exact (takes_property hp).closes (ih hmore) fun hproperty hderives => hderives.entries hproperty
  | case7 => cases h
  | case8 separated tokens _ _ hseparated _ after hs _ ih =>
    obtain ⟨inner, hinner, hderives⟩ := ih h
    refine ⟨.mark .semicolon :: inner, by rw [takes_expect hs, hinner, List.cons_append], ?_⟩
    cases separated with
    | true => exact absurd rfl hseparated
    | false => exact FollowsProperty.more .nil hderives

/-- A semicolon, or nothing. -/
def IsEnd (ts : List Token) : Prop :=
  ts = [] ∨ ts = [.mark .semicolon]

theorem takes_arrowEntries {entries : List BodyEntry} {stop : Nat}
    (h : arrowEntries tokens = .ok (entries, stop, rest)) :
    Takes tokens rest fun used => ∃ inner last, used = inner ++ last ∧ IsArrowEntries inner entries ∧ IsEnd last := by
  fun_induction arrowEntries tokens generalizing entries with
  | case1 => cases h
  | case2 tokens c after hc _ ih =>
    obtain ⟨⟨more, stop', left⟩, hmore, heq⟩ := Except.map_eq_ok_iff.mp h
    cases heq
    obtain ⟨ts, hts, hcomment⟩ := takes_comment? hc
    obtain ⟨_, hused, inner, last, rfl, hderives, hend⟩ := ih hmore
    exact ⟨ts ++ inner ++ last, by rw [hts, hused]; simp, ts ++ inner, last, rfl, hderives.comment hcomment, hend⟩
  | case3 => cases h
  | case4 tokens _ p span after hp _ ih =>
    obtain ⟨⟨more, stop', left⟩, hmore, heq⟩ := Except.map_eq_ok_iff.mp h
    cases heq
    obtain ⟨ts, hts, hproperty⟩ := takes_property hp
    obtain ⟨_, hused, inner, last, rfl, hderives, hend⟩ := ih hmore
    exact ⟨ts ++ .mark .comma :: inner ++ last, by rw [hts, List.map_cons, hused]; simp,
      ts ++ .mark .comma :: inner, last, rfl, .cons .nil hproperty hderives, hend⟩
  | case5 tokens _ p span after hp =>
    cases h
    obtain ⟨ts, hts, hproperty⟩ := takes_property hp
    exact ⟨ts ++ [.mark .semicolon], by rw [hts]; simp, ts, _, rfl, .last .nil hproperty, .inr rfl⟩
  | case6 tokens _ p after _ _ hp =>
    cases h
    obtain ⟨ts, hts, hproperty⟩ := takes_property hp
    exact ⟨ts ++ [], by rw [hts]; simp, ts, [], rfl, .last .nil hproperty, .inl rfl⟩

theorem takes_containerBody {entries : List BodyEntry} {before stop : Nat}
    (h : containerBody before tokens = .ok (entries, stop, rest)) : Takes tokens rest (IsBody · entries) := by
  unfold containerBody at h
  split at h
  · obtain ⟨inner, hinner, hderives⟩ := closes_braceEntries h
    exact ⟨_, by rw [List.map_cons, hinner]; simp, .braces hderives⟩
  · cases h
    exact ⟨_, rfl, .arrowEmpty⟩
  · obtain ⟨_, hused, inner, last, rfl, hderives, rfl | rfl⟩ := takes_arrowEntries h
    · exact ⟨_, by rw [List.map_cons, hused]; simp, .arrow hderives⟩
    · exact ⟨_, by rw [List.map_cons, hused]; simp, .arrowEnded hderives⟩
  · cases h
    exact ⟨_, rfl, .ended⟩
  · cases h
    exact ⟨[], rfl, .none⟩

theorem takes_groupContainer {c : GroupContainer} (h : groupContainer tokens = .ok (c, rest)) :
    Takes tokens rest fun used => ∀ {us more}, IsMembers us more → IsMembers (used ++ us) (.container c :: more) := by
  obtain ⟨⟨name, after⟩, hname, h⟩ := Except.bind_eq_ok_iff.mp h
  obtain ⟨⟨body, stop, left⟩, hbody, h⟩ := Except.bind_eq_ok_iff.mp h
  cases h
  exact (takes_path hname).append (takes_containerBody hbody) fun hpath hderives _ _ hmore =>
    .container hpath hderives hmore

theorem closes_members {ms : List GroupMember} {stop : Nat} (h : members tokens = .ok (ms, stop, rest)) :
    Closes tokens rest (IsMembers · ms) := by
  fun_induction members tokens generalizing ms with
  | case1 span after =>
    cases h
    exact ⟨[], rfl, .nil⟩
  | case2 => cases h
  | case3 tokens _ c after hc _ ih =>
    obtain ⟨⟨more, stop', left⟩, hmore, heq⟩ := Except.map_eq_ok_iff.mp h
    cases heq
    exact (takes_comment? hc).closes (ih hmore) .comment
  | case4 => cases h
  | case5 => cases h
  | case6 tokens _ _ c after hg _ _ ih =>
    obtain ⟨⟨more, stop', left⟩, hmore, heq⟩ := Except.map_eq_ok_iff.mp h
    cases heq
    exact (takes_groupContainer hg).closes (ih hmore) fun hgoes hderives => hgoes hderives

theorem takes_paths {ps : List TypePath} (h : paths tokens = .ok (ps, rest)) : Takes tokens rest (IsPaths · ps) := by
  fun_induction paths tokens generalizing ps with
  | case1 => cases h
  | case2 tokens p span after hp _ ih =>
    obtain ⟨⟨more, left⟩, hmore, heq⟩ := Except.map_eq_ok_iff.mp h
    cases heq
    obtain ⟨ts, hts, hpath⟩ := takes_path hp
    obtain ⟨us, hus, hderives⟩ := ih hmore
    exact ⟨ts ++ .mark .comma :: us, by rw [hts, List.map_cons, hus]; simp, .cons hpath hderives⟩
  | case3 tokens p after _ hp =>
    cases h
    obtain ⟨ts, hts, hpath⟩ := takes_path hp
    exact ⟨ts, hts, .last hpath⟩

theorem takes_implemented {ps : List TypePath} (h : implemented tokens = .ok (ps, rest)) :
    Takes tokens rest (IsImplemented · ps) := by
  unfold implemented at h
  split at h
  · obtain ⟨ts, hts, hderives⟩ := takes_paths h
    exact ⟨_, by rw [List.map_cons, hts, List.cons_append], .some hderives⟩
  · cases h
    exact ⟨[], rfl, .none⟩

theorem takes_typeGroup {start : Nat} {g : TypeGroup} (h : typeGroup start tokens = .ok (g, rest)) :
    Takes tokens rest fun used => IsTypeGroup (.keyword .typeWord :: used) g := by
  obtain ⟨⟨i, after⟩, hname, h⟩ := Except.bind_eq_ok_iff.mp h
  obtain ⟨⟨traits, after'⟩, htraits, h⟩ := Except.bind_eq_ok_iff.mp h
  obtain ⟨⟨brace, after''⟩, hbrace, h⟩ := Except.bind_eq_ok_iff.mp h
  obtain ⟨⟨body, stop, left⟩, hbody, h⟩ := Except.bind_eq_ok_iff.mp h
  cases h
  obtain ⟨ts, hts, hisName⟩ := takes_name hname
  obtain ⟨us, hus, hisImplemented⟩ := takes_implemented htraits
  obtain ⟨vs, hvs, hisMembers⟩ := closes_members hbody
  refine ⟨_, ?_, .mk hisName hisImplemented hisMembers⟩
  rw [hts, hus, takes_expect hbrace, hvs]
  simp

theorem takes_aliasDecl {start : Nat} {a : Alias} (h : aliasDecl start tokens = .ok (a, rest)) :
    Takes tokens rest fun used => IsAlias (.keyword .aliasWord :: used) a := by
  obtain ⟨⟨i, after⟩, hname, h⟩ := Except.bind_eq_ok_iff.mp h
  obtain ⟨⟨equals, after'⟩, hequals, h⟩ := Except.bind_eq_ok_iff.mp h
  obtain ⟨⟨target, after''⟩, htarget, h⟩ := Except.bind_eq_ok_iff.mp h
  obtain ⟨ts, hts, hisName⟩ := takes_name hname
  obtain ⟨us, hus, hisTarget⟩ := takes_typeName htarget
  have htokens : tokens.map Located.token = ts ++ .mark .equals :: us ++ after''.map Located.token := by
    rw [hts, takes_expect hequals, hus]
    simp
  simp only at h
  split at h
  · cases h
    exact ⟨_, by rw [htokens]; simp, .ended hisName hisTarget⟩
  · cases h
    exact ⟨ts ++ .mark .equals :: us, htokens, .plain hisName hisTarget⟩

theorem takes_traitDecl {start : Nat} {d : TraitDeclaration} (h : traitDecl start tokens = .ok (d, rest)) :
    Takes tokens rest fun used => IsTrait (.keyword .traitWord :: used) d := by
  obtain ⟨⟨i, after⟩, hname, h⟩ := Except.bind_eq_ok_iff.mp h
  obtain ⟨ts, hts, hisName⟩ := takes_name hname
  simp only at h
  split at h
  · obtain ⟨⟨body, stop, left⟩, hbody, h⟩ := Except.bind_eq_ok_iff.mp h
    cases h
    obtain ⟨us, hus, hisEntries⟩ := closes_braceEntries hbody
    refine ⟨_, ?_, .braces hisName hisEntries⟩
    rw [hts, List.map_cons, hus]
    simp
  · cases h
    exact ⟨_, by rw [hts]; simp, .ended hisName⟩
  · cases h

theorem takes_declaration {d : Declaration} (h : declaration tokens = .ok (d, rest)) :
    Takes tokens rest (IsDeclaration · d) := by
  obtain ⟨⟨ctor, type, before, after⟩, hnames, h⟩ := Except.bind_eq_ok_iff.mp h
  obtain ⟨⟨body, stop, left⟩, hbody, h⟩ := Except.bind_eq_ok_iff.mp h
  cases h
  obtain ⟨vs, hvs, hisBody⟩ := takes_containerBody hbody
  obtain ⟨⟨first, after'⟩, hfirst, hnames⟩ := Except.bind_eq_ok_iff.mp hnames
  obtain ⟨ts, hts, hisFirst⟩ := takes_path hfirst
  simp only at hnames
  split at hnames
  · rename_i hcolon
    obtain ⟨⟨second, after''⟩, hsecond, hnames⟩ := Except.bind_eq_ok_iff.mp hnames
    cases hnames
    obtain ⟨us, hus, hisSecond⟩ := takes_path hsecond
    refine ⟨ts ++ .mark .colon :: us ++ vs, ?_, .constructorFirst hisFirst hisSecond hisBody⟩
    rw [hts, tail_of_startsWith hcolon, hus, hvs]
    simp
  · obtain ⟨⟨second, after''⟩, hsecond, hnames⟩ := Except.bind_eq_ok_iff.mp hnames
    cases hnames
    obtain ⟨us, hus, hisSecond⟩ := takes_path hsecond
    refine ⟨ts ++ us ++ vs, ?_, .typeFirst hisFirst hisSecond hisBody⟩
    rw [hts, hus, hvs]
    simp

/-- The first token of an item is looked at before it is read, so an item that is read goes on as it began. -/
theorem takes_keywordItem {item : Item} (h : keywordItem tokens = .ok (item, rest)) :
    Takes tokens rest fun used => ∀ {us more}, IsItems us more → IsItems (used ++ us) (item :: more) := by
  cases tokens with
  | nil => cases h
  | cons t after =>
    simp only [keywordItem] at h
    split at h
    · rename_i hword
      obtain ⟨⟨g, left⟩, hgroup, heq⟩ := Except.map_eq_ok_iff.mp h
      cases heq
      obtain ⟨used, hused, hderives⟩ := takes_typeGroup hgroup
      exact ⟨.keyword .typeWord :: used, by simp [hword.1, hused], .typeGroup hderives⟩
    split at h
    · rename_i hword
      obtain ⟨⟨a, left⟩, halias, heq⟩ := Except.map_eq_ok_iff.mp h
      cases heq
      obtain ⟨used, hused, hderives⟩ := takes_aliasDecl halias
      exact ⟨.keyword .aliasWord :: used, by simp [hword, hused], .aliasDecl hderives⟩
    split at h
    · rename_i hword
      obtain ⟨⟨d, left⟩, htrait, heq⟩ := Except.map_eq_ok_iff.mp h
      cases heq
      obtain ⟨used, hused, hderives⟩ := takes_traitDecl htrait
      exact ⟨.keyword .traitWord :: used, by simp [hword, hused], .traitDecl hderives⟩
    split at h
    · obtain ⟨⟨d, left⟩, hdeclaration, heq⟩ := Except.map_eq_ok_iff.mp h
      cases heq
      obtain ⟨used, hused, hderives⟩ := takes_declaration hdeclaration
      exact ⟨used, hused, .declaration hderives⟩
    · cases h

theorem takes_namespaceHead {i : Identifier} (h : namespaceHead tokens = .ok (i, rest)) :
    Takes tokens rest fun used => ∃ ts, used = ts ++ [.mark .leftBrace] ∧ IsName ts i := by
  obtain ⟨⟨first, after⟩, hname, h⟩ := Except.bind_eq_ok_iff.mp h
  obtain ⟨⟨brace, left⟩, hbrace, h⟩ := Except.bind_eq_ok_iff.mp h
  cases h
  obtain ⟨ts, hts, hisName⟩ := takes_name hname
  exact ⟨ts ++ [.mark .leftBrace], by rw [hts, takes_expect hbrace]; simp, ts, rfl, hisName⟩

/-- Outside of all namespaces nothing is left. -/
theorem takes_items {inside : Bool} {body : List Item} {left : Remainder tokens}
    (h : items inside tokens = .ok (body, left)) :
    Takes tokens left.1 (IsItems · body) ∧ (inside = false → left.1 = []) := by
  fun_induction items inside tokens generalizing body with
  | case1 => cases h
  | case2 =>
    cases h
    exact ⟨⟨[], rfl, .nil⟩, fun _ => rfl⟩
  | case3 inside t after hclosing =>
    cases h
    exact ⟨⟨[], rfl, .nil⟩, fun hinside => by simp [hinside] at hclosing⟩
  | case4 => cases h
  | case5 inside t _ _ c after hc _ ih =>
    obtain ⟨⟨more, left⟩, hmore, heq⟩ := Except.map_eq_ok_iff.mp h
    cases heq
    obtain ⟨htakes, hleft⟩ := ih hmore
    exact ⟨(takes_comment? hc).append htakes .comment, hleft⟩
  | case6 => cases h
  | case7 => cases h
  | case8 => cases h
  | case9 inside t _ _ _ hword i inner hhead _ members closing _ hmembers brace after hbrace _ ihinner ih =>
    obtain ⟨⟨more, left⟩, hmore, heq⟩ := Except.map_eq_ok_iff.mp h
    cases heq
    obtain ⟨_, hused, ts, rfl, hname⟩ := takes_namespaceHead hhead
    obtain ⟨⟨us, hus, hbody⟩, -⟩ := ihinner hmembers
    obtain ⟨⟨vs, hvs, hderives⟩, hleft⟩ := ih hmore
    refine ⟨⟨_, ?_, .namespaceBlock hname hbody hderives⟩, hleft⟩
    rw [List.map_cons, hused, hus, takes_expect hbrace, hvs, hword]
    simp
  | case10 => cases h
  | case11 inside t _ _ _ _ item after hitem _ ih =>
    obtain ⟨⟨more, left⟩, hmore, heq⟩ := Except.map_eq_ok_iff.mp h
    cases heq
    obtain ⟨htakes, hleft⟩ := ih hmore
    exact ⟨(takes_keywordItem hitem).append htakes fun hgoes hderives => hgoes hderives, hleft⟩

end Parser

end SchemaWire
