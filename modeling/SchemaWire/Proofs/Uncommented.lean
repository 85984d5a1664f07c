import SchemaWire.Proofs.Documentation
import SchemaWire.Proofs.Spelling

/-!
# Reading without comments

Where comments are read, they are read one after the other and passed over. Bodies, members of type groups and single
declarations are therefore read alike from tokens without comments: what is read is the same but for the comments in it,
with the same places, and what is left is the same without comments. The one condition is that nothing can go on that a
comment ended (`StopsType`, `StartsAnew`).
-/

namespace SchemaWire

/-- The tokens outside of comments. `inBlock` says whether a `--- … ---` block began before them. -/
def Located.outsideComments : (inBlock : Bool) → List Located → List Located
  | _, [] => []
  | true, t :: rest => outsideComments (t.token ≠ .mark .tripleDash) rest
  | false, t :: rest =>
    match t.token with
    | .comment _ => outsideComments false rest
    | .mark .tripleDash => outsideComments true rest
    | _ => t :: outsideComments false rest

namespace Parser

/-- The tokens that lie ahead, without comments. -/
def uncommented (tokens : Tokens) : Tokens :=
  Located.outsideComments false tokens

variable {tokens rest : Tokens} {t : Located} {span : Span} {mark : Mark}

/-! ## Comments among tokens -/

theorem uncommented_of_comment?_none (h : comment? (t :: rest) = .ok none) :
    uncommented (t :: rest) = t :: uncommented rest := by
  obtain ⟨token, span⟩ := t
  cases token with
  | comment text => cases h
  | mark m =>
    cases m with
    | tripleDash =>
      obtain ⟨_, _, h⟩ := Except.map_eq_ok_iff.mp h
      cases h
    | _ => rfl
  | _ => rfl

theorem uncommented_name (rest : Tokens) (h : t.token.name?.isSome) : uncommented (t :: rest) = t :: uncommented rest :=
  uncommented_of_comment?_none (comment?_of_name?_isSome rest h)

theorem uncommented_mark (span : Span) (rest : Tokens) (h : mark ≠ .tripleDash) :
    uncommented (⟨.mark mark, span⟩ :: rest) = ⟨.mark mark, span⟩ :: uncommented rest := by
  cases mark with
  | tripleDash => exact absurd rfl h
  | _ => rfl

theorem outsideComments_of_dashWords {words : List String} {stop : Nat}
    (h : dashWords tokens = .ok (words, stop, rest)) : Located.outsideComments true tokens = uncommented rest := by
  fun_induction dashWords tokens generalizing words with
  | case1 => cases h
  | case2 t after hdash =>
    cases h
    simp [Located.outsideComments, hdash, uncommented]
  | case3 t after hdash ih =>
    obtain ⟨⟨more, stop', left⟩, hmore, heq⟩ := Except.map_eq_ok_iff.mp h
    cases heq
    simpa [Located.outsideComments, hdash] using ih hmore

/-- A comment that is read is not there without comments. -/
theorem uncommented_of_comment? {c : Comment} (h : comment? tokens = .ok (some (c, rest))) :
    uncommented tokens = uncommented rest := by
  unfold comment? at h
  split at h
  · cases h
    rfl
  · obtain ⟨⟨words, stop, left⟩, hwords, heq⟩ := Except.map_eq_ok_iff.mp h
    cases heq
    exact outsideComments_of_dashWords hwords
  · cases h

theorem comment?_outsideComments (inBlock : Bool) (tokens : Tokens) :
    comment? (Located.outsideComments inBlock tokens) = .ok none := by
  induction tokens generalizing inBlock with
  | nil => rfl
  | cons t rest ih =>
    cases inBlock with
    | true => exact ih _
    | false =>
      obtain ⟨token, span⟩ := t
      cases token with
      | comment text => exact ih false
      | mark m =>
        cases m with
        | tripleDash => exact ih true
        | _ => rfl
      | _ => rfl

theorem comment?_uncommented (tokens : Tokens) : comment? (uncommented tokens) = .ok none :=
  comment?_outsideComments false tokens

/-! ## Names and types -/

/-- Whether no mark comes next with which a type goes on. -/
structure StopsType (tokens : Tokens) : Prop where
  dot : startsWith .dot tokens = false
  bracket : startsWith .leftBracket tokens = false
  less : startsWith .less tokens = false

theorem StopsType.of_startsWith (mark : Mark) (h : startsWith mark tokens = true)
    (hmark : mark ∉ [.dot, .leftBracket, .less]) : StopsType tokens := by
  simp only [List.mem_cons, List.not_mem_nil, or_false, not_or] at hmark
  obtain ⟨hdot, hbracket, hless⟩ := hmark
  exact ⟨startsWith_eq_false h hdot, startsWith_eq_false h hbracket, startsWith_eq_false h hless⟩

theorem name_uncommented {context : ParseError.Context} {i : Identifier} (h : name context tokens = .ok (i, rest)) :
    name context (uncommented tokens) = .ok (i, uncommented rest) := by
  obtain ⟨t, rfl, hname, hspan⟩ := exists_of_name h
  rw [uncommented_name _ (hname ▸ rfl)]
  simp only [name, hname, hspan]

theorem expect_uncommented (hmark : mark ≠ .tripleDash) (h : expect mark tokens = .ok (span, rest)) :
    expect mark (uncommented tokens) = .ok (span, uncommented rest) := by
  rw [eq_of_expect h, uncommented_mark _ _ hmark]
  simp [expect]

theorem uncommented_of_startsWith (hmark : mark ≠ .tripleDash) (h : startsWith mark tokens = true) :
    ∃ span, tokens = ⟨.mark mark, span⟩ :: tokens.tail ∧
      uncommented tokens = ⟨.mark mark, span⟩ :: uncommented tokens.tail := by
  cases tokens with
  | nil => cases h
  | cons t after =>
    obtain ⟨token, place⟩ := t
    obtain rfl : token = .mark mark := by simpa [startsWith] using h
    exact ⟨place, rfl, uncommented_mark _ _ hmark⟩

theorem moreSegments_uncommented {segments : List Identifier} (h : moreSegments tokens = .ok (segments, rest))
    (hdot : startsWith .dot (uncommented rest) = false) :
    moreSegments (uncommented tokens) = .ok (segments, uncommented rest) := by
  fun_induction moreSegments tokens generalizing segments with
  | case1 =>
    cases h
    exact moreSegments_of_not_dot hdot
  | case2 t htoken => cases h
  | case3 t htoken =>
    cases h
    exact moreSegments_of_not_dot hdot
  | case4 t u after htoken text hname ih =>
    obtain ⟨⟨more, left⟩, hmore, heq⟩ := Except.map_eq_ok_iff.mp h
    cases heq
    obtain ⟨token, span⟩ := t
    obtain rfl : token = .mark .dot := htoken
    rw [uncommented_mark _ _ (by decide), uncommented_name _ (hname ▸ rfl)]
    simp [moreSegments, hname, ih hmore, Except.map]
  | case5 t u after htoken hname => cases h
  | case6 t u after htoken =>
    cases h
    exact moreSegments_of_not_dot hdot

theorem path_uncommented {p : TypePath} (h : path tokens = .ok (p, rest))
    (hdot : startsWith .dot (uncommented rest) = false) : path (uncommented tokens) = .ok (p, uncommented rest) := by
  obtain ⟨⟨first, after⟩, hfirst, h⟩ := Except.bind_eq_ok_iff.mp h
  obtain ⟨⟨more, left⟩, hmore, h⟩ := Except.bind_eq_ok_iff.mp h
  cases h
  have hname := name_uncommented hfirst
  have hsegments := moreSegments_uncommented hmore hdot
  exact Except.bind_eq_ok_iff.mpr ⟨_, hname, Except.bind_eq_ok_iff.mpr ⟨_, hsegments, rfl⟩⟩

theorem literal_uncommented {l : Literal} (h : literal tokens = .ok (l, rest)) :
    literal (uncommented tokens) = .ok (l, uncommented rest) := by
  unfold literal at h
  split at h
  · cases h
    rfl
  · cases h

theorem typeName_uncommented {type : TypeName} (h : typeName tokens = .ok (type, rest))
    (hstops : StopsType (uncommented rest)) : typeName (uncommented tokens) = .ok (type, uncommented rest) := by
  obtain ⟨⟨p, after⟩, hpath, h⟩ := Except.bind_eq_ok_iff.mp h
  simp only at h
  split at h
  · rename_i hbracket
    obtain ⟨place, hafter, huncommented⟩ := uncommented_of_startsWith (by decide) hbracket
    split at h
    · rename_i base hsegments
      obtain ⟨⟨size, after'⟩, hsize, h⟩ := Except.bind_eq_ok_iff.mp h
      obtain ⟨⟨closing, left⟩, hclosing, h⟩ := Except.bind_eq_ok_iff.mp h
      cases h
      have hp := path_uncommented hpath (by rw [huncommented]; rfl)
      have hl := literal_uncommented hsize
      have he := expect_uncommented (by decide) hclosing
      refine Except.bind_eq_ok_iff.mpr ⟨_, hp, ?_⟩
      simp only [huncommented, startsWith, decide_true, if_true, hsegments, List.tail_cons]
      exact Except.bind_eq_ok_iff.mpr ⟨_, hl, Except.bind_eq_ok_iff.mpr ⟨_, he, rfl⟩⟩
    · cases h
  · cases h
    have hp := path_uncommented hpath hstops.dot
    refine Except.bind_eq_ok_iff.mpr ⟨_, hp, ?_⟩
    simp only [hstops.bracket]
    rfl

/-- A type that no `<` follows has none behind its first name either. -/
theorem less_of_typeName {type : TypeName} (h : typeName tokens = .ok (type, rest))
    (hless : startsWith .less rest = false) : startsWith .less tokens.tail = false := by
  by_contra hnext
  rw [Bool.not_eq_false] at hnext
  obtain ⟨⟨p, after⟩, hpath, htype⟩ := Except.bind_eq_ok_iff.mp h
  obtain ⟨⟨first, next⟩, hfirst, hmore⟩ := Except.bind_eq_ok_iff.mp hpath
  obtain ⟨⟨segments, left⟩, hsegments, heq⟩ := Except.bind_eq_ok_iff.mp hmore
  obtain ⟨t, rfl, -, -⟩ := exists_of_name hfirst
  -- The type would then be this name alone, and the `<` would be left behind it.
  rw [List.tail_cons] at hnext
  rw [moreSegments_of_not_dot (startsWith_eq_false hnext (by decide))] at hsegments
  cases hsegments
  cases heq
  have hbracket : startsWith .leftBracket after = false := startsWith_eq_false hnext (by decide)
  simp only [hbracket] at htype
  cases htype
  rw [hnext] at hless
  cases hless

theorem propertyType_uncommented {type : PropertyType} (h : propertyType tokens = .ok (type, rest))
    (hstops : StopsType (uncommented rest)) :
    propertyType (uncommented tokens) = .ok (type, uncommented rest) := by
  unfold propertyType at h
  split at h
  · obtain ⟨⟨item, after⟩, hitem, h⟩ := Except.bind_eq_ok_iff.mp h
    obtain ⟨⟨closing, left⟩, hclosing, h⟩ := Except.bind_eq_ok_iff.mp h
    cases h
    have he := expect_uncommented (by decide) hclosing
    have ht := typeName_uncommented hitem (.of_startsWith .greater (startsWith_of_expect he) (by decide))
    exact Except.bind_eq_ok_iff.mpr ⟨_, ht, Except.bind_eq_ok_iff.mpr ⟨_, he, rfl⟩⟩
  · obtain ⟨⟨t, after⟩, htype, h⟩ := Except.bind_eq_ok_iff.mp h
    cases h
    have ht := typeName_uncommented htype hstops
    rw [propertyType_of_not_less (less_of_typeName ht hstops.less), ht]
    rfl

theorem property_uncommented {p : Property} (h : property tokens = .ok (p, rest))
    (hstops : StopsType (uncommented rest)) : property (uncommented tokens) = .ok (p, uncommented rest) := by
  obtain ⟨⟨key, after⟩, hkey, h⟩ := Except.bind_eq_ok_iff.mp h
  simp only at h
  generalize hquestion : question after = marked at h
  obtain ⟨optional, after'⟩ := marked
  obtain ⟨⟨colon, after''⟩, hcolon, h⟩ := Except.bind_eq_ok_iff.mp h
  obtain ⟨⟨type, left⟩, htype, h⟩ := Except.bind_eq_ok_iff.mp h
  cases h
  have hc := expect_uncommented (by decide) hcolon
  have ht := propertyType_uncommented htype hstops
  have hmark : question (uncommented after) = (optional, uncommented after') := by
    unfold question at hquestion ⊢
    split at hquestion
    · rename_i hnext
      obtain ⟨place, -, hafter⟩ := uncommented_of_startsWith (by decide) hnext
      cases hquestion
      rw [hafter]
      rfl
    · -- What comes next is the colon, so that no question mark comes to stand there.
      cases hquestion
      have hnone : startsWith .question (uncommented after) = false :=
        startsWith_eq_false (startsWith_of_expect hc) (by decide)
      rw [if_neg (by simp [hnone])]
  refine Except.bind_eq_ok_iff.mpr ⟨_, name_uncommented hkey, ?_⟩
  simp only [hmark]
  exact Except.bind_eq_ok_iff.mpr ⟨_, hc, Except.bind_eq_ok_iff.mpr ⟨_, ht, rfl⟩⟩

/-! ## Bodies -/

/-- Whether nothing that came before goes on: no tokens are left, or a name or a closing brace comes next. -/
def StartsAnew : Tokens → Prop
  | [] => True
  | t :: _ => t.token.name?.isSome ∨ t.token = .mark .rightBrace

theorem StartsAnew.startsWith_eq_false (h : StartsAnew tokens) (mark : Mark) (hmark : mark ≠ .rightBrace) :
    startsWith mark tokens = false := by
  cases tokens with
  | nil => rfl
  | cons t after =>
    obtain ⟨token, place⟩ := t
    rcases h with hname | htoken
    · cases token with
      | mark m => cases hname
      | _ => rfl
    · obtain rfl : token = .mark .rightBrace := htoken
      simpa [startsWith] using Ne.symm hmark

theorem StartsAnew.stopsType (h : StartsAnew tokens) : StopsType tokens :=
  ⟨h.startsWith_eq_false .dot (by decide), h.startsWith_eq_false .leftBracket (by decide),
    h.startsWith_eq_false .less (by decide)⟩

/-- But for comments, a property in braces stands before a semicolon or the closing brace. -/
theorem stopsType_of_braceEntries {entries : List BodyEntry} {stop : Nat} (hc : comment? tokens = .ok none)
    (h : braceEntries false tokens = .ok (entries, stop, rest)) : StopsType tokens := by
  revert h
  fun_cases braceEntries false tokens with
  | case1 => exact fun _ => .of_startsWith .rightBrace rfl (by decide)
  | case8 _ _ _ _ span after hs => exact fun _ => .of_startsWith .semicolon (startsWith_of_expect hs) (by decide)
  | _ => simp_all

theorem braceEntries_uncommented {separated : Bool} {entries : List BodyEntry} {stop : Nat}
    (h : braceEntries separated tokens = .ok (entries, stop, rest)) :
    braceEntries separated (uncommented tokens) = .ok (BodyEntry.withoutComments entries, stop, uncommented rest) := by
  fun_induction braceEntries separated tokens generalizing entries with
  | case1 separated span after =>
    cases h
    exact braceEntries_rightBrace
  | case2 => cases h
  | case3 separated tokens _ c after hc _ ih =>
    obtain ⟨⟨more, stop', left⟩, hmore, heq⟩ := Except.map_eq_ok_iff.mp h
    cases heq
    rw [uncommented_of_comment? hc, ih hmore]
    rfl
  | case4 => cases h
  | case5 => cases h
  | case6 tokens _ _ p after hp _ _ ih =>
    obtain ⟨⟨more, stop', left⟩, hmore, heq⟩ := Except.map_eq_ok_iff.mp h
    cases heq
    -- That what follows is read without comments too says that the property's type ends there.
    have hbody := ih hmore
    have hproperty := property_uncommented hp (stopsType_of_braceEntries (comment?_uncommented _) hbody)
    obtain ⟨t, left, rfl, hname⟩ := exists_of_property hp
    rw [uncommented_name _ hname] at hproperty ⊢
    rw [braceEntries_property hname hproperty, hbody]
    rfl
  | case7 => cases h
  | case8 separated tokens _ _ hseparated _ after hs _ ih =>
    obtain rfl : separated = false := by simpa using hseparated
    rw [eq_of_expect hs, uncommented_mark _ _ (by decide), braceEntries_semicolon]
    exact ih h

theorem arrowEntries_uncommented {entries : List BodyEntry} {stop : Nat}
    (h : arrowEntries tokens = .ok (entries, stop, rest)) (hanew : StartsAnew (uncommented rest)) :
    arrowEntries (uncommented tokens) = .ok (BodyEntry.withoutComments entries, stop, uncommented rest) := by
  fun_induction arrowEntries tokens generalizing entries with
  | case1 => cases h
  | case2 tokens c after hc _ ih =>
    obtain ⟨⟨more, stop', left⟩, hmore, heq⟩ := Except.map_eq_ok_iff.mp h
    cases heq
    rw [uncommented_of_comment? hc, ih hmore]
    rfl
  | case3 => cases h
  | case4 tokens _ p span after hp _ ih =>
    obtain ⟨⟨more, stop', left⟩, hmore, heq⟩ := Except.map_eq_ok_iff.mp h
    cases heq
    have hproperty := property_uncommented hp (.of_startsWith .comma rfl (by decide))
    rw [uncommented_mark _ _ (by decide)] at hproperty
    rw [arrowEntries_comma (comment?_uncommented _) hproperty, ih hmore]
    rfl
  | case5 tokens _ p span after hp =>
    cases h
    have hproperty := property_uncommented hp (.of_startsWith .semicolon rfl (by decide))
    exact arrowEntries_semicolon (comment?_uncommented _) hproperty
  | case6 tokens _ p after _ _ hp =>
    cases h
    have hproperty := property_uncommented hp hanew.stopsType
    exact arrowEntries_last (comment?_uncommented _) hproperty (hanew.startsWith_eq_false .comma (by decide))
      (hanew.startsWith_eq_false .semicolon (by decide))

theorem containerBody_of_startsAnew (before : Nat) (h : StartsAnew tokens) :
    containerBody before tokens = .ok ([], before, tokens) := by
  unfold containerBody
  split <;> simp_all [StartsAnew, Token.name?]

theorem containerBody_uncommented {entries : List BodyEntry} {before stop : Nat}
    (h : containerBody before tokens = .ok (entries, stop, rest)) (hanew : StartsAnew (uncommented rest)) :
    containerBody before (uncommented tokens) =
      .ok (BodyEntry.withoutComments entries, stop, uncommented rest) := by
  unfold containerBody at h
  split at h
  · exact braceEntries_uncommented h
  · cases h
    rfl
  · rename_i span after _
    have hbody := arrowEntries_uncommented h hanew
    -- No semicolon comes to stand right behind the arrow: a property is read there.
    have hsemicolon : startsWith .semicolon (uncommented after) = false := by
      obtain ⟨t, left, hafter, hname⟩ := exists_of_arrowEntries (comment?_uncommented after) hbody
      have hbehind : StartsAnew (t :: left) := .inl hname
      rw [hafter]
      exact hbehind.startsWith_eq_false .semicolon (by decide)
    rw [uncommented_mark _ _ (by decide), containerBody_arrow before span hsemicolon, hbody]
  · cases h
    rfl
  · cases h
    exact containerBody_of_startsAnew before hanew

/-- A dotted name ends where a body is read, and where something new begins. -/
theorem dot_of_containerBody {entries : List BodyEntry} {before stop : Nat}
    (h : containerBody before tokens = .ok (entries, stop, rest)) (hanew : StartsAnew (uncommented rest)) :
    startsWith .dot (uncommented tokens) = false := by
  unfold containerBody at h
  split at h
  · rfl
  · rfl
  · rfl
  · rfl
  · cases h
    exact hanew.startsWith_eq_false .dot (by decide)

/-! ## Members of a type group -/

theorem groupContainer_uncommented {c : GroupContainer} (h : groupContainer tokens = .ok (c, rest))
    (hanew : StartsAnew (uncommented rest)) :
    groupContainer (uncommented tokens) =
      .ok ({ c with body := BodyEntry.withoutComments c.body }, uncommented rest) := by
  obtain ⟨⟨p, after⟩, hpath, h⟩ := Except.bind_eq_ok_iff.mp h
  obtain ⟨⟨body, stop, left⟩, hbody, h⟩ := Except.bind_eq_ok_iff.mp h
  cases h
  have hp := path_uncommented hpath (dot_of_containerBody hbody hanew)
  have hb := containerBody_uncommented hbody hanew
  exact Except.bind_eq_ok_iff.mpr ⟨_, hp, Except.bind_eq_ok_iff.mpr ⟨_, hb, rfl⟩⟩

/-- But for comments, a member stands before another one or the closing brace. -/
theorem startsAnew_of_members {ms : List GroupMember} {stop : Nat} (hc : comment? tokens = .ok none)
    (h : members tokens = .ok (ms, stop, rest)) : StartsAnew tokens := by
  revert h
  fun_cases members tokens with
  | case1 => exact fun _ => .inr rfl
  | case6 _ _ _ c after hg =>
    intro _
    obtain ⟨t, left, rfl, hname⟩ := exists_of_groupContainer hg
    exact .inl hname
  | _ => simp_all

theorem members_uncommented {ms : List GroupMember} {stop : Nat} (h : members tokens = .ok (ms, stop, rest)) :
    members (uncommented tokens) = .ok (GroupMember.withoutComments ms, stop, uncommented rest) := by
  fun_induction members tokens generalizing ms with
  | case1 span after =>
    cases h
    exact members_rightBrace
  | case2 => cases h
  | case3 tokens _ c after hc _ ih =>
    obtain ⟨⟨more, stop', left⟩, hmore, heq⟩ := Except.map_eq_ok_iff.mp h
    cases heq
    rw [uncommented_of_comment? hc, ih hmore]
    rfl
  | case4 => cases h
  | case5 => cases h
  | case6 tokens _ _ c after hg _ _ ih =>
    obtain ⟨⟨more, stop', left⟩, hmore, heq⟩ := Except.map_eq_ok_iff.mp h
    cases heq
    have hbody := ih hmore
    have hmember := groupContainer_uncommented hg (startsAnew_of_members (comment?_uncommented _) hbody)
    obtain ⟨t, left, rfl, hname⟩ := exists_of_groupContainer hg
    rw [uncommented_name _ hname] at hmember ⊢
    rw [members_container hname hmember, hbody]
    rfl

/-! ## Items by their words -/

theorem paths_uncommented {ps : List TypePath} (h : paths tokens = .ok (ps, rest))
    (hbrace : startsWith .leftBrace rest = true) : paths (uncommented tokens) = .ok (ps, uncommented rest) := by
  fun_induction paths tokens generalizing ps with
  | case1 => cases h
  | case2 tokens p span after hp _ ih =>
    obtain ⟨⟨more, left⟩, hmore, heq⟩ := Except.map_eq_ok_iff.mp h
    cases heq
    have hpath := path_uncommented hp rfl
    rw [uncommented_mark _ _ (by decide)] at hpath
    rw [paths_comma hpath, ih hmore]
    rfl
  | case3 tokens p after _ hp =>
    cases h
    obtain ⟨place, -, hafter⟩ := uncommented_of_startsWith (by decide) hbrace
    exact paths_last (path_uncommented hp (by rw [hafter]; rfl)) (by rw [hafter]; rfl)

theorem implemented_uncommented {ps : List TypePath} (h : implemented tokens = .ok (ps, rest))
    (hbrace : startsWith .leftBrace rest = true) :
    implemented (uncommented tokens) = .ok (ps, uncommented rest) := by
  unfold implemented at h
  split at h
  · exact paths_uncommented h hbrace
  · cases h
    obtain ⟨place, -, hafter⟩ := uncommented_of_startsWith (by decide) hbrace
    rw [hafter]
    rfl

theorem typeGroup_uncommented {start : Nat} {g : TypeGroup} (h : typeGroup start tokens = .ok (g, rest)) :
    typeGroup start (uncommented tokens) =
      .ok ({ g with body := GroupMember.withoutComments g.body }, uncommented rest) := by
  obtain ⟨⟨i, after⟩, hname, h⟩ := Except.bind_eq_ok_iff.mp h
  obtain ⟨⟨traits, after'⟩, htraits, h⟩ := Except.bind_eq_ok_iff.mp h
  obtain ⟨⟨brace, after''⟩, hbrace, h⟩ := Except.bind_eq_ok_iff.mp h
  obtain ⟨⟨body, stop, left⟩, hbody, h⟩ := Except.bind_eq_ok_iff.mp h
  cases h
  have hn := name_uncommented hname
  have ht := implemented_uncommented htraits (startsWith_of_expect hbrace)
  have hb := expect_uncommented (by decide) hbrace
  have hm := members_uncommented hbody
  exact Except.bind_eq_ok_iff.mpr ⟨_, hn, Except.bind_eq_ok_iff.mpr ⟨_, ht,
    Except.bind_eq_ok_iff.mpr ⟨_, hb, Except.bind_eq_ok_iff.mpr ⟨_, hm, rfl⟩⟩⟩⟩

theorem aliasDecl_uncommented {start : Nat} {a : Alias} (h : aliasDecl start tokens = .ok (a, rest))
    (hanew : StartsAnew (uncommented rest)) : aliasDecl start (uncommented tokens) = .ok (a, uncommented rest) := by
  obtain ⟨⟨i, after⟩, hname, h⟩ := Except.bind_eq_ok_iff.mp h
  obtain ⟨⟨equals, after'⟩, hequals, h⟩ := Except.bind_eq_ok_iff.mp h
  obtain ⟨⟨target, after''⟩, htarget, h⟩ := Except.bind_eq_ok_iff.mp h
  have hn := name_uncommented hname
  have he := expect_uncommented (by decide) hequals
  simp only at h
  split at h
  · cases h
    have ht := typeName_uncommented htarget (.of_startsWith .semicolon rfl (by decide))
    exact Except.bind_eq_ok_iff.mpr ⟨_, hn, Except.bind_eq_ok_iff.mpr ⟨_, he, Except.bind_eq_ok_iff.mpr ⟨_, ht, rfl⟩⟩⟩
  · cases h
    have ht := typeName_uncommented htarget hanew.stopsType
    refine Except.bind_eq_ok_iff.mpr ⟨_, hn, Except.bind_eq_ok_iff.mpr ⟨_, he, Except.bind_eq_ok_iff.mpr ⟨_, ht, ?_⟩⟩⟩
    have hsemicolon := hanew.startsWith_eq_false .semicolon (by decide)
    simp only
    split
    · rename_i heq
      rw [heq] at hsemicolon
      cases hsemicolon
    · rfl

theorem traitDecl_uncommented {start : Nat} {d : TraitDeclaration} (h : traitDecl start tokens = .ok (d, rest)) :
    traitDecl start (uncommented tokens) =
      .ok ({ d with body := BodyEntry.withoutComments d.body }, uncommented rest) := by
  obtain ⟨⟨i, after⟩, hname, h⟩ := Except.bind_eq_ok_iff.mp h
  have hn := name_uncommented hname
  simp only at h
  split at h
  · obtain ⟨⟨body, stop, left⟩, hbody, h⟩ := Except.bind_eq_ok_iff.mp h
    cases h
    have hb := braceEntries_uncommented hbody
    exact Except.bind_eq_ok_iff.mpr ⟨_, hn, Except.bind_eq_ok_iff.mpr ⟨_, hb, rfl⟩⟩
  · cases h
    exact Except.bind_eq_ok_iff.mpr ⟨_, hn, rfl⟩
  · cases h

theorem declarationNames_uncommented {ctor name : TypePath} {stop : Nat}
    (h : declarationNames tokens = .ok (ctor, name, stop, rest)) (hdot : startsWith .dot (uncommented rest) = false) :
    declarationNames (uncommented tokens) = .ok (ctor, name, stop, uncommented rest) := by
  obtain ⟨⟨first, after⟩, hfirst, h⟩ := Except.bind_eq_ok_iff.mp h
  simp only at h
  split at h
  · rename_i hcolon
    obtain ⟨⟨second, left⟩, hsecond, h⟩ := Except.bind_eq_ok_iff.mp h
    cases h
    obtain ⟨place, -, hafter⟩ := uncommented_of_startsWith (by decide) hcolon
    have hf := path_uncommented hfirst (by rw [hafter]; rfl)
    have hs := path_uncommented hsecond hdot
    refine Except.bind_eq_ok_iff.mpr ⟨_, hf, ?_⟩
    simp only [hafter]
    exact Except.bind_eq_ok_iff.mpr ⟨_, hs, rfl⟩
  · obtain ⟨⟨second, left⟩, hsecond, h⟩ := Except.bind_eq_ok_iff.mp h
    cases h
    have hs := path_uncommented hsecond hdot
    obtain ⟨t, next, hafter, hname⟩ := exists_of_path hs
    have hanew : StartsAnew (uncommented after) := hafter ▸ .inl hname
    have hf := path_uncommented hfirst (hanew.startsWith_eq_false .dot (by decide))
    refine Except.bind_eq_ok_iff.mpr ⟨_, hf, ?_⟩
    simp only [hanew.startsWith_eq_false .colon (by decide)]
    exact Except.bind_eq_ok_iff.mpr ⟨_, hs, rfl⟩

theorem declaration_uncommented {d : Declaration} (h : declaration tokens = .ok (d, rest))
    (hanew : StartsAnew (uncommented rest)) :
    declaration (uncommented tokens) =
      .ok ({ d with body := BodyEntry.withoutComments d.body }, uncommented rest) := by
  obtain ⟨⟨ctor, name, before, after⟩, hnames, h⟩ := Except.bind_eq_ok_iff.mp h
  obtain ⟨⟨body, stop, left⟩, hbody, h⟩ := Except.bind_eq_ok_iff.mp h
  cases h
  have hn := declarationNames_uncommented hnames (dot_of_containerBody hbody hanew)
  have hb := containerBody_uncommented hbody hanew
  have hstart : startOf (uncommented tokens) = startOf tokens := by
    obtain ⟨⟨first, after⟩, hfirst, -⟩ := Except.bind_eq_ok_iff.mp hnames
    obtain ⟨t, next, rfl, hname⟩ := exists_of_path hfirst
    rw [uncommented_name _ hname]
    rfl
  refine Except.bind_eq_ok_iff.mpr ⟨_, hn, Except.bind_eq_ok_iff.mpr ⟨_, hb, ?_⟩⟩
  rw [hstart]
  rfl

theorem namespaceHead_uncommented {i : Identifier} (h : namespaceHead tokens = .ok (i, rest)) :
    namespaceHead (uncommented tokens) = .ok (i, uncommented rest) := by
  obtain ⟨⟨first, after⟩, hname, h⟩ := Except.bind_eq_ok_iff.mp h
  obtain ⟨⟨brace, left⟩, hbrace, h⟩ := Except.bind_eq_ok_iff.mp h
  cases h
  have hn := name_uncommented hname
  have hb := expect_uncommented (by decide) hbrace
  exact Except.bind_eq_ok_iff.mpr ⟨_, hn, Except.bind_eq_ok_iff.mpr ⟨_, hb, rfl⟩⟩

end Parser

end SchemaWire
