import SchemaWire.Proofs.Grammar
import SchemaWire.Proofs.Uncommented

/-!
# Comments and the tree

Comments are tokens, and the parser looks past a token only to tell a type group from a declaration that begins with the
name `type`. There a comment counts: `type Post` before a comment is a declaration, whatever comes after the comment.
Everywhere else comments leave nothing in the tree but themselves (`ofTokens_withoutComments`).
-/

namespace SchemaWire

/-- The tokens without comments, up to the end of the source and after it. -/
def Located.withoutComments (tokens : List Located) : List Located :=
  outsideComments false (beforeEof tokens) ++ outsideComments false (tokens.dropWhile (·.token ≠ .eof))

theorem Located.mem_of_mem_outsideComments {inBlock : Bool} {tokens : List Located} {t : Located}
    (h : t ∈ outsideComments inBlock tokens) : t ∈ tokens := by
  fun_induction outsideComments inBlock tokens with
  | case1 => exact h
  | case2 u rest ih => exact List.mem_cons_of_mem u (ih h)
  | case3 u rest text htoken ih => exact List.mem_cons_of_mem u (ih h)
  | case4 u rest htoken ih => exact List.mem_cons_of_mem u (ih h)
  | case5 u rest _ _ ih =>
    rcases List.mem_cons.mp h with rfl | h
    · exact List.mem_cons_self
    · exact List.mem_cons_of_mem u (ih h)

/-- Up to the end of the source the comments are gone, and nothing else. -/
theorem Located.beforeEof_withoutComments (tokens : List Located) :
    beforeEof (withoutComments tokens) = Parser.uncommented (beforeEof tokens) := by
  have hbefore : ∀ t ∈ outsideComments false (beforeEof tokens), decide (t.token ≠ .eof) = true := fun t ht =>
    List.all_eq_true.mp List.all_takeWhile t (mem_of_mem_outsideComments ht)
  have hafter : beforeEof (outsideComments false (tokens.dropWhile (·.token ≠ .eof))) = [] := by
    have hend := List.head?_dropWhile_not (fun t : Located => decide (t.token ≠ .eof)) tokens
    cases hrest : tokens.dropWhile (·.token ≠ .eof) with
    | nil => rfl
    | cons e more =>
      obtain ⟨token, span⟩ := e
      rw [hrest] at hend
      obtain rfl : token = .eof := by simpa using hend
      rfl
  rw [beforeEof] at hafter
  rw [beforeEof, withoutComments, List.takeWhile_append_of_pos hbefore, hafter, List.append_nil]
  rfl

namespace Parser

variable {tokens rest after : Tokens} {t : Located} {item : Item}

/-! ## Where a comment counts -/

/-- Whether the word comes next. -/
def startsWithWord (word : Keyword) : Tokens → Bool
  | [] => false
  | t :: _ => t.token = .keyword word

/-- Whether the word `type` and a name come next, and then only comments before the word `implements`. -/
def HidesImplements : Tokens → Prop
  | t :: u :: rest =>
    t.token = .keyword .typeWord ∧ u.token.name?.isSome ∧ startsWithWord .implementsWord rest = false ∧
      startsWithWord .implementsWord (uncommented rest) = true
  | _ => False

/-- Whether this is so where an item is read, at the top of the tokens or in a namespace. -/
inductive HidesGroup : Tokens → Prop
  | here {tokens : Tokens} (h : HidesImplements tokens) : HidesGroup tokens
  | comment {tokens rest : Tokens} {c : Comment} (hc : comment? tokens = .ok (some (c, rest))) (h : HidesGroup rest) :
    HidesGroup tokens
  | inside {t : Located} {rest inner : Tokens} {i : Identifier} (ht : t.token = .keyword .namespaceWord)
    (hhead : namespaceHead rest = .ok (i, inner)) (h : HidesGroup inner) : HidesGroup (t :: rest)
  | afterNamespace {t : Located} {rest inner closing after : Tokens} {i : Identifier} {body : List Item} {brace : Span}
    (ht : t.token = .keyword .namespaceWord) (hhead : namespaceHead rest = .ok (i, inner))
    (hbody : readItems true inner = .ok (body, closing)) (hbrace : expect .rightBrace closing = .ok (brace, after))
    (h : HidesGroup after) : HidesGroup (t :: rest)
  | afterItem {t : Located} {rest after : Tokens} {item : Item} (ht : t.token ≠ .keyword .namespaceWord)
    (hitem : keywordItem (t :: rest) = .ok (item, after)) (h : HidesGroup after) : HidesGroup (t :: rest)

theorem HidesImplements.name (h : HidesImplements (t :: rest)) : t.token.name?.isSome := by
  cases rest with
  | nil => exact h.elim
  | cons u rest => rw [h.1]; rfl

theorem not_hidesGroup_nil : ¬HidesGroup [] := by
  intro h
  cases h with
  | here h => exact h
  | comment hc => cases hc

theorem not_hidesGroup_rightBrace {span : Span} : ¬HidesGroup (⟨.mark .rightBrace, span⟩ :: rest) := by
  intro h
  cases h with
  | here h => exact absurd h.name (by simp [Token.name?])
  | comment hc => cases hc
  | inside ht => cases ht
  | afterNamespace ht => cases ht
  | afterItem _ hitem => cases hitem

theorem hidesGroup_comment_iff {c : Comment} (hc : comment? tokens = .ok (some (c, rest))) :
    HidesGroup tokens ↔ HidesGroup rest := by
  have hname {t : Located} {after : Tokens} (h : t.token.name?.isSome) :
      comment? (t :: after) ≠ .ok (some (c, rest)) := by
    rw [comment?_of_name?_isSome after h]
    intro heq
    cases heq
  refine ⟨fun h => ?_, .comment hc⟩
  cases h with
  | here h =>
    cases tokens with
    | nil => exact h.elim
    | cons t after => exact absurd hc (hname h.name)
  | comment hc' h =>
    rw [hc] at hc'
    cases hc'
    exact h
  | inside ht => exact absurd hc (hname (ht ▸ rfl))
  | afterNamespace ht => exact absurd hc (hname (ht ▸ rfl))
  | afterItem _ hitem => exact absurd hc (hname (name_of_keywordItem hitem))

theorem hidesGroup_namespace_iff {inner closing : Tokens} {i : Identifier} {body : List Item} {brace : Span}
    (ht : t.token = .keyword .namespaceWord) (hhead : namespaceHead rest = .ok (i, inner))
    (hbody : readItems true inner = .ok (body, closing)) (hbrace : expect .rightBrace closing = .ok (brace, after)) :
    HidesGroup (t :: rest) ↔ HidesGroup inner ∨ HidesGroup after := by
  constructor
  · intro h
    cases h with
    | here h =>
      cases rest with
      | nil => exact h.elim
      | cons u rest =>
        have htype := h.1
        rw [ht] at htype
        cases htype
    | comment hc =>
      rw [comment?_of_name?_isSome rest (ht ▸ rfl)] at hc
      cases hc
    | inside _ hhead' h =>
      rw [hhead] at hhead'
      cases hhead'
      exact .inl h
    | afterNamespace _ hhead' hbody' hbrace' h =>
      rw [hhead] at hhead'
      cases hhead'
      rw [hbody] at hbody'
      cases hbody'
      rw [hbrace] at hbrace'
      cases hbrace'
      exact .inr h
    | afterItem ht' => exact absurd ht ht'
  · rintro (h | h)
    · exact .inside ht hhead h
    · exact .afterNamespace ht hhead hbody hbrace h

theorem hidesGroup_item_iff (ht : t.token ≠ .keyword .namespaceWord)
    (hitem : keywordItem (t :: rest) = .ok (item, after)) :
    HidesGroup (t :: rest) ↔ HidesImplements (t :: rest) ∨ HidesGroup after := by
  constructor
  · intro h
    cases h with
    | here h => exact .inl h
    | comment hc =>
      rw [comment?_of_name?_isSome rest (name_of_keywordItem hitem)] at hc
      cases hc
    | inside ht' => exact absurd ht' ht
    | afterNamespace ht' => exact absurd ht' ht
    | afterItem _ hitem' h =>
      rw [hitem] at hitem'
      cases hitem'
      exact .inr h
  · rintro (h | h)
    · exact .here h
    · exact .afterItem ht hitem h

/-- Only before the word `implements` does a comment count. -/
theorem HidesGroup.implements_mem (h : HidesGroup tokens) : .keyword .implementsWord ∈ tokens.map Located.token := by
  induction h with
  | here h =>
    rename_i tokens
    match tokens, h with
    | t :: u :: rest, ⟨_, _, _, hhidden⟩ =>
      cases hnext : uncommented rest with
      | nil =>
        rw [hnext] at hhidden
        cases hhidden
      | cons w more =>
        have hword : w ∈ rest := Located.mem_of_mem_outsideComments (hnext ▸ List.mem_cons_self)
        have htoken : w.token = .keyword .implementsWord := by simpa [hnext, startsWithWord] using hhidden
        exact htoken ▸ List.mem_map_of_mem (List.mem_cons_of_mem t (List.mem_cons_of_mem u hword))
  | comment hc _ ih =>
    obtain ⟨used, htokens, -⟩ := takes_comment? hc
    exact htokens ▸ List.mem_append_right used ih
  | inside _ hhead _ ih =>
    obtain ⟨used, hrest, -⟩ := takes_namespaceHead hhead
    exact List.mem_cons_of_mem _ (hrest ▸ List.mem_append_right used ih)
  | afterNamespace _ hhead hbody hbrace _ ih =>
    obtain ⟨used, hrest, -⟩ := takes_namespaceHead hhead
    obtain ⟨⟨body, left⟩, hitems, heq⟩ := Except.map_eq_ok_iff.mp hbody
    cases heq
    obtain ⟨⟨others, hinner, -⟩, -⟩ := takes_items hitems
    rw [List.map_cons, hrest, hinner, takes_expect hbrace]
    exact List.mem_cons_of_mem _ (List.mem_append_right used (List.mem_append_right others (List.mem_cons_of_mem _ ih)))
  | afterItem _ hitem _ ih =>
    obtain ⟨used, htokens, -⟩ := takes_keywordItem hitem
    exact htokens ▸ List.mem_append_right used ih

/-! ## Items -/

/-- A token that begins a comment is none of the other marks. -/
theorem startsWith_of_comment?_ne {mark : Mark} (h : comment? tokens ≠ .ok none) (hmark : mark ≠ .tripleDash) :
    startsWith mark tokens = false := by
  cases tokens with
  | nil => rfl
  | cons t rest =>
    obtain ⟨token, span⟩ := t
    by_contra hnext
    obtain rfl : token = .mark mark := by simpa [startsWith] using hnext
    cases mark with
    | tripleDash => exact hmark rfl
    | _ => exact h rfl

theorem startsWithWord_of_comment?_ne {word : Keyword} (h : comment? tokens ≠ .ok none) :
    startsWithWord word tokens = false := by
  cases tokens with
  | nil => rfl
  | cons t rest =>
    by_contra hnext
    have htoken : t.token = .keyword word := by simpa [startsWithWord] using hnext
    exact h (comment?_of_name?_isSome rest (htoken ▸ rfl))

theorem startsGroup_mark (mark : Mark) (span : Span) (rest : Tokens) :
    startsGroup (⟨.mark mark, span⟩ :: rest) = false := by
  cases rest <;> rfl

theorem containerBody_of_comment?_ne (before : Nat) (h : comment? tokens ≠ .ok none) :
    containerBody before tokens = .ok ([], before, tokens) := by
  unfold containerBody
  split
  · exact absurd rfl h
  · exact absurd rfl h
  · exact absurd rfl h
  · exact absurd rfl h
  · rfl

/-- A declaration goes on behind its first name with a mark or with another name. -/
theorem cases_of_declaration {d : Declaration} (h : declaration (t :: rest) = .ok (d, after)) :
    startsWith .dot rest = true ∨ startsWith .colon rest = true ∨
      ∃ u next, rest = u :: next ∧ u.token.name?.isSome := by
  obtain ⟨⟨ctor, type, before, left⟩, hnames, -⟩ := Except.bind_eq_ok_iff.mp h
  obtain ⟨⟨first, left'⟩, hfirst, hsecond⟩ := Except.bind_eq_ok_iff.mp hnames
  by_cases hdot : startsWith .dot rest = true
  · exact .inl hdot
  by_cases hcolon : startsWith .colon rest = true
  · exact .inr (.inl hcolon)
  rw [Bool.not_eq_true] at hdot hcolon
  obtain ⟨⟨i, next⟩, hname, hmore⟩ := Except.bind_eq_ok_iff.mp hfirst
  obtain ⟨u, heq, -, -⟩ := exists_of_name hname
  cases heq
  simp only [moreSegments_of_not_dot hdot] at hmore
  cases hmore
  simp only [hcolon] at hsecond
  obtain ⟨⟨second, left''⟩, hpath, -⟩ := Except.bind_eq_ok_iff.mp hsecond
  exact .inr (.inr (exists_of_path hpath))

/-- A comment right behind its two names ends a declaration. -/
theorem eq_of_declaration_comment {u : Located} {d : Declaration} (h : declaration (t :: u :: rest) = .ok (d, after))
    (hu : u.token.name?.isSome) (hc : comment? rest ≠ .ok none) : after = rest := by
  have hanew : StartsAnew (u :: rest) := .inl hu
  obtain ⟨⟨ctor, type, before, left⟩, hnames, hbody⟩ := Except.bind_eq_ok_iff.mp h
  obtain ⟨⟨first, left'⟩, hfirst, hsecond⟩ := Except.bind_eq_ok_iff.mp hnames
  obtain ⟨⟨i, next⟩, hname, hmore⟩ := Except.bind_eq_ok_iff.mp hfirst
  obtain ⟨_, heq, -, -⟩ := exists_of_name hname
  cases heq
  simp only [moreSegments_of_not_dot (hanew.startsWith_eq_false .dot (by decide))] at hmore
  cases hmore
  simp only [hanew.startsWith_eq_false .colon (by decide)] at hsecond
  obtain ⟨⟨second, left''⟩, hpath, heq⟩ := Except.bind_eq_ok_iff.mp hsecond
  cases heq
  obtain ⟨⟨j, next⟩, hname, hmore⟩ := Except.bind_eq_ok_iff.mp hpath
  obtain ⟨_, heq, -, -⟩ := exists_of_name hname
  cases heq
  simp only [moreSegments_of_not_dot (startsWith_of_comment?_ne hc (by decide))] at hmore
  cases hmore
  simp only [containerBody_of_comment?_ne _ hc] at hbody
  cases hbody
  rfl

/-- Behind the word `type`, a declaration is one without comments too, but for a hidden `implements`. -/
theorem startsGroup_uncommented {d : Declaration} (h : declaration (t :: rest) = .ok (d, after))
    (ht : t.token = .keyword .typeWord) (hanew : StartsAnew (uncommented after)) (hgroup : startsGroup rest = false)
    (hseen : ¬HidesImplements (t :: rest)) : startsGroup (uncommented rest) = false := by
  rcases cases_of_declaration h with hdot | hcolon | ⟨u, next, rfl, hu⟩
  · obtain ⟨place, -, hrest⟩ := uncommented_of_startsWith (by decide) hdot
    rw [hrest, startsGroup_mark]
  · obtain ⟨place, -, hrest⟩ := uncommented_of_startsWith (by decide) hcolon
    rw [hrest, startsGroup_mark]
  · rw [uncommented_name _ hu]
    by_cases hc : comment? next = .ok none
    · cases next with
      | nil => rfl
      | cons w more =>
        rw [uncommented_of_comment?_none hc]
        exact hgroup
    · -- The comment ended the declaration, so that the two tokens looked at are its second name and what comes anew.
      obtain rfl := eq_of_declaration_comment h hu hc
      cases hafter : uncommented after with
      | nil => rfl
      | cons w more =>
        rw [hafter] at hanew
        have hbrace : w.token ≠ .mark .leftBrace := by
          rintro htoken
          rcases hanew with hname | hclosing <;> simp_all [Token.name?]
        have hword : w.token ≠ .keyword .implementsWord := fun htoken =>
          hseen ⟨ht, hu, startsWithWord_of_comment?_ne hc, by simp [hafter, startsWithWord, htoken]⟩
        simp [startsGroup, hbrace, hword]

theorem startsGroup_uncommented_of_startsGroup (h : startsGroup tokens = true) :
    startsGroup (uncommented tokens) = true := by
  unfold startsGroup at h
  split at h
  · rename_i t u rest
    simp only [Bool.and_eq_true, Bool.or_eq_true, decide_eq_true_eq] at h
    obtain ⟨hname, hnext⟩ := h
    obtain ⟨token, span⟩ := u
    rw [uncommented_name _ hname]
    rcases hnext with rfl | rfl
    · rw [uncommented_mark _ _ (by decide)]
      simp [startsGroup, hname]
    · rw [uncommented_name _ rfl]
      simp [startsGroup, hname]
  · cases h

theorem keywordItem_uncommented (h : keywordItem (t :: rest) = .ok (item, after))
    (hanew : StartsAnew (uncommented after)) (hseen : ¬HidesImplements (t :: rest)) :
    ∃ item', keywordItem (t :: uncommented rest) = .ok (item', uncommented after) ∧
      ∀ more, Item.withoutComments (item :: more) = item' :: Item.withoutComments more := by
  simp only [keywordItem] at h ⊢
  split at h
  · rename_i hword
    obtain ⟨⟨g, left⟩, hgroup, heq⟩ := Except.map_eq_ok_iff.mp h
    cases heq
    refine ⟨.typeGroup { g with body := GroupMember.withoutComments g.body }, ?_,
      fun more => by simp only [Item.withoutComments]⟩
    rw [if_pos ⟨hword.1, startsGroup_uncommented_of_startsGroup hword.2⟩, typeGroup_uncommented hgroup]
    rfl
  rename_i hword
  split at h
  · rename_i halias
    obtain ⟨⟨a, left⟩, hdecl, heq⟩ := Except.map_eq_ok_iff.mp h
    cases heq
    refine ⟨.aliasDecl a, ?_, fun more => by simp only [Item.withoutComments]⟩
    rw [if_neg (by simp [halias]), if_pos halias, aliasDecl_uncommented hdecl hanew]
    rfl
  rename_i halias
  split at h
  · rename_i htrait
    obtain ⟨⟨d, left⟩, hdecl, heq⟩ := Except.map_eq_ok_iff.mp h
    cases heq
    refine ⟨.traitDecl { d with body := BodyEntry.withoutComments d.body }, ?_,
      fun more => by simp only [Item.withoutComments]⟩
    rw [if_neg (by simp [htrait]), if_neg halias, if_pos htrait, traitDecl_uncommented hdecl]
    rfl
  rename_i htrait
  split at h
  · rename_i hname
    obtain ⟨⟨d, left⟩, hdecl, heq⟩ := Except.map_eq_ok_iff.mp h
    cases heq
    have hgroup : ¬(t.token = .keyword .typeWord ∧ startsGroup (uncommented rest) = true) := by
      rintro ⟨htype, hstarts⟩
      have hnot : startsGroup rest = false := by simpa [htype] using hword
      rw [startsGroup_uncommented hdecl htype hanew hnot hseen] at hstarts
      cases hstarts
    have hd := declaration_uncommented hdecl hanew
    rw [uncommented_name _ hname] at hd
    refine ⟨.declaration { d with body := BodyEntry.withoutComments d.body }, ?_,
      fun more => by simp only [Item.withoutComments]⟩
    rw [if_neg hgroup, if_neg halias, if_neg htrait, if_pos hname, hd]
    rfl
  · cases h

/-- Where `implements` is hidden, no type group is seen. -/
theorem HidesImplements.startsGroup_eq_false (h : HidesImplements (t :: rest)) : startsGroup rest = false := by
  cases rest with
  | nil => rfl
  | cons u next =>
    obtain ⟨-, -, hword, hhidden⟩ := h
    cases next with
    | nil => cases hhidden
    | cons w more =>
      have hbrace : w.token ≠ .mark .leftBrace := by
        intro htoken
        obtain ⟨token, place⟩ := w
        obtain rfl : token = .mark .leftBrace := htoken
        rw [uncommented_mark _ _ (by decide)] at hhidden
        cases hhidden
      have hnext : w.token ≠ .keyword .implementsWord := by simpa [startsWithWord] using hword
      simp [startsGroup, hbrace, hnext]

/-- Without comments the same place begins a type group. -/
theorem HidesImplements.startsGroup_uncommented (h : HidesImplements (t :: rest)) :
    startsGroup (uncommented rest) = true := by
  cases rest with
  | nil => exact h.elim
  | cons u next =>
    obtain ⟨-, hname, -, hhidden⟩ := h
    rw [uncommented_name _ hname]
    cases hnext : uncommented next with
    | nil =>
      rw [hnext] at hhidden
      cases hhidden
    | cons w more =>
      rw [hnext] at hhidden
      have htoken : w.token = .keyword .implementsWord := by simpa [startsWithWord] using hhidden
      simp [startsGroup, hname, htoken]

theorem HidesImplements.typeWord (h : HidesImplements (t :: rest)) : t.token = .keyword .typeWord := by
  cases rest with
  | nil => exact h.elim
  | cons u next => exact h.1

/-- Where `implements` is hidden, a declaration is read, and a type group without comments. -/
theorem HidesImplements.unplaced_ne {item' : Item} {after' : Tokens} (h : HidesImplements (t :: rest))
    (hitem : keywordItem (t :: rest) = .ok (item, after))
    (hitem' : keywordItem (t :: uncommented rest) = .ok (item', after')) (more more' : List Item) :
    Item.unplaced (item' :: more') ≠ Item.unplaced (Item.withoutComments (item :: more)) := by
  have htype := h.typeWord
  have hdeclaration : ∃ d, item = .declaration d := by
    simp only [keywordItem, htype, h.startsGroup_eq_false] at hitem
    obtain ⟨⟨d, left⟩, -, heq⟩ := Except.map_eq_ok_iff.mp hitem
    cases heq
    exact ⟨d, rfl⟩
  have hgroup : ∃ g, item' = .typeGroup g := by
    simp only [keywordItem, htype, h.startsGroup_uncommented] at hitem'
    obtain ⟨⟨g, left⟩, -, heq⟩ := Except.map_eq_ok_iff.mp hitem'
    cases heq
    exact ⟨g, rfl⟩
  obtain ⟨d, rfl⟩ := hdeclaration
  obtain ⟨g, rfl⟩ := hgroup
  simp [Item.withoutComments, Item.unplaced]

theorem startsAnew_of_items {inside : Bool} {body : List Item} {left : Remainder tokens}
    (h : items inside tokens = .ok (body, left)) : StartsAnew (uncommented tokens) := by
  fun_induction items inside tokens generalizing body with
  | case1 => cases h
  | case2 => trivial
  | case3 inside t rest hclosing =>
    obtain ⟨token, span⟩ := t
    obtain ⟨-, rfl⟩ : inside = true ∧ token = .mark .rightBrace := by simpa using hclosing
    exact .inr rfl
  | case4 => cases h
  | case5 inside t _ _ c after hc _ ih =>
    obtain ⟨⟨more, left⟩, hmore, -⟩ := Except.map_eq_ok_iff.mp h
    rw [uncommented_of_comment? hc]
    exact ih hmore
  | case6 => cases h
  | case7 => cases h
  | case8 => cases h
  | case9 inside t _ _ _ hword =>
    rw [uncommented_name _ (hword ▸ rfl)]
    exact .inl (hword ▸ rfl)
  | case10 => cases h
  | case11 inside t _ _ _ _ item after hitem =>
    have hname := name_of_keywordItem hitem
    rw [uncommented_name _ hname]
    exact .inl hname

/-- What the parser makes of tokens without comments, where it reads the items of `body` from the tokens and leaves
`left`: the same items without comments, or not the same if a comment counts somewhere. -/
structure ReadsUncommented (inside : Bool) (tokens : Tokens) (body : List Item) (left : Tokens) : Prop where
  same : ¬HidesGroup tokens →
    readItems inside (uncommented tokens) = .ok (Item.withoutComments body, uncommented left)
  differs : HidesGroup tokens → ∀ body' left', readItems inside (uncommented tokens) = .ok (body', left') →
    Item.unplaced body' ≠ Item.unplaced (Item.withoutComments body)

namespace ReadsUncommented

variable {inside : Bool} {left : Tokens} {more : List Item}

theorem nil : ReadsUncommented false [] [] [] := by
  refine ⟨fun _ => ?_, fun hhides => absurd hhides not_hidesGroup_nil⟩
  rw [Item.withoutComments]
  exact readItems_nil

theorem rightBrace (span : Span) (rest : Tokens) :
    ReadsUncommented true (⟨.mark .rightBrace, span⟩ :: rest) [] (⟨.mark .rightBrace, span⟩ :: rest) := by
  refine ⟨fun _ => ?_, fun hhides => absurd hhides not_hidesGroup_rightBrace⟩
  rw [Item.withoutComments, uncommented_mark _ _ (by decide)]
  exact readItems_rightBrace

theorem comment {c : Comment} (hc : comment? tokens = .ok (some (c, after)))
    (hafter : ReadsUncommented inside after more left) : ReadsUncommented inside tokens (.comment c :: more) left := by
  obtain ⟨hsame, hdiffers⟩ := hafter
  rw [← uncommented_of_comment? hc, ← hidesGroup_comment_iff hc] at hsame hdiffers
  constructor
  · rwa [Item.withoutComments]
  · rwa [Item.withoutComments]

theorem namespaceBlock {inner closing : Tokens} {i : Identifier} {members : List Item} {start brace : Span}
    (hhead : namespaceHead rest = .ok (i, inner)) (hmembers : readItems true inner = .ok (members, closing))
    (hbrace : expect .rightBrace closing = .ok (brace, after)) (hinner : ReadsUncommented true inner members closing)
    (hafter : ReadsUncommented inside after more left) :
    ReadsUncommented inside (⟨.keyword .namespaceWord, start⟩ :: rest)
      (.namespaceBlock i members ⟨start.start, brace.stop⟩ :: more) left := by
  have hhides := hidesGroup_namespace_iff (t := ⟨.keyword .namespaceWord, start⟩) rfl hhead hmembers hbrace
  have hhead' := namespaceHead_uncommented hhead
  have hbrace' := expect_uncommented (by decide) hbrace
  constructor
  · intro hseen
    obtain ⟨hseenInner, hseenAfter⟩ := not_or.mp (hhides.not.mp hseen)
    rw [uncommented_name _ rfl, readItems_namespace hhead' (hinner.same hseenInner) hbrace', hafter.same hseenAfter,
      Item.withoutComments]
    rfl
  · intro hhidden body' left' hbody' hsame
    rw [uncommented_name _ rfl] at hbody'
    obtain ⟨members', closing', brace', after', more', hmembers', hbrace'', hmore', rfl⟩ :=
      exists_of_readItems_namespace hhead' hbody'
    simp only [Item.withoutComments, Item.unplaced, List.cons.injEq, Item.namespaceBlock.injEq] at hsame
    by_cases hhidesInner : HidesGroup inner
    · exact hinner.differs hhidesInner members' closing' hmembers' hsame.1.2.1
    · -- The namespace is the same in both, and what comes after it differs.
      rw [hinner.same hhidesInner] at hmembers'
      cases hmembers'
      rw [hbrace'] at hbrace''
      cases hbrace''
      exact hafter.differs ((hhides.mp hhidden).resolve_left hhidesInner) more' left' hmore' hsame.2

theorem cons (hword : t.token ≠ .keyword .namespaceWord) (hitem : keywordItem (t :: rest) = .ok (item, after))
    (hanew : StartsAnew (uncommented after)) (hafter : ReadsUncommented inside after more left) :
    ReadsUncommented inside (t :: rest) (item :: more) left := by
  have hname := name_of_keywordItem hitem
  have hhides := hidesGroup_item_iff hword hitem
  constructor
  · intro hseen
    obtain ⟨hseenHere, hseenAfter⟩ := not_or.mp (hhides.not.mp hseen)
    obtain ⟨item', hitem', hwithout⟩ := keywordItem_uncommented hitem hanew hseenHere
    rw [uncommented_name _ hname, readItems_keywordItem hname hword hitem', hafter.same hseenAfter, hwithout]
    rfl
  · intro hhidden body' left' hbody' hsame
    rw [uncommented_name _ hname] at hbody'
    obtain ⟨item', after', more', hitem', hmore', rfl⟩ := exists_of_readItems_name hname hword hbody'
    by_cases hhere : HidesImplements (t :: rest)
    · exact hhere.unplaced_ne hitem hitem' more more' hsame
    · -- The item is the same in both, and what comes after it differs.
      obtain ⟨item'', hitem'', hwithout⟩ := keywordItem_uncommented hitem hanew hhere
      rw [hitem''] at hitem'
      cases hitem'
      rw [hwithout, Item.unplaced_cons item' more', Item.unplaced_cons item' (Item.withoutComments more)] at hsame
      exact hafter.differs ((hhides.mp hhidden).resolve_left hhere) more' left' hmore' (List.append_cancel_left hsame)

end ReadsUncommented

/-- By the loop's own recursion: every item that it reads is a step of `ReadsUncommented`. -/
theorem items_uncommented {inside : Bool} {body : List Item} {left : Remainder tokens}
    (h : items inside tokens = .ok (body, left)) : ReadsUncommented inside tokens body left.1 := by
  fun_induction items inside tokens generalizing body with
  | case1 => cases h
  | case2 inside hinside =>
    obtain rfl : inside = false := by simpa using hinside
    cases h
    exact .nil
  | case3 inside t rest hclosing =>
    obtain ⟨token, span⟩ := t
    obtain ⟨rfl, rfl⟩ : inside = true ∧ token = .mark .rightBrace := by simpa using hclosing
    cases h
    exact .rightBrace span rest
  | case4 => cases h
  | case5 inside t _ _ c after hc _ ih =>
    obtain ⟨⟨more, left⟩, hmore, heq⟩ := Except.map_eq_ok_iff.mp h
    cases heq
    exact (ih hmore).comment hc
  | case6 => cases h
  | case7 => cases h
  | case8 => cases h
  | case9 inside t rest _ _ hword i inner hhead _ members closing _ hmembers brace after hbrace _ ihinner ih =>
    obtain ⟨⟨more, left⟩, hmore, heq⟩ := Except.map_eq_ok_iff.mp h
    cases heq
    obtain ⟨token, start⟩ := t
    obtain rfl : token = .keyword .namespaceWord := hword
    have hread : readItems true inner = .ok (members, closing) := by
      rw [readItems, hmembers]
      rfl
    exact .namespaceBlock hhead hread hbrace (ihinner hmembers) (ih hmore)
  | case10 => cases h
  | case11 inside t rest _ _ hword item after hitem _ ih =>
    obtain ⟨⟨more, left⟩, hmore, heq⟩ := Except.map_eq_ok_iff.mp h
    cases heq
    exact (ih hmore).cons hword hitem (startsAnew_of_items hmore)

end Parser

/-- The tree of tokens without comments is the tree without comments, unless a comment counts somewhere: then the tokens
without comments have another tree, or none. -/
theorem Schema.ofTokens_withoutComments {tokens : List Located} {s : Schema} (h : Schema.ofTokens tokens = .ok s) :
    (¬Parser.HidesGroup (Located.beforeEof tokens) →
      ∃ s', Schema.ofTokens (Located.withoutComments tokens) = .ok s' ∧ s'.body = s.withoutComments.body) ∧
    (Parser.HidesGroup (Located.beforeEof tokens) →
      ¬∃ s', Schema.ofTokens (Located.withoutComments tokens) = .ok s' ∧
        s'.unplaced = s.withoutComments.unplaced) := by
  obtain ⟨left, hitems⟩ := Parser.exists_of_ofTokens h
  obtain ⟨hsame, hdiffers⟩ := Parser.items_uncommented hitems
  rw [← Located.beforeEof_withoutComments] at hsame hdiffers
  refine ⟨fun hseen => ⟨_, Parser.ofTokens_of_readItems (hsame hseen), rfl⟩, ?_⟩
  rintro hhides ⟨s', hs', hequal⟩
  obtain ⟨left', hitems'⟩ := Parser.exists_of_ofTokens hs'
  have hread : Parser.readItems false (Located.beforeEof (Located.withoutComments tokens)) = .ok (s'.body, left'.1) := by
    rw [Parser.readItems, hitems']
    rfl
  exact hdiffers hhides s'.body left'.1 hread (congrArg Schema.body hequal)

/-- `namespace n { // a` and then `type Post { --- old --- post } }`. -/
theorem Schema.ofTokens_withoutComments_namespace :
    let after : List Located := [⟨.mark .rightBrace, ⟨50, 51⟩⟩]
    let group : List Located := [⟨.keyword .typeWord, ⟨19, 23⟩⟩, ⟨.ident "Post", ⟨24, 28⟩⟩,
      ⟨.mark .leftBrace, ⟨29, 30⟩⟩, ⟨.mark .tripleDash, ⟨31, 34⟩⟩, ⟨.ident "old", ⟨35, 38⟩⟩,
      ⟨.mark .tripleDash, ⟨39, 42⟩⟩, ⟨.ident "post", ⟨43, 47⟩⟩, ⟨.mark .rightBrace, ⟨48, 49⟩⟩] ++ after
    let tokens : List Located := [⟨.keyword .namespaceWord, ⟨0, 9⟩⟩, ⟨.ident "n", ⟨10, 11⟩⟩,
      ⟨.mark .leftBrace, ⟨12, 13⟩⟩, ⟨.comment " a", ⟨14, 18⟩⟩] ++ group
    let post : GroupContainer := ⟨⟨[⟨"post", ⟨43, 47⟩⟩], ⟨43, 47⟩⟩, [], ⟨43, 47⟩⟩
    let g : TypeGroup := ⟨⟨"Post", ⟨24, 28⟩⟩, [], [.comment ⟨"old", ⟨31, 42⟩⟩, .container post], ⟨19, 49⟩⟩
    let s : Schema :=
      ⟨[.namespaceBlock ⟨"n", ⟨10, 11⟩⟩ [.comment ⟨" a", ⟨14, 18⟩⟩, .typeGroup g] ⟨0, 51⟩], ⟨0, 51⟩⟩
    Schema.ofTokens (tokens ++ [⟨.eof, ⟨51, 51⟩⟩]) = .ok s ∧
      ∃ s', Schema.ofTokens (Located.withoutComments (tokens ++ [⟨.eof, ⟨51, 51⟩⟩])) = .ok s' ∧
        s'.body = s.withoutComments.body := by
  intro after group tokens post g s
  have hgroup : Parser.keywordItem group = .ok (.typeGroup g, after) := by cbv
  have hbehind : Parser.readItems true group = .ok ([.typeGroup g], after) :=
    (Parser.readItems_keywordItem rfl (by decide) hgroup).trans (by rw [Parser.readItems_rightBrace]; rfl)
  have hbody : Parser.readItems true (⟨.comment " a", ⟨14, 18⟩⟩ :: group) =
      .ok ([.comment ⟨" a", ⟨14, 18⟩⟩, .typeGroup g], after) := by
    rw [Parser.readItems_comment, hbehind]
    rfl
  have hread : Parser.readItems false (Located.beforeEof (tokens ++ [⟨.eof, ⟨51, 51⟩⟩])) = .ok (s.body, []) := by
    have hbefore : Located.beforeEof (tokens ++ [⟨.eof, ⟨51, 51⟩⟩]) = tokens := rfl
    rw [hbefore]
    exact (Parser.readItems_namespace rfl hbody rfl).trans (by rw [Parser.readItems_nil]; rfl)
  have hparse : Schema.ofTokens (tokens ++ [⟨.eof, ⟨51, 51⟩⟩]) = .ok s := Parser.ofTokens_of_readItems hread
  have hseen : ¬Parser.HidesGroup (Located.beforeEof (tokens ++ [⟨.eof, ⟨51, 51⟩⟩])) := fun hhides =>
    absurd hhides.implements_mem (by decide)
  exact ⟨hparse, (Schema.ofTokens_withoutComments hparse).1 hseen⟩

/-- `type X /* c */ implements Foo { }` is two declarations with a comment between them, and a type group without the
comment. -/
theorem Schema.ofTokens_withoutComments_hidden :
    let second : List Located := [⟨.keyword .implementsWord, ⟨15, 25⟩⟩, ⟨.ident "Foo", ⟨26, 29⟩⟩,
      ⟨.mark .leftBrace, ⟨30, 31⟩⟩, ⟨.mark .rightBrace, ⟨32, 33⟩⟩]
    let first : List Located := [⟨.keyword .typeWord, ⟨0, 4⟩⟩, ⟨.ident "X", ⟨5, 6⟩⟩]
    let tokens : List Located := first ++ ⟨.comment " c ", ⟨7, 14⟩⟩ :: second ++ [⟨.eof, ⟨33, 33⟩⟩]
    let x : Declaration := ⟨⟨[⟨"X", ⟨5, 6⟩⟩], ⟨5, 6⟩⟩, ⟨[⟨"type", ⟨0, 4⟩⟩], ⟨0, 4⟩⟩, [], ⟨0, 6⟩⟩
    let foo : Declaration :=
      ⟨⟨[⟨"Foo", ⟨26, 29⟩⟩], ⟨26, 29⟩⟩, ⟨[⟨"implements", ⟨15, 25⟩⟩], ⟨15, 25⟩⟩, [], ⟨15, 33⟩⟩
    let s : Schema := ⟨[.declaration x, .comment ⟨" c ", ⟨7, 14⟩⟩, .declaration foo], ⟨0, 33⟩⟩
    Schema.ofTokens tokens = .ok s ∧
      ¬∃ s', Schema.ofTokens (Located.withoutComments tokens) = .ok s' ∧
        s'.unplaced = s.withoutComments.unplaced := by
  intro second first tokens x foo s
  have hx : Parser.keywordItem (first ++ ⟨.comment " c ", ⟨7, 14⟩⟩ :: second) =
      .ok (.declaration x, ⟨.comment " c ", ⟨7, 14⟩⟩ :: second) := by cbv
  have hfoo : Parser.keywordItem second = .ok (.declaration foo, []) := by cbv
  have hread : Parser.readItems false (Located.beforeEof tokens) = .ok (s.body, []) := by
    have hbefore : Located.beforeEof tokens = first ++ ⟨.comment " c ", ⟨7, 14⟩⟩ :: second := rfl
    rw [hbefore]
    refine (Parser.readItems_keywordItem rfl (by decide) hx).trans ?_
    rw [Parser.readItems_comment, Parser.readItems_keywordItem rfl (by decide) hfoo, Parser.readItems_nil]
    rfl
  let group : TypeGroup := ⟨⟨"X", ⟨5, 6⟩⟩, [⟨[⟨"Foo", ⟨26, 29⟩⟩], ⟨26, 29⟩⟩], [], ⟨0, 33⟩⟩
  have hgroup : Parser.keywordItem (first ++ second) = .ok (.typeGroup group, []) := by cbv
  have hread' : Parser.readItems false (Located.beforeEof (Located.withoutComments tokens)) =
      .ok ([.typeGroup group], []) := by
    have hbefore : Located.beforeEof (Located.withoutComments tokens) = first ++ second := rfl
    rw [hbefore]
    refine (Parser.readItems_keywordItem rfl (by decide) hgroup).trans ?_
    rw [Parser.readItems_nil]
    rfl
  refine ⟨Parser.ofTokens_of_readItems hread, ?_⟩
  rintro ⟨s', hparse, hsame⟩
  rw [Parser.ofTokens_of_readItems hread'] at hparse
  cases hparse
  simp [s, Schema.unplaced, Schema.withoutComments, Item.withoutComments, Item.unplaced] at hsame

end SchemaWire
