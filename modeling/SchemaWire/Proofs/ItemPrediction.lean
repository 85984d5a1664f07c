import SchemaWire.Proofs.Prediction

/-!
# Items end where no more of them comes

An item is read up to its end, whatever comes behind it, but for the few tokens that some item goes on with (`goesOn`):
none of them begins an item, except for the word `implements`. The word `type` alone needs a look at two tokens, and what
it then reads looks at the second one as well (`decided_typeWord`).
-/

namespace SchemaWire.Parser

variable {loud avoided : List Token} {tokens rest others : Tokens} {t : Located} {span : Span}

/-! ## Items -/

theorem opens_pathsAfter (p : TypePath) (hloud : .mark .comma ∈ loud) : Opens avoided loud Prod.mk (pathsAfter p) :=
  .done [p] fun _ h => pathsAfter_last p (h.startsWith_eq_false hloud)

theorem decided_paths (tokens : Tokens) : Decided Prod.mk [.mark .dot, .mark .comma] paths tokens := by
  induction hn : tokens.length using Nat.strongRecOn generalizing tokens with
  | ind n ih =>
    subst hn
    rw [funext paths_eq]
    refine (decided_path tokens).bind (by simp) ?_ fun p => opens_pathsAfter p (by simp)
    intro p rest hp
    have hshorter := length_of_path hp
    by_cases hcomma : startsWith .comma rest = true
    · obtain ⟨span, after, rfl⟩ := exists_of_startsWith hcomma
      exact .cons (fun _ => rfl) ((ih _ (by simp at hshorter; omega) after rfl).map (p :: ·) fun _ _ => rfl)
    · rw [Bool.not_eq_true] at hcomma
      exact .done [p] fun others h => pathsAfter_last p (startsWith_eq_false_of_near h (by simp) hcomma)

theorem opens_groupBody (start : Nat) (name : Identifier) (traits : List TypePath) (havoided : .mark .leftBrace ∉ avoided) :
    Opens avoided goesOn Prod.mk (groupBody start name traits) :=
  .cons (.mark .leftBrace) (fun _ => rfl)
    ((opens_members (by simp)).map (fun x => ⟨name, traits, x.1, ⟨start, x.2⟩⟩) fun _ _ => rfl) (by simp) havoided

theorem decided_groupBody (start : Nat) (name : Identifier) (traits : List TypePath) (tokens : Tokens) :
    Decided Prod.mk goesOn (groupBody start name traits) tokens :=
  (decided_expect .leftBrace tokens).bind (by simp)
    (fun _ rest _ => (decided_members rest).map (fun x => ⟨name, traits, x.1, ⟨start, x.2⟩⟩) fun _ _ => rfl)
    fun _ => (opens_members (by simp)).map (fun x => ⟨name, traits, x.1, ⟨start, x.2⟩⟩) fun _ _ => rfl

/-- A type group after its name, where a brace or `implements` comes next. -/
theorem decided_typeGroup {text : String} (start : Nat) {u v : Located} (hname : u.token.name? = some text)
    (hv : v.token = .mark .leftBrace ∨ v.token = .keyword .implementsWord) (rest : Tokens) :
    Decided Prod.mk goesOn (fun others => typeGroup start (u :: v :: others)) rest := by
  simp only [typeGroup_cons start hname]
  obtain ⟨token, span⟩ := v
  rcases hv with rfl | rfl
  · have hmembers : Decided Prod.mk goesOn (fun others => (members others).map fun found =>
        ((⟨⟨text, u.span⟩, [], found.1, ⟨start, found.2.1⟩⟩ : TypeGroup), found.2.2)) rest :=
      (decided_members rest).map (fun x => ⟨⟨text, u.span⟩, [], x.1, ⟨start, x.2⟩⟩) fun _ _ => rfl
    exact hmembers
  · exact (decided_paths rest).bind (by simp [goesOn, arrowGoesOn, typeGoesOn])
      (fun traits after _ => decided_groupBody start ⟨text, u.span⟩ traits after) fun traits =>
      opens_groupBody start ⟨text, u.span⟩ traits (by simp)

theorem opens_aliasAfter (start : Nat) (name : Identifier) (target : TypeName) :
    Opens avoided goesOn Prod.mk (aliasAfter start name target) :=
  .done _ fun _ h =>
    aliasAfter_last start name target (h.startsWith_eq_false (by simp [goesOn, arrowGoesOn]))

theorem decided_aliasAfter (start : Nat) (name : Identifier) (target : TypeName) (tokens : Tokens) :
    Decided Prod.mk goesOn (aliasAfter start name target) tokens := by
  by_cases hsemicolon : startsWith .semicolon tokens = true
  · obtain ⟨span, rest, rfl⟩ := exists_of_startsWith hsemicolon
    exact .take ⟨name, target, ⟨start, span.stop⟩⟩ fun _ => rfl
  · rw [Bool.not_eq_true] at hsemicolon
    exact .done _ fun others h =>
      aliasAfter_last start name target (startsWith_eq_false_of_near h (by simp [goesOn, arrowGoesOn]) hsemicolon)

theorem decided_aliasDecl (start : Nat) (tokens : Tokens) : Decided Prod.mk goesOn (aliasDecl start) tokens := by
  rw [funext (aliasDecl_eq start)]
  have hsubset : [Token.mark .dot, .mark .leftBracket] ⊆ goesOn := by simp [goesOn, arrowGoesOn, typeGoesOn]
  have hopen (name : Identifier) : Opens [] goesOn Prod.mk
      fun others => typeName others >>= fun found => aliasAfter start name found.1 found.2 :=
    (opens_typeName (by simp) (by simp) (by simp)).bind hsubset fun target => opens_aliasAfter start name target
  refine (decided_name .aliasName tokens).bind (by simp) ?_ ?_
  · intro name rest _
    refine (decided_expect .equals rest).bind (by simp) ?_ ?_
    · exact fun _ after _ => (decided_typeName after).bind hsubset
        (fun target left _ => decided_aliasAfter start name target left) fun target => opens_aliasAfter start name target
    · exact fun _ => hopen name
  · exact fun name => .cons (.mark .equals) (fun _ => rfl) (hopen name) (by simp) (by simp)

theorem opens_traitAfter (start : Nat) (name : Identifier) (havoided : .mark .semicolon ∉ avoided) :
    Opens avoided goesOn Prod.mk (traitAfter start name) :=
  .take (.mark .semicolon) ⟨name, [], ⟨start, 0⟩⟩ (fun _ => rfl) (by simp) havoided

theorem decided_traitAfter (start : Nat) (name : Identifier) (tokens : Tokens) :
    Decided Prod.mk goesOn (traitAfter start name) tokens := by
  cases tokens with
  | nil => exact .refuse_nil (.context .afterTraitName) rfl (by simp) (opens_traitAfter start name (by simp))
  | cons t rest =>
    obtain ⟨token, span⟩ := t
    by_cases hbrace : token = .mark .leftBrace
    · subst hbrace
      exact .cons (fun _ => rfl) (((decided_braceEntries true rest).mono (by simp [goesOn, arrowGoesOn])).map
        (fun x => ⟨name, x.1, ⟨start, x.2⟩⟩) fun _ _ => rfl)
    by_cases hsemicolon : token = .mark .semicolon
    · subst hsemicolon
      exact .take ⟨name, [], ⟨start, span.stop⟩⟩ fun _ => rfl
    · refine .refuse_cons (.context .afterTraitName) (fun more => ?_) (opens_traitAfter start name (by simp))
      unfold traitAfter
      split <;> simp_all

theorem decided_traitDecl (start : Nat) (tokens : Tokens) : Decided Prod.mk goesOn (traitDecl start) tokens := by
  rw [funext (traitDecl_eq start)]
  exact (decided_name .traitName tokens).bind (by simp) (fun name rest _ => decided_traitAfter start name rest)
    fun name => opens_traitAfter start name (by simp)

theorem opens_declarationBody (start : Nat) (ctor name : TypePath) (before : Nat) :
    Opens avoided goesOn Prod.mk (declarationBody start ctor name before) :=
  (opens_containerBody before).map (fun x => ⟨ctor, name, x.1, ⟨start, x.2⟩⟩) fun _ _ => rfl

theorem decided_declarationBody (start : Nat) (ctor name : TypePath) (before : Nat) (tokens : Tokens) :
    Decided Prod.mk goesOn (declarationBody start ctor name before) tokens :=
  (decided_containerBody before tokens).map (fun x => ⟨ctor, name, x.1, ⟨start, x.2⟩⟩) fun _ _ => rfl

theorem dot_subset_goesOn : [Token.mark .dot] ⊆ goesOn := by
  simp [goesOn, arrowGoesOn, typeGoesOn]

theorem opens_declarationAfter (start : Nat) (first : TypePath) (havoided : .mark .colon ∉ avoided) :
    Opens avoided goesOn Prod.mk (declarationAfter start first) :=
  .cons (.mark .colon) (fun _ => rfl)
    ((opens_path (by simp) (by simp)).bind dot_subset_goesOn fun name =>
      opens_declarationBody start first name name.span.stop) (by simp) havoided

theorem decided_declarationAfter (start : Nat) (first : TypePath) (tokens : Tokens) :
    Decided Prod.mk goesOn (declarationAfter start first) tokens := by
  by_cases hcolon : startsWith .colon tokens = true
  · obtain ⟨span, rest, rfl⟩ := exists_of_startsWith hcolon
    exact .cons (fun _ => rfl) ((decided_path rest).bind dot_subset_goesOn
      (fun name after _ => decided_declarationBody start first name name.span.stop after) fun name =>
      opens_declarationBody start first name name.span.stop)
  · rw [Bool.not_eq_true] at hcolon
    have hsecond : Decided Prod.mk goesOn
        (fun others => path others >>= fun found => declarationBody start found.1 first found.1.span.stop found.2)
        tokens :=
      (decided_path tokens).bind dot_subset_goesOn
        (fun ctor after _ => decided_declarationBody start ctor first ctor.span.stop after) fun ctor =>
        opens_declarationBody start ctor first ctor.span.stop
    have hagree {others : Tokens} (h : startsWith .colon others = false) : declarationAfter start first others =
        path others >>= fun found => declarationBody start found.1 first found.1.span.stop found.2 := by
      simp [declarationAfter, h]
    refine hsecond.of_head ?_ ?_ (opens_declarationAfter start first (by simp))
    · exact fun others hhead => hagree (by rw [startsWith_congr hhead, hcolon])
    · intro d hread
      rw [← hagree hcolon] at hread
      exact absurd (length_of_declarationAfter hread) (Nat.lt_irrefl _)

theorem decided_declaration_cons {text : String} (hname : t.token.name? = some text) (rest : Tokens) :
    Decided Prod.mk goesOn (fun others => declaration (t :: others)) rest := by
  simp only [declaration_cons]
  exact (decided_path_cons hname rest).bind dot_subset_goesOn
    (fun first after _ => decided_declarationAfter t.span.start first after) fun first =>
    opens_declarationAfter t.span.start first (by simp)

theorem decided_declaration_cons_name {first second : String} {u : Located} (ht : t.token.name? = some first)
    (hu : u.token.name? = some second) (rest : Tokens) :
    Decided Prod.mk goesOn (fun others => declaration (t :: u :: others)) rest := by
  simp only [declaration_cons_name ht hu]
  exact (decided_path_cons hu rest).bind dot_subset_goesOn
    (fun ctor after _ => decided_declarationBody t.span.start ctor _ ctor.span.stop after) fun ctor =>
    opens_declarationBody t.span.start ctor _ ctor.span.stop

theorem declaration_of_names {first second : String} {u : Located} (ht : t.token.name? = some first)
    (hu : u.token.name? = some second) (h : Avoids goesOn others) :
    declaration (t :: u :: others) =
      .ok (⟨pathOf ⟨second, u.span⟩ [], pathOf ⟨first, t.span⟩ [], [], ⟨t.span.start, u.span.stop⟩⟩, others) := by
  have hnone := containerBody_none u.span.stop (h.startsWith_eq_false (by simp [goesOn]))
    (h.startsWith_eq_false (by simp [goesOn])) (h.startsWith_eq_false (by simp [goesOn, arrowGoesOn]))
  rw [declaration_cons_name ht hu, path_cons hu,
    moreSegments_of_not_dot (h.startsWith_eq_false (by simp [goesOn, arrowGoesOn, typeGoesOn]))]
  exact congrArg (Except.map _) hnone

theorem startsGroup_of_avoids {u : Located} (h : Avoids goesOn others) : startsGroup (u :: others) = false := by
  cases others with
  | nil => rfl
  | cons v after =>
    have hbrace : v.token ≠ .mark .leftBrace := fun heq => h v rfl (by simp [heq, goesOn])
    have hword : v.token ≠ .keyword .implementsWord := fun heq => h v rfl (by simp [heq, goesOn])
    simp [startsGroup, hbrace, hword]

theorem opens_typeWord_name {text : String} {u : Located} (span : Span) (hu : u.token.name? = some text) :
    Opens avoided goesOn Prod.mk fun others => keywordItem (⟨.keyword .typeWord, span⟩ :: u :: others) :=
  .done (.declaration ⟨pathOf ⟨text, u.span⟩ [], pathOf ⟨"type", span⟩ [], [], ⟨span.start, u.span.stop⟩⟩)
    fun others h => by
      rw [keywordItem_typeWord span (startsGroup_of_avoids h), declaration_of_names rfl hu h]
      rfl

/-- The word `type` begins a type group or is a name. What decides is the name after it and one token more, which
another reader would have looked at as well. -/
theorem decided_typeWord (span : Span) (rest : Tokens) :
    Decided Prod.mk goesOn (fun others => keywordItem (⟨.keyword .typeWord, span⟩ :: others)) rest := by
  by_cases hgroup : startsGroup rest = true
  · obtain ⟨u, v, after, rfl, hu, hv⟩ := exists_of_startsGroup hgroup
    obtain ⟨text, hu⟩ := Option.isSome_iff_exists.mp hu
    have hmembers : Decided Prod.mk goesOn (fun others => (typeGroup span.start (u :: v :: others)).map
        fun found => (Item.typeGroup found.1, found.2)) after :=
      (decided_typeGroup span.start hu hv after).map .typeGroup fun _ _ => rfl
    exact .cons (fun _ => rfl) (.cons (fun _ => keywordItem_group hgroup) hmembers)
  rw [Bool.not_eq_true] at hgroup
  by_cases hname : ∀ u ∈ rest.head?, u.token.name? = none
  · have hdeclaration : Decided Prod.mk goesOn (fun others => (declaration (⟨.keyword .typeWord, span⟩ :: others)).map
        fun found => (Item.declaration found.1, found.2)) rest :=
      (decided_declaration_cons rfl rest).map .declaration fun _ _ => rfl
    refine hdeclaration.of_head ?_ ?_ ?_
    · exact fun others hhead => keywordItem_typeWord span (startsGroup_of_not_name (hhead ▸ hname))
    · intro x hread
      obtain ⟨found, hfound, heq⟩ := exists_of_map_eq_ok hread
      cases heq
      exact absurd (length_of_declaration_cons hfound) (Nat.lt_irrefl _)
    · exact .cons (.ident "x") (fun _ => rfl) (opens_typeWord_name span rfl) (by simp) (by simp)
  · obtain ⟨u, hnot⟩ := not_forall.mp hname
    obtain ⟨hhead, hsome⟩ := Classical.not_imp.mp hnot
    obtain ⟨text, hu⟩ := Option.ne_none_iff_exists'.mp hsome
    obtain ⟨after, rfl⟩ := List.head?_eq_some_iff.mp hhead
    have hdeclaration : Decided Prod.mk goesOn
        (fun others => (declaration (⟨.keyword .typeWord, span⟩ :: u :: others)).map
          fun found => (Item.declaration found.1, found.2)) after :=
      (decided_declaration_cons_name rfl hu after).map .declaration fun _ _ => rfl
    refine .cons (fun _ => rfl) (hdeclaration.of_head ?_ ?_ (opens_typeWord_name span hu))
    · exact fun others hhead => keywordItem_typeWord span ((startsGroup_congr hhead).trans hgroup)
    · exact fun _ _ others h => keywordItem_typeWord span (startsGroup_of_avoids h)

theorem opens_traitWord (span : Span) :
    Opens avoided loud Prod.mk fun others => keywordItem (⟨.keyword .traitWord, span⟩ :: ⟨.ident "x", span⟩ ::
      ⟨.mark .semicolon, span⟩ :: others) :=
  .done (.traitDecl ⟨⟨"x", span⟩, [], ⟨span.start, span.stop⟩⟩) fun _ _ => rfl

theorem opens_keywordItem : Opens [] loud Prod.mk keywordItem :=
  .cons (.keyword .traitWord) (fun _ => rfl) (.cons (.ident "x") (fun _ => rfl)
    (.cons (.mark .semicolon) (fun _ => rfl) (opens_traitWord ⟨0, 0⟩) (by simp) (by simp)) (by simp) (by simp)) (by simp) (by simp)

theorem decided_keywordItem (tokens : Tokens) : Decided Prod.mk goesOn keywordItem tokens := by
  cases tokens with
  | nil => exact .refuse_nil (.context .declaration) rfl (by simp) opens_keywordItem
  | cons t rest =>
    obtain ⟨token, span⟩ := t
    cases hname : token.name? with
    | none => exact .refuse_cons (.context .declaration) (fun _ => keywordItem_error hname) opens_keywordItem
    | some text =>
      by_cases halias : token = .keyword .aliasWord
      · subst halias
        exact .cons (fun _ => rfl) ((decided_aliasDecl span.start rest).map .aliasDecl fun _ _ => rfl)
      by_cases htrait : token = .keyword .traitWord
      · subst htrait
        exact .cons (fun _ => rfl) ((decided_traitDecl span.start rest).map .traitDecl fun _ _ => rfl)
      by_cases htype : token = .keyword .typeWord
      · subst htype
        exact .cons (fun _ => rfl) (decided_typeWord span rest)
      · have hdeclaration : Decided Prod.mk goesOn (fun others => (declaration (⟨token, span⟩ :: others)).map
            fun found => (Item.declaration found.1, found.2)) rest :=
          (decided_declaration_cons hname rest).map .declaration fun _ _ => rfl
        exact .cons (fun others => keywordItem_declaration (by simp [hname]) (fun h => absurd h htype) halias htrait)
          hdeclaration

/-! ## Namespaces -/

theorem opens_block (havoided : .mark .rightBrace ∉ avoided) : Opens avoided loud beside block :=
  .take (.mark .rightBrace) ([], ⟨0, 0⟩) (fun _ => block_rightBrace) (by simp) havoided

theorem decided_namespaceHead (tokens : Tokens) : Decided Prod.mk [] namespaceHead tokens := by
  refine (decided_name .namespaceName tokens).bind (by simp) ?_ ?_
  · exact fun name rest _ => (decided_expect .leftBrace rest).bind_done (fun _ => name) fun _ _ => rfl
  · exact fun name => .take (.mark .leftBrace) name (fun _ => rfl) (by simp) (by simp)

theorem decided_namespaceAfter (start : Nat) (tokens : Tokens)
    (hblock : ∀ inner : Tokens, inner.length < tokens.length → Decided beside goesOn block inner) :
    Decided Prod.mk goesOn (namespaceAfter start) tokens :=
  (decided_namespaceHead tokens).bind (by simp)
    (fun name inner hhead => (hblock inner (length_of_namespaceHead hhead)).map
      (fun x => .namespaceBlock name x.1 ⟨start, x.2.stop⟩) fun _ _ => rfl)
    fun name => (opens_block (by simp)).map (fun x => .namespaceBlock name x.1 ⟨start, x.2.stop⟩) fun _ _ => rfl

theorem opens_nextItem : Opens [] loud Prod.mk nextItem :=
  .take (.comment "") (.comment ⟨"", ⟨0, 0⟩⟩) (fun _ => rfl) (by simp) (by simp)

/-- An item is read up to its end, if the blocks of namespaces in it are. -/
theorem decided_nextItem (tokens : Tokens)
    (hblock : ∀ inner : Tokens, inner.length < tokens.length → Decided beside goesOn block inner) :
    Decided Prod.mk goesOn nextItem tokens := by
  cases tokens with
  | nil => exact .refuse_nil (.context .declaration) rfl (by simp) opens_nextItem
  | cons t rest =>
    by_cases hword : t.token = .keyword .namespaceWord
    · obtain ⟨token, span⟩ := t
      cases hword
      exact .cons (fun _ => rfl) (decided_namespaceAfter span.start rest fun inner h => hblock inner (by simp; omega))
    by_cases hc : comment? (t :: rest) = .ok none
    · exact (decided_keywordItem (t :: rest)).of_first
        (fun more => nextItem_of_none (comment?_none_congr hc more) hword) (fun _ _ h => length_of_nextItem h) opens_nextItem
    · rcases comment_or_tripleDash hc with ⟨text, span, rest, heq⟩ | ⟨span, rest, heq⟩
      · cases heq
        exact .take (.comment ⟨text, span⟩) fun _ => rfl
      · cases heq
        have hwords : Decided Prod.mk [] (fun others => (dashWords others).map fun found =>
            (Item.comment ⟨" ".intercalate found.1, ⟨span.start, found.2.1⟩⟩, found.2.2)) rest :=
          (decided_dashWords rest).map (fun x => .comment ⟨" ".intercalate x.1, ⟨span.start, x.2⟩⟩) fun _ _ => rfl
        exact .cons (fun _ => rfl) (hwords.mono (by simp))

/-- An item and the rest of the block that it stands in. -/
theorem decided_itemBlock {tokens : Tokens} (hitem : Decided Prod.mk goesOn nextItem tokens)
    (hrest : ∀ item rest, nextItem tokens = .ok (item, rest) → Decided beside goesOn block rest) :
    Decided beside goesOn (fun others => nextItem others >>= fun (item, rest) =>
      (block rest).map fun (more, brace, left) => (item :: more, brace, left)) tokens :=
  hitem.bind (List.Subset.refl _)
    (fun item rest h => (hrest item rest h).map (fun x => (item :: x.1, x.2)) fun _ _ => rfl)
    fun item => (opens_block (by simp [goesOn, arrowGoesOn, typeGoesOn])).map (fun x => (item :: x.1, x.2))
      fun _ _ => rfl

theorem decided_block (tokens : Tokens) : Decided beside goesOn block tokens := by
  induction hn : tokens.length using Nat.strongRecOn generalizing tokens with
  | ind n ih =>
    subst hn
    cases tokens with
    | nil =>
      refine .refuse_nil (.mark .rightBrace) ?_ (by simp) (opens_block (by simp))
      unfold block
      rw [readItems_unclosed]
      rfl
    | cons t rest =>
      by_cases hclosing : t.token = .mark .rightBrace
      · obtain ⟨token, span⟩ := t
        cases hclosing
        exact .take ([], span) fun _ => block_rightBrace
      have hstep := decided_itemBlock (decided_nextItem (t :: rest) fun inner h => ih _ h inner rfl)
        fun item left hitem => ih _ (length_of_nextItem hitem) left rfl
      exact hstep.of_first (fun _ => block_cons hclosing) (fun _ _ h => length_of_block h) (opens_block (by simp))

end SchemaWire.Parser
