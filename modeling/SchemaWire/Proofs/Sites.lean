import SchemaWire.Proofs.Dependence
import SchemaWire.Proofs.Outline
import SchemaWire.Proofs.Rejection

/-!
# Places are in the source

A site is a piece of a source, not empty, that begins with no separator. A token stands at one, and so does a piece of
text that is no token, and everything from one token to the same or a later one. So all places in a tree are sites
(`isSite_of_ofTokens`), and an error of the parser stands at one or at the end of the source (`lands_of_ofTokens_error`).
Lowering takes the places that its errors show from the tree (`Schema.stands_lower`).
-/

namespace SchemaWire

/-! ## Sites -/

theorem Utf8.prefix_of_size_le {as bs cs : List Char} (ha : as <+: cs) (hb : bs <+: cs)
    (h : Utf8.size as ≤ Utf8.size bs) : as <+: bs := by
  rcases List.prefix_or_prefix_of_prefix ha hb with hprefix | ⟨more, rfl⟩
  · exact hprefix
  · cases more with
    | nil => simp
    | cons c more =>
      have := c.utf8Size_pos
      simp only [Utf8.size_append, Utf8.size_cons] at h
      omega

namespace Span

variable {source : List Char} {s u : Span}

/-- A place that holds a piece of the source, not empty, that begins with no separator. -/
def IsSite (source : List Char) (s : Span) : Prop :=
  ∃ before c tail after, source = before ++ c :: tail ++ after ∧ Lexer.isSkipped c = false ∧
    s = ⟨Utf8.size before, Utf8.size (before ++ c :: tail)⟩

/-- The place from one site to another behind it. -/
theorem IsSite.join (hs : s.IsSite source) (hu : u.IsSite source) (h : s.stop ≤ u.start) :
    IsSite source ⟨s.start, u.stop⟩ := by
  obtain ⟨before, c, tail, after, hsource, hskip, rfl⟩ := hs
  obtain ⟨before', d, tail', after', hsource', -, rfl⟩ := hu
  have hprefix : before' <+: source := ⟨d :: tail' ++ after', by rw [hsource', List.append_assoc]⟩
  obtain ⟨gap, rfl⟩ := Utf8.prefix_of_size_le ⟨after, hsource.symm⟩ hprefix h
  refine ⟨before, c, tail ++ gap ++ d :: tail', after', ?_, hskip, ?_⟩
  · rw [hsource']
    simp
  · simp

/-- A place in the source, which is empty only at its end, and begins with no separator anywhere else. -/
def Lands (source : List Char) (s : Span) : Prop :=
  s.IsSite source ∨ s = ⟨Utf8.size source, Utf8.size source⟩

end Span

/-! ## Tokens -/

namespace Lexer

variable {source : List Char} {tokens : List Located}

theorem isSite_of_mem {t : Located} (h : lex source = .ok tokens) (ht : t ∈ tokens) (hne : t.token ≠ .eof) :
    t.span.IsSite source := by
  obtain ⟨before, c, tail, rest, hsource, hspan, hskip, -⟩ := exists_scan_of_mem h ht hne
  rw [Nat.zero_add, Nat.zero_add] at hspan
  exact ⟨before, c, tail, rest, hsource, hskip, hspan⟩

/-- From one token to the same or a later one is a site. -/
theorem runs_isSite (h : lex source = .ok tokens) :
    Outline.Runs (Span.IsSite source) (Located.beforeEof tokens) := by
  have hsite (t : Located) (ht : t ∈ Located.beforeEof tokens) : t.span.IsSite source :=
    isSite_of_mem h ((List.takeWhile_prefix _).subset ht) (Located.ne_eof_of_mem_beforeEof ht)
  have hread : lexFrom (Utf8.size ([] ++ [])) source = .ok tokens := h
  have hpairwise : (Located.beforeEof tokens).Pairwise fun t u => t.span.stop ≤ u.span.start :=
    (tiles_of_lexFrom (List.forall_mem_nil _) hread).pairwise.sublist (List.takeWhile_sublist _)
  intro gap piece rest span heq hcovers
  rw [heq] at hsite hpairwise
  have hpiece : piece.Pairwise fun t u => t.span.stop ≤ u.span.start :=
    hpairwise.sublist ((List.sublist_append_right gap piece).trans (List.sublist_append_left _ rest))
  obtain ⟨start, stop⟩ := span
  obtain ⟨hstart, hstop⟩ := hcovers
  cases piece with
  | nil => cases hstart
  | cons t more =>
    obtain rfl : t.span.start = start := Option.some.inj hstart
    have ht : t.span.IsSite source := hsite t (by simp)
    rcases List.eq_nil_or_concat more with rfl | ⟨init, u, rfl⟩
    · obtain rfl : t.span.stop = stop := hstop 0
      exact ht
    · obtain rfl : u.span.stop = stop := by simpa using hstop 0
      exact ht.join (hsite u (by simp)) (List.rel_of_pairwise_cons hpiece (by simp))

/-- A piece of text that is no token stands where one would stand. -/
theorem isSite_of_lexFrom_error {done text : List Char} {e : LexError}
    (h : lexFrom (Utf8.size done) text = .error e) : e.span.IsSite (done ++ text) := by
  generalize hpos : Utf8.size done = pos at h
  induction pos, text using lexFrom.induct generalizing done with
  | case1 pos =>
    rw [lexFrom_nil] at h
    cases h
  | case2 pos c cs hskip ih =>
    rw [lexFrom_skipped hskip] at h
    have hsite : e.span.IsSite (done ++ [c] ++ cs) := ih (by simp [hpos]) h
    simpa using hsite
  | case3 pos c cs hskip step kind =>
    rename_i hkind
    rw [lexFrom_of_error hskip hkind] at h
    cases h
    obtain ⟨happend, hne⟩ := scan_lexeme c cs
    obtain ⟨d, tail, hlexeme⟩ := List.exists_cons_of_ne_nil hne
    rw [hlexeme, List.cons_append] at happend
    obtain ⟨rfl, htail⟩ := List.cons.inj happend
    refine ⟨done, d, tail, (scan d cs).rest, by simp [htail], by simpa using hskip, ?_⟩
    rw [Utf8.size_append, hpos, hlexeme]
  | case4 pos c cs hskip step span token =>
    rename_i htoken ih
    rw [lexFrom_of_ok hskip htoken] at h
    have hsite : e.span.IsSite (done ++ (scan c cs).lexeme ++ (scan c cs).rest) :=
      ih (by simp [hpos, span, step]) (Except.map_eq_error_iff.mp h)
    rwa [List.append_assoc, (scan_lexeme c cs).1] at hsite

theorem isSite_of_lex_error {e : LexError} (h : lex source = .error e) : e.span.IsSite source := by
  have hread : lexFrom (Utf8.size []) source = .error e := h
  exact isSite_of_lexFrom_error hread

end Lexer

/-! ## Trees -/

/-- What holds of the places of all items holds of those in namespaces. -/
theorem Item.all_of_mem_flatten {P : Span → Prop} {body : List Item} (h : ∀ item ∈ body, item.outline.All P) :
    ∀ item ∈ flatten body, item.outline.All P := by
  fun_induction flatten body with
  | case1 => simp
  | case2 name body span rest ihbody ih =>
    rw [List.forall_mem_cons] at h
    simp only [List.forall_mem_append, List.cons_append, List.forall_mem_cons]
    exact ⟨h.1, ihbody (namespaceBlock_of_all h.1), ih h.2⟩
  | case3 item rest _ ih =>
    rw [List.forall_mem_cons] at h ⊢
    exact ⟨h.1, ih h.2⟩

variable {source : List Char} {tokens : List Located}

/-- All places in the tree of a source are sites. -/
theorem isSite_of_ofTokens {s : Schema} (hlex : lex source = .ok tokens) (h : Schema.ofTokens tokens = .ok s) :
    ∀ item ∈ s.body, item.outline.All (Span.IsSite source) := by
  obtain ⟨left, hitems⟩ := Parser.exists_of_ofTokens h
  obtain ⟨used, htokens, horder⟩ := Parser.items_fits hitems
  have hruns := Lexer.runs_isSite hlex
  rw [htokens, ← List.nil_append used] at hruns
  have hall := Outline.allNodes_iff.mp (Outline.allNodes_of_inOrder hruns.infix horder)
  rw [Item.bodyOutlines_eq] at hall
  simpa using hall

/-- An error of the parser stands at a token. -/
theorem lands_of_ofTokens_error {e : ParseError} (hlex : lex source = .ok tokens) (h : Schema.ofTokens tokens = .error e) :
    e.span.Lands source := by
  obtain ⟨⟨wanted, rest⟩, hread, rfl⟩ := Parser.ofTokens_eq_error_iff.mp h
  obtain ⟨used, hused, -⟩ := Parser.readItems_refused hread
  cases rest with
  | nil =>
    have hplain (t : Located) : t ∈ Located.beforeEof tokens → t.token ≠ .eof := Located.ne_eof_of_mem_beforeEof
    have hend := Located.endSpan_append_eof hplain ⟨0 + Utf8.size source, 0 + Utf8.size source⟩
    rw [← Lexer.eq_beforeEof_append hlex, Nat.zero_add] at hend
    exact .inr hend
  | cons t rest =>
    have ht : t ∈ Located.beforeEof tokens := by
      rw [hused]
      simp
    exact .inl (Lexer.isSite_of_mem hlex ((List.takeWhile_prefix _).subset ht) (Located.ne_eof_of_mem_beforeEof ht))

/-! ## Places of lowering errors -/

section Lowering

variable {P : Span → Prop}

/-- Something holds of all places that an error shows. -/
def LoweringError.Stands (P : Span → Prop) (e : LoweringError) : Prop :=
  P e.place ∧ ∀ note ∈ e.notes, P note.1

namespace AliasTable

variable {t : AliasTable} (ht : ∀ a ∈ t.entries, a.outline.All P)

theorem stands_applySize {sized : SizedType} (h : sized.outline.All P) (r : Resolved) :
    FailsOnly (LoweringError.Stands P) (applySize sized r) := by
  obtain ⟨hspan, hname, hsize⟩ := SizedType.of_all h
  unfold applySize
  split
  · split
    · exact .error ⟨hspan, List.forall_mem_nil _⟩
    · split
      · exact .error ⟨hsize, List.forall_mem_nil _⟩
      · exact .ok _
  · exact .error ⟨hname, List.forall_mem_nil _⟩

include ht

theorem stands_resolveName {chain : List String} {name : String} {place : Span} (hplace : P place) :
    FailsOnly (LoweringError.Stands P) (t.resolveName chain name place) := by
  fun_induction resolveName t chain name place with
  | case1 => exact .ok _
  | case2 => exact .ok _
  | case3 => exact .error ⟨hplace, List.forall_mem_nil _⟩
  | case4 _ _ _ _ a ha _ _ path htarget _ ih =>
    have htype := (Alias.of_all (ht a (mem_entries_of_get? ha))).2
    rw [htarget] at htype
    exact ih htype.span
  | case5 => exact .ok _
  | case6 _ _ _ _ a ha _ _ sized htarget ih =>
    have htype := (Alias.of_all (ht a (mem_entries_of_get? ha))).2
    rw [htarget] at htype
    exact (ih (SizedType.of_all htype).2.1).bind fun r _ => stands_applySize htype r

theorem stands_resolve {type : TypeName} (h : type.outline.All P) :
    FailsOnly (LoweringError.Stands P) (t.resolve type) := by
  unfold resolve
  split
  · split
    · exact stands_resolveName ht h.span
    · exact .ok _
  · exact (stands_resolveName ht (SizedType.of_all h).2.1).bind fun r _ => stands_applySize h r

theorem stands_check {a : Alias} (h : a.outline.All P) : FailsOnly (LoweringError.Stands P) (t.check a) := by
  have htarget := (Alias.of_all h).2
  refine (stands_resolve ht htarget).bind fun r _ => ?_
  cases r with
  | reference target => exact .error ⟨a.target.span_outline ▸ htarget.span, List.forall_mem_nil _⟩
  | _ => exact .ok _

theorem stands_shape {type : PropertyType} (h : type.outline.All P) :
    FailsOnly (LoweringError.Stands P) (t.shape type) := by
  cases type with
  | single type =>
    refine (stands_resolve ht h).bind fun r _ => ?_
    cases r <;> exact .ok _
  | vector v =>
    have hitem : v.item.outline.All P := by
      simpa using (Outline.all_iff.mp h).2
    refine (stands_resolve ht hitem).bind fun r _ => ?_
    cases r with
    | strict type size => exact .error ⟨v.item.span_outline ▸ hitem.span, List.forall_mem_nil _⟩
    | _ => exact .ok _

theorem stands_lowerBody {pending : List String} {body : List BodyEntry} (h : ∀ entry ∈ body, entry.outline.All P) :
    FailsOnly (LoweringError.Stands P) (t.lowerBody pending body) := by
  induction body generalizing pending with
  | nil => exact .ok _
  | cons entry rest ih =>
    rw [List.forall_mem_cons] at h
    cases entry with
    | comment c => exact ih h.2
    | property p =>
      have hparam : FailsOnly (LoweringError.Stands P) (t.lowerProperty pending p) :=
        (stands_shape ht (Property.of_all h.1)).bind fun _ _ => .ok _
      exact hparam.bind fun _ _ => (ih h.2).bind fun _ _ => .ok _

theorem stands_lowerMembers {typeName : String} {traits groupDoc pending : List String} {body : List GroupMember}
    (h : ∀ member ∈ body, member.outline.All P) :
    FailsOnly (LoweringError.Stands P) (t.lowerMembers typeName traits groupDoc pending body) := by
  induction body generalizing pending with
  | nil => exact .ok _
  | cons member rest ih =>
    rw [List.forall_mem_cons] at h
    cases member with
    | comment c => exact ih h.2
    | container c =>
      exact (stands_lowerBody ht (GroupContainer.of_all h.1).2).bind fun _ _ => (ih h.2).bind fun _ _ => .ok _

theorem stands_lowerItems {pending : List String} {items : List Item} (h : ∀ item ∈ items, item.outline.All P) :
    FailsOnly (LoweringError.Stands P) (t.lowerItems pending items) := by
  fun_induction lowerItems t pending items with
  | case1 => exact .ok _
  | case2 pending c rest ih => exact ih (List.forall_mem_cons.mp h).2
  | case3 pending d rest ih =>
    rw [List.forall_mem_cons] at h
    have hbody : FailsOnly (LoweringError.Stands P) (t.lowerBody [] d.body) :=
      stands_lowerBody ht (Declaration.of_all h.1).2
    exact (hbody.bind fun _ _ => .ok _).bind fun _ _ => (ih h.2).bind fun _ _ => .ok _
  | case4 pending g rest ih =>
    rw [List.forall_mem_cons] at h
    exact (stands_lowerMembers ht (TypeGroup.of_all h.1)).bind fun _ _ => (ih h.2).bind fun _ _ => .ok _
  | case5 pending name body span rest ihbody ih =>
    rw [List.forall_mem_cons] at h
    exact (ihbody (Item.namespaceBlock_of_all h.1)).bind fun _ _ => (ih h.2).bind fun _ _ => .ok _
  | case6 pending d rest ih =>
    rw [List.forall_mem_cons] at h
    have hbody : FailsOnly (LoweringError.Stands P) (t.lowerBody [] d.body) :=
      stands_lowerBody ht (TraitDeclaration.of_all h.1)
    exact (hbody.bind fun _ _ => .ok _).bind fun _ _ => (ih h.2).bind fun _ _ => .ok _
  | case7 pending a rest ih => exact ih (List.forall_mem_cons.mp h).2

omit ht

/-- A container stands at the name of its constructor. -/
theorem place_of_lowerMembers {typeName : String} {traits groupDoc pending : List String} {body : List GroupMember}
    {containers : List (Container × Span)} (h : ∀ member ∈ body, member.outline.All P)
    (hlower : t.lowerMembers typeName traits groupDoc pending body = .ok containers) :
    ∀ declared ∈ containers, P declared.2 := by
  induction body generalizing pending containers with
  | nil =>
    cases hlower
    exact List.forall_mem_nil _
  | cons member rest ih =>
    rw [List.forall_mem_cons] at h
    cases member with
    | comment c => exact ih h.2 hlower
    | container c =>
      obtain ⟨params, -, hlower⟩ := Except.bind_eq_ok_iff.mp hlower
      obtain ⟨more, hmore, hlower⟩ := Except.bind_eq_ok_iff.mp hlower
      cases hlower
      exact List.forall_mem_cons.mpr ⟨(GroupContainer.of_all h.1).1, ih h.2 hmore⟩

theorem place_of_lowerItems {pending : List String} {items : List Item} {s : Scope}
    (h : ∀ item ∈ items, item.outline.All P) (hlower : t.lowerItems pending items = .ok s) :
    ∀ declared ∈ s.containers, P declared.2 := by
  fun_induction lowerItems t pending items generalizing s with
  | case1 =>
    cases hlower
    exact List.forall_mem_nil _
  | case2 pending c rest ih => exact ih (List.forall_mem_cons.mp h).2 hlower
  | case3 pending d rest ih =>
    rw [List.forall_mem_cons] at h
    obtain ⟨c, -, hlower⟩ := Except.bind_eq_ok_iff.mp hlower
    obtain ⟨more, hmore, hlower⟩ := Except.bind_eq_ok_iff.mp hlower
    cases hlower
    exact List.forall_mem_cons.mpr ⟨(Declaration.of_all h.1).1, ih h.2 hmore⟩
  | case4 pending g rest ih =>
    rw [List.forall_mem_cons] at h
    obtain ⟨members, hmembers, hlower⟩ := Except.bind_eq_ok_iff.mp hlower
    obtain ⟨more, hmore, hlower⟩ := Except.bind_eq_ok_iff.mp hlower
    cases hlower
    exact List.forall_mem_append.mpr ⟨place_of_lowerMembers (TypeGroup.of_all h.1) hmembers, ih h.2 hmore⟩
  | case5 pending name body span rest ihbody ih =>
    rw [List.forall_mem_cons] at h
    obtain ⟨inner, hinner, hlower⟩ := Except.bind_eq_ok_iff.mp hlower
    obtain ⟨more, hmore, hlower⟩ := Except.bind_eq_ok_iff.mp hlower
    cases hlower
    have hinside := ihbody (Item.namespaceBlock_of_all h.1) hinner
    exact List.forall_mem_append.mpr ⟨List.forall_mem_map.mpr hinside, ih h.2 hmore⟩
  | case6 pending d rest ih =>
    rw [List.forall_mem_cons] at h
    obtain ⟨declared, -, hlower⟩ := Except.bind_eq_ok_iff.mp hlower
    obtain ⟨more, hmore, hlower⟩ := Except.bind_eq_ok_iff.mp hlower
    cases hlower
    have hrest := ih h.2 hmore
    exact hrest
  | case7 pending a rest ih => exact ih (List.forall_mem_cons.mp h).2 hlower

theorem stands_register {a : Alias} (ht : ∀ a ∈ t.entries, a.outline.All P) (h : a.outline.All P) :
    FailsOnly (LoweringError.Stands P) (t.register a) := by
  unfold register
  split
  · rename_i first hfirst
    have hplace := (Alias.of_all (ht first (mem_entries_of_get? hfirst))).1
    exact .error ⟨(Alias.of_all h).1, by simpa [LoweringError.notes] using hplace⟩
  · exact .ok _

theorem stands_registerAll {aliases : List Alias} (ht : ∀ a ∈ t.entries, a.outline.All P)
    (h : ∀ a ∈ aliases, a.outline.All P) : FailsOnly (LoweringError.Stands P) (t.registerAll aliases).2 := by
  induction aliases generalizing t with
  | nil => exact .ok _
  | cons a rest ih =>
    rw [List.forall_mem_cons] at h
    unfold registerAll
    cases hnext : t.register a with
    | error e => exact .error (stands_register ht h.1 e hnext)
    | ok next =>
      refine ih ?_ h.2
      rw [register_eq_ok_iff.mp hnext]
      exact List.forall_mem_append.mpr ⟨ht, by simpa using h.1⟩

end AliasTable

theorem Scope.stands_identify {seen : List (String × Span)} {containers : List (Container × Span)}
    (hseen : ∀ named ∈ seen, P named.2) (h : ∀ declared ∈ containers, P declared.2) :
    FailsOnly (LoweringError.Stands P) (identify seen containers) := by
  induction containers generalizing seen with
  | nil => exact .ok _
  | cons declared rest ih =>
    obtain ⟨c, place⟩ := declared
    rw [List.forall_mem_cons] at h
    unfold identify
    split
    · rename_i first hlookup
      obtain ⟨before, after, rfl, -⟩ := List.lookup_eq_some_iff.mp hlookup
      have hfirst : P first := hseen (c.name, first) (by simp)
      exact .error ⟨h.1, by simpa [LoweringError.notes] using hfirst⟩
    · exact (ih (List.forall_mem_cons.mpr ⟨h.1, hseen⟩) h.2).map _

/-- Whatever holds of all places in a tree holds of the places that an error in lowering it shows. -/
theorem Schema.stands_lower {s : Schema} (h : ∀ item ∈ s.body, item.outline.All P) :
    FailsOnly (LoweringError.Stands P) s.lower.result := by
  have haliases : ∀ a ∈ Item.aliases s.body, a.outline.All P :=
    fun a ha => Item.all_of_mem_flatten h _ (Item.mem_aliases_iff.mp ha)
  unfold lower
  split
  · rename_i aliases e hregistered
    have hstands := AliasTable.stands_registerAll (t := .empty) (List.forall_mem_nil _) haliases
    rw [hregistered] at hstands
    exact .error (hstands e rfl)
  · rename_i aliases hregistered
    have hentries := AliasTable.registerAll_eq_ok_iff.mp hregistered
    rw [AliasTable.empty, List.nil_append] at hentries
    rw [← hentries] at haliases
    have hscope : FailsOnly (LoweringError.Stands P) (s.scope aliases) :=
      (FailsOnly.forM fun a ha => AliasTable.stands_check haliases (haliases a ha)).bind fun _ _ =>
        AliasTable.stands_lowerItems haliases h
    split
    · rename_i e he
      exact .error (hscope e he)
    · rename_i scope hscope
      obtain ⟨_, -, hitems⟩ := Except.bind_eq_ok_iff.mp hscope
      exact Scope.stands_identify (List.forall_mem_nil _) (AliasTable.place_of_lowerItems h hitems)

end Lowering

end SchemaWire
