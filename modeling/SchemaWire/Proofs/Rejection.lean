import SchemaWire.Proofs.ItemPrediction
import SchemaWire.Proofs.LineBreaks
import SchemaWire.Proofs.Relocation

/-!
# Where tokens are refused

The parser refuses the first token that no tree has behind the tokens before it (`ofTokens_refused`): these can be
completed to tokens with a tree, and nothing that begins with them and the refused token has one.
-/

namespace SchemaWire

namespace Parser

variable {tokens : Tokens} {r : Rejection}

/-- A refusal is decided by the refused token and the tokens before it, and these can be completed. -/
theorem readItems_refused (h : readItems false tokens = .error r) :
    ∃ used, tokens = used ++ r.rest ∧
      (∀ others, others.head? = r.rest.head? → readItems false (used ++ others) = .error ⟨r.wanted, others⟩) ∧
      (∀ p, r.wanted = .noSize p → r.rest ≠ []) ∧
      ∃ completion body, (∀ t ∈ completion, t.token ≠ .eof) ∧ readItems false (used ++ completion) = .ok (body, []) := by
  induction hn : tokens.length using Nat.strongRecOn generalizing tokens with
  | ind n ih =>
    subst hn
    cases tokens with
    | nil =>
      rw [readItems_nil] at h
      cases h
    | cons t rest =>
      have hdecided := decided_nextItem (t :: rest) fun inner _ => decided_block inner
      rw [readItems_false_cons] at h
      cases hitem : nextItem (t :: rest) with
      | error e =>
        rw [hitem] at h
        cases h
        obtain ⟨used, htokens, hreads, hwanted, completion, item, hplain, -, hcompletes⟩ :=
          hdecided.exists_of_error hitem
        refine ⟨used, htokens, fun others hhead => ?_, hwanted, completion, [item], hplain, ?_⟩
        · refine readItems_of_nextItem_error (hreads others hhead) fun hnil => ?_
          obtain ⟨rfl, rfl⟩ := List.append_eq_nil_iff.mp hnil
          rw [List.nil_append] at htokens
          rw [← htokens] at hhead
          cases hhead
        · have hread := hcompletes [] (avoids_nil _)
          rw [List.append_nil] at hread
          rw [readItems_of_nextItem hread, readItems_nil]
          rfl
      | ok found =>
        obtain ⟨item, after⟩ := found
        rw [hitem] at h
        obtain ⟨used, htokens, hreads⟩ := hdecided.exists_of_ok hitem
        have hafter : readItems false after = .error r := Except.map_eq_error_iff.mp h
        obtain ⟨used', rfl, hreads', hwanted, completion, body, hplain, hcompletes⟩ :=
          ih _ (length_of_nextItem hitem) hafter rfl
        refine ⟨used ++ used', by rw [htokens, List.append_assoc], fun others hhead => ?_, hwanted, ?_⟩
        · have hsame : (used' ++ others).head? = (used' ++ r.rest).head? := by
            rw [List.head?_append, List.head?_append, hhead]
          rw [List.append_assoc, readItems_of_nextItem (hreads _ (.inr hsame)), hreads' others hhead]
          rfl
        · by_cases hused : used' = []
          · -- Nothing is left to complete: what was read so far ends with an item.
            subst hused
            refine ⟨[], [item], List.forall_mem_nil _, ?_⟩
            rw [List.append_assoc]
            refine (readItems_of_nextItem (hreads [] (.inl (avoids_nil _)))).trans ?_
            rw [readItems_nil]
            rfl
          · refine ⟨completion, item :: body, hplain, ?_⟩
            have hsame := head?_append_of_ne_nil hused r.rest completion
            rw [List.append_assoc, readItems_of_nextItem (hreads _ (.inr hsame)), hcompletes]
            rfl

/-- Places do not matter: tokens like the ones up to a refused token are refused. -/
theorem readItems_refused_alike {before before' rest : Tokens} {t t' : Located} {wanted : ParseError.Wanted}
    (h : readItems false (before ++ t :: rest) = .error ⟨wanted, t :: rest⟩)
    (hbefore : before'.map Located.token = before.map Located.token) (ht : t'.token = t.token)
    (more : Tokens) : ∃ r, readItems false (before' ++ t' :: more) = .error r := by
  -- Where all places are the same, only the tokens are left.
  let f : Nat → Nat := fun _ => 0
  have hsame : allRelocated f before' = allRelocated f before := by
    have hmap := congrArg (List.map fun token => (⟨token, ⟨0, 0⟩⟩ : Located)) hbefore
    rw [List.map_map, List.map_map] at hmap
    exact hmap
  have hmoved := readItems_relocated f false (before ++ t :: rest)
  rw [h, moved_error] at hmoved
  obtain ⟨used, htokens, hreads, -⟩ := readItems_refused hmoved
  obtain rfl : allRelocated f before = used := List.append_cancel_right (List.map_append.symm.trans htokens)
  have hread := hreads (allRelocated f (t' :: more)) (congrArg (fun token => some (⟨token, ⟨0, 0⟩⟩ : Located)) ht)
  rw [← hsame] at hread
  have hothers := readItems_relocated f false (before' ++ t' :: more)
  rw [allRelocated, List.map_append] at hothers
  cases houtcome : readItems false (before' ++ t' :: more) with
  | error r => exact ⟨r, rfl⟩
  | ok found =>
    rw [houtcome] at hothers
    cases hread.symm.trans hothers

/-- What the readers refuse, no tokens that begin alike are the tree of. -/
theorem ofTokens_refused_alike {before rest others : List Located} {t : Located} {wanted : ParseError.Wanted}
    (h : readItems false (before ++ t :: rest) = .error ⟨wanted, t :: rest⟩)
    (hplain : ∀ u ∈ before ++ t :: rest, u.token ≠ .eof)
    (hothers : (before ++ [t]).map Located.token <+: others.map Located.token) :
    ∃ e, Schema.ofTokens others = .error e := by
  obtain ⟨more, hmore⟩ := hothers
  rw [List.map_append, List.append_assoc] at hmore
  obtain ⟨before', left, rfl, hbefore, hleft⟩ := List.map_eq_append_iff.mp hmore.symm
  obtain ⟨t', more', rfl, ht, -⟩ := List.map_eq_cons_iff.mp hleft
  have htokens : ∀ token ∈ before'.map Located.token, token ≠ .eof := by
    rw [hbefore]
    intro token hmem
    obtain ⟨u, hu, rfl⟩ := List.mem_map.mp hmem
    exact hplain u (List.mem_append_left _ hu)
  have hbeforeEof : Located.beforeEof (before' ++ t' :: more') = before' ++ t' :: Located.beforeEof more' := by
    rw [Located.beforeEof_append fun u hu => htokens _ (List.mem_map_of_mem hu),
      Located.beforeEof_cons (ht ▸ hplain t (by simp))]
  obtain ⟨r, hr⟩ := readItems_refused_alike h hbefore ht (Located.beforeEof more')
  exact ⟨_, ofTokens_eq_error_iff.mpr ⟨r, hbeforeEof ▸ hr, rfl⟩⟩

end Parser

namespace ParseError

theorem kind_ofRejection_nil {wanted : Wanted} (stop : Span) (h : ∀ p, wanted ≠ .noSize p) :
    (ofRejection stop ⟨wanted, []⟩).kind = .unexpectedEof := by
  cases wanted with
  | noSize p => exact absurd rfl (h p)
  | _ => rfl

theorem kind_ofRejection_cons (stop : Span) (wanted : Wanted) (t : Located) (rest : List Located) :
    (ofRejection stop ⟨wanted, t :: rest⟩).kind ≠ .unexpectedEof := by
  cases wanted <;> simp [kind, ofRejection]

end ParseError

/-- Tokens that are no schema are refused at one of them: the error stands there, and says that the source ends too early
just where this is its end. The tokens before can be completed to a schema. If the refused one is not the end of the
source, no tokens that begin like these up to it are a schema. -/
theorem ofTokens_refused {source : List Char} {tokens : List Located} {e : ParseError} (hlex : lex source = .ok tokens)
    (h : Schema.ofTokens tokens = .error e) :
    ∃ before t after, tokens = before ++ t :: after ∧ e.span = t.span ∧ (e.kind = .unexpectedEof ↔ t.token = .eof) ∧
      (∃ completion, (∀ u ∈ completion, u.token ≠ .eof) ∧
        ∀ span, ∃ s, Schema.ofTokens (before ++ completion ++ [⟨.eof, span⟩]) = .ok s) ∧
      (t.token ≠ .eof → ∀ others, (before ++ [t]).map Located.token <+: others.map Located.token →
        ∃ e, Schema.ofTokens others = .error e) := by
  have hplain (u : Located) : u ∈ Located.beforeEof tokens → u.token ≠ .eof := Located.ne_eof_of_mem_beforeEof
  have hend := Lexer.eq_beforeEof_append hlex
  obtain ⟨⟨wanted, rest⟩, hread, rfl⟩ := Parser.ofTokens_eq_error_iff.mp h
  obtain ⟨before, hbefore, -, hwanted, completion, body, hcompletion, hcompletes⟩ := Parser.readItems_refused hread
  simp only at hbefore hwanted
  have hendSpan := Located.endSpan_append_eof hplain ⟨0 + Utf8.size source, 0 + Utf8.size source⟩
  rw [← hend] at hendSpan
  rw [hbefore] at hplain hend hread
  have hcompleted : ∃ completion, (∀ u ∈ completion, u.token ≠ .eof) ∧
      ∀ span, ∃ s, Schema.ofTokens (before ++ completion ++ [⟨.eof, span⟩]) = .ok s := by
    refine ⟨completion, hcompletion, fun span => ?_⟩
    have hall : ∀ u ∈ before ++ completion, u.token ≠ .eof := List.forall_mem_append.mpr
      ⟨fun u hu => hplain u (List.mem_append_left _ hu), hcompletion⟩
    rw [← Located.beforeEof_append_eof hall span] at hcompletes
    exact ⟨_, Parser.ofTokens_of_readItems hcompletes⟩
  cases rest with
  | nil =>
    rw [List.append_nil] at hend
    have hkind := ParseError.kind_ofRejection_nil (Located.endSpan tokens) fun p hp => hwanted p hp rfl
    exact ⟨before, _, [], hend, hendSpan, ⟨fun _ => rfl, fun _ => hkind⟩, hcompleted, fun hne => absurd rfl hne⟩
  | cons t rest =>
    rw [List.append_assoc] at hend
    have hkind := ParseError.kind_ofRejection_cons (Located.endSpan tokens) wanted t rest
    refine ⟨before, t, _, hend, rfl, ⟨fun h => absurd h hkind, fun h => absurd h (hplain t (by simp))⟩, hcompleted, ?_⟩
    exact fun _ others hothers => Parser.ofTokens_refused_alike hread hplain hothers

/-- A name alone has to go on with another one or a colon, and can. -/
theorem ofTokens_refused_semicolon :
    ∃ tokens e, lex ['a', ';'] = .ok tokens ∧ Schema.ofTokens tokens = .error e ∧ e.span = ⟨1, 2⟩ ∧
      (∃ completion, ∀ span, ∃ s,
        Schema.ofTokens (⟨.ident "a", ⟨0, 1⟩⟩ :: completion ++ [⟨.eof, span⟩]) = .ok s) ∧
      ∀ others, [.ident "a", .mark .semicolon] <+: others.map Located.token →
        ∃ e, Schema.ofTokens others = .error e := by
  let tokens : List Located := [⟨.ident "a", ⟨0, 1⟩⟩, ⟨.mark .semicolon, ⟨1, 2⟩⟩, ⟨.eof, ⟨2, 2⟩⟩]
  let e : ParseError := ⟨.context .pathSegment, some (.mark .semicolon), ⟨1, 2⟩⟩
  have hlex : lex ['a', ';'] = .ok tokens := by
    have hname : Lexer.scan 'a' [';'] = ⟨.ok (.ident "a"), ['a'], [';']⟩ := rfl
    have hmark : Lexer.scan ';' [] = ⟨.ok (.mark .semicolon), [';'], []⟩ := rfl
    rw [lex, Lexer.lexFrom_of_ok (by decide) (by rw [hname]), hname, Lexer.lexFrom_of_ok (by decide) (by rw [hmark]), hmark,
      Lexer.lexFrom_nil]
    rfl
  have hrefused : Schema.ofTokens tokens = .error e := by
    refine Parser.ofTokens_eq_error_iff.mpr ⟨⟨.context .pathSegment, [⟨.mark .semicolon, ⟨1, 2⟩⟩]⟩, ?_, rfl⟩
    exact (Parser.readItems_false_cons _ _).trans rfl
  refine ⟨tokens, e, hlex, hrefused, rfl, ?_⟩
  obtain ⟨before, t, after, htokens, hspan, -, ⟨completion, -, hcompletes⟩, hbegins⟩ := ofTokens_refused hlex hrefused
  obtain ⟨rfl, rfl⟩ : before = [⟨.ident "a", ⟨0, 1⟩⟩] ∧ t = ⟨.mark .semicolon, ⟨1, 2⟩⟩ := by
    rcases before with _ | ⟨u, _ | ⟨v, _ | ⟨w, before⟩⟩⟩ <;> simp [tokens] at htokens <;> grind
  exact ⟨⟨completion, hcompletes⟩, hbegins (by simp)⟩

end SchemaWire
