import SchemaWire.Proofs.Agreement

/-!
# The end of the tokens is reached

A loop of the parser is one turn repeated. A turn of any of them leaves the loop or steps over tokens ahead of the stream,
one at least, and so the loop is left after at most as many turns as there are tokens ahead, and one to leave it
(`Loop.Consumes.ends`).

The end itself is no token that a turn could step over. Whether some tokens say that they end, and what they hold behind
the place where they say so, changes neither the items nor the sort of an error (`Schema.ofTokens_ends`).
-/

namespace SchemaWire

/-! ## Steps over tokens -/

namespace TokenStream

variable {tokens : Array Located} {s s' s'' : TokenStream tokens}

/-- Whether the second stream is the first one after steps over tokens ahead of it, one at least. -/
def Consumes (s s' : TokenStream tokens) : Prop :=
  ∃ used, used ≠ [] ∧ s.ahead = used ++ s'.ahead ∧ s'.pos = s.pos + used.length

theorem Reaches.consumes (h : Reaches s s') (hlt : s.pos < s'.pos) : Consumes s s' := by
  obtain ⟨used, hused, hpos⟩ := h
  refine ⟨used, ?_, hused, hpos⟩
  rintro rfl
  rw [hpos] at hlt
  exact absurd hlt (Nat.lt_irrefl _)

theorem Consumes.length_lt (h : Consumes s s') : s'.ahead.length < s.ahead.length := by
  obtain ⟨used, hne, hused, -⟩ := h
  have := List.length_pos_iff.mpr hne
  rw [hused, List.length_append]
  omega

theorem consumes_nextItem {found : Item} (h : s.nextItem = .ok (found, s')) : Consumes s s' :=
  ((nextItem_agrees s).reaches h).consumes (pos_lt_of_nextItem h)

theorem consumes_member {m : GroupMember} (h : s.member = .ok (m, s')) : Consumes s s' :=
  ((member_agrees s).reaches h).consumes (pos_lt_of_member h)

theorem consumes_property {p : Property} (h : s.property = .ok (p, s')) : Consumes s s' :=
  ((property_agrees s).reaches h).consumes (pos_lt_of_property h)

theorem consumes_closedProperty {entries : List BodyEntry} (h : s.closedProperty = .ok (entries, s')) : Consumes s s' :=
  ((closedProperty_agrees s).reaches h).consumes (pos_lt_of_closedProperty h)

theorem consumes_comment? {c : Comment} (h : s.comment? = .ok (some (c, s'))) : Consumes s s' := by
  refine Reaches.consumes ?_ (pos_lt_of_comment? h)
  obtain ⟨hnone, -⟩ | ⟨x, y, hstream, -, hagrees⟩ := comment?_agrees s
  · rw [hnone] at h
    cases h
  · obtain ⟨found, hfound, heq⟩ := exists_of_map_eq_ok (hstream.symm.trans h)
    cases heq
    exact hagrees.reaches hfound

end TokenStream

/-! ## Loops -/

namespace Loop

open SchemaWire.TokenStream (Reaches)

variable {tokens : Array Located} {α : Type}

/-- The outcome of a loop, if it is left in the given number of turns. -/
def turns (l : Loop tokens α) : Nat → TokenStream tokens → Option (Except ParseError (List α × TokenStream tokens))
  | 0, _ => none
  | n + 1, s =>
    match l.turn s with
    | .error e => some (.error e)
    | .ok (.leave, s') => some (.ok ([], s'))
    | .ok (.last a, s') => some (.ok ([a], s'))
    | .ok (.again a, s') => (l.turns n s').map (·.map fun (more, left) => (a :: more, left))

/-- Whether a turn steps over tokens ahead where the loop goes on. -/
def Consumes (l : Loop tokens α) : Prop :=
  ∀ s a s', l.turn s = .ok (.again a, s') → TokenStream.Consumes s s'

/-- Whether the loop is left after no more turns than there are tokens ahead and one to leave it. -/
def Ends (l : Loop tokens α) : Prop :=
  ∀ s, ∃ n ≤ s.ahead.length, l.turns (n + 1) s = some (l.run s)

theorem Consumes.ends {l : Loop tokens α} (h : l.Consumes) : l.Ends := by
  intro s
  induction hn : s.ahead.length using Nat.strongRecOn generalizing s with
  | ind n ih =>
    subst hn
    cases hturn : l.turn s with
    | error e => exact ⟨0, Nat.zero_le _, by simp [turns, hturn, run_of_error hturn]⟩
    | ok found =>
      obtain ⟨t, s'⟩ := found
      cases t with
      | leave => exact ⟨0, Nat.zero_le _, by simp [turns, hturn, run_of_leave hturn]⟩
      | last a => exact ⟨0, Nat.zero_le _, by simp [turns, hturn, run_eq]⟩
      | again a =>
        have hlength := (h s a s' hturn).length_lt
        obtain ⟨n, hle, hrest⟩ := ih _ hlength s' rfl
        exact ⟨n + 1, by omega, by rw [turns, hturn, run_eq, hturn]; simp only [hrest, Option.map_some]⟩

/-- A turn that goes on has gone forward, and so it consumes what it has stepped over. -/
theorem Consumes.of_reaches {l : Loop tokens α} (h : ∀ s a s', l.turn s = .ok (.again a, s') → Reaches s s') :
    l.Consumes :=
  fun s a s' hturn => (h s a s' hturn).consumes (l.pos_lt hturn)

/-- Among entries with commas between them, a turn that goes on takes a comma behind its entry. -/
theorem consumes_separated {read : TokenStream tokens → Except ParseError (α × TokenStream tokens)}
    (pos_lt : ∀ {s a s'}, read s = .ok (a, s') → s.pos < s'.pos)
    (h : ∀ s a s', read s = .ok (a, s') → Reaches s s') : (separated read pos_lt).Consumes := by
  refine Consumes.of_reaches fun s a s' hturn => ?_
  obtain ⟨⟨entry, next⟩, hread, hcomma⟩ := exists_of_map_eq_ok hturn
  have hnext := (h s entry next hread).trans (.eat .comma next)
  unfold commaTurn at hcomma
  split at hcomma <;> rename_i heat <;> cases hcomma
  rwa [heat] at hnext

end Loop

namespace TokenStream

variable {tokens : Array Located}

theorem consumes_segments : (segments : Loop tokens Identifier).Consumes := by
  refine Loop.Consumes.of_reaches fun s a s' hturn => ?_
  have hdot := Reaches.eat .dot s
  simp only [segments] at hturn
  split at hturn <;> rename_i heat
  · cases hturn
  · obtain ⟨⟨i, next⟩, hname, heq⟩ := exists_of_map_eq_ok hturn
    cases heq
    rw [heat] at hdot
    exact hdot.trans ((name_agrees _ _).reaches hname)

theorem consumes_words : (words : Loop tokens String).Consumes := by
  refine Loop.Consumes.of_reaches fun s a s' hturn => ?_
  simp only [words] at hturn
  split at hturn
  · cases hturn
  · cases hturn
  · cases hturn
  · rename_i token _ heof hpeek
    cases hturn
    obtain ⟨span, hahead⟩ := ahead_of_peek hpeek heof
    exact .advance hahead

theorem consumes_comments : (comments : Loop tokens Comment).Consumes := by
  intro s c s' hturn
  simp only [comments] at hturn
  split at hturn <;> cases hturn
  exact consumes_comment? ‹_›

theorem consumes_bracedEntries : (bracedEntries : Loop tokens (List BodyEntry)).Consumes := by
  intro s entries s' hturn
  simp only [bracedEntries] at hturn
  split at hturn
  · cases hturn
  split at hturn
  · cases hturn
  · cases hturn
    exact consumes_comment? ‹_›
  split at hturn
  · cases hturn
  · obtain ⟨found, hread, heq⟩ := exists_of_map_eq_ok hturn
    cases heq
    exact consumes_closedProperty hread

theorem consumes_arrowEntries : (arrowEntries : Loop tokens (List BodyEntry)).Consumes := by
  refine Loop.consumes_separated _ fun s entries s' hread => ?_
  obtain ⟨⟨found, s₁⟩, hcomments, hread⟩ := exists_of_bind_eq_ok hread
  obtain ⟨⟨p, s₂⟩, hproperty, heq⟩ := exists_of_bind_eq_ok hread
  cases heq
  exact ((comments_agrees s).reaches hcomments).trans ((property_agrees s₁).reaches hproperty)

theorem consumes_members : (members : Loop tokens GroupMember).Consumes := by
  intro s m s' hturn
  simp only [members] at hturn
  split at hturn
  · cases hturn
  · obtain ⟨found, hread, heq⟩ := exists_of_map_eq_ok hturn
    cases heq
    exact consumes_member hread

theorem consumes_paths : (paths : Loop tokens TypePath).Consumes :=
  Loop.consumes_separated _ fun s _ _ hread => (path_agrees s).reaches hread

theorem consumes_blockItems : (blockItems : Loop tokens Item).Consumes := by
  intro s found s' hturn
  simp only [blockItems] at hturn
  split at hturn
  · cases hturn
  split at hturn
  · cases hturn
  · obtain ⟨_, hread, heq⟩ := exists_of_map_eq_ok hturn
    cases heq
    exact consumes_nextItem hread

theorem consumes_items : (items : Loop tokens Item).Consumes := by
  intro s found s' hturn
  simp only [items] at hturn
  split at hturn
  · cases hturn
  · obtain ⟨_, hread, heq⟩ := exists_of_map_eq_ok hturn
    cases heq
    exact consumes_nextItem hread

end TokenStream

/-! ## The end of the tokens -/

namespace Located

variable {tokens : List Located}

/-- Where the last of the tokens stands. -/
def lastSpan (tokens : List Located) : Span :=
  (tokens.getLast?.map Located.span).getD ⟨0, 0⟩

theorem lastSpan_append_cons (tokens : List Located) (t : Located) (more : List Located) :
    lastSpan (tokens ++ t :: more) = lastSpan (t :: more) := by
  rw [lastSpan, List.getLast?_append_cons]
  rfl

theorem stop_lastSpan (tokens : List Located) :
    (lastSpan tokens).stop = (tokens.getLast?.map (·.span.stop)).getD 0 := by
  unfold lastSpan
  cases tokens.getLast? <;> rfl

/-- Where no end is told, the tokens end at the last of them. -/
theorem endSpan_of_ne_eof (h : ∀ t ∈ tokens, t.token ≠ .eof) : endSpan tokens = lastSpan tokens := by
  have hfind : tokens.find? (·.token = .eof) = none := List.find?_eq_none.mpr fun t ht => by simpa using h t ht
  rw [endSpan, hfind]
  rfl

end Located

namespace ParseError

/-- A rejection is reported at its token, or at the end. Where the end is shows in the place of the report alone. -/
theorem ofRejection_congr (r : Rejection) (stop stop' : Span) :
    (ofRejection stop' r).kind = (ofRejection stop r).kind ∧
      (ofRejection stop' r).summary = (ofRejection stop r).summary ∧
      (ofRejection stop' r = ofRejection stop r ∨ (ofRejection stop r).found = none ∧
        (ofRejection stop r).span = stop ∧ (ofRejection stop' r).span = stop') := by
  obtain ⟨wanted, rest⟩ := r
  cases rest with
  | nil => exact ⟨rfl, rfl, .inr ⟨rfl, rfl, rfl⟩⟩
  | cons t rest => exact ⟨rfl, rfl, .inl rfl⟩

end ParseError

namespace Schema

open SchemaWire.Parser (readItems namespaceHead)
open SchemaWire.TokenStream (items blockItems members bracedEntries comments arrowEntries paths segments words)

/-- The tree of tokens is that of the tokens before their end, but for the place of its root. -/
theorem ofTokens_eq {tokens before : List Located} (h : Located.beforeEof tokens = before) :
    ofTokens tokens = match readItems false before with
      | .ok (body, _) => .ok ⟨body, ⟨0, (Located.lastSpan tokens).stop⟩⟩
      | .error r => .error (.ofRejection (Located.endSpan tokens) r) := by
  subst h
  have hread := ofTokens_eq_readItems tokens
  rw [← Located.stop_lastSpan tokens] at hread
  exact hread

/-- Tokens without an end are read like the same tokens with an end behind them, whatever follows the end. -/
theorem ofTokens_eof {tokens : List Located} (h : ∀ t ∈ tokens, t.token ≠ .eof) (place : Span) (more : List Located) :
    (∃ body, ofTokens tokens = .ok ⟨body, ⟨0, (Located.lastSpan tokens).stop⟩⟩ ∧
      ofTokens (tokens ++ [⟨.eof, place⟩]) = .ok ⟨body, ⟨0, place.stop⟩⟩ ∧
      ofTokens (tokens ++ ⟨.eof, place⟩ :: more) =
        .ok ⟨body, ⟨0, (Located.lastSpan (⟨.eof, place⟩ :: more)).stop⟩⟩) ∨
    ∃ e e', ofTokens tokens = .error e ∧ ofTokens (tokens ++ [⟨.eof, place⟩]) = .error e' ∧
      ofTokens (tokens ++ ⟨.eof, place⟩ :: more) = .error e' ∧ e'.kind = e.kind ∧ e'.summary = e.summary ∧
      (e' = e ∨ e.found = none ∧ e.span = Located.lastSpan tokens ∧ e'.span = place) := by
  have hend (more : List Located) := Located.beforeEof_append_eof_cons h place more
  rw [ofTokens_eq (Located.beforeEof_of_ne_eof h), ofTokens_eq (hend []), ofTokens_eq (hend more),
    Located.endSpan_of_ne_eof h, Located.endSpan_append_eof_cons h, Located.endSpan_append_eof_cons h,
    Located.lastSpan_append_cons, Located.lastSpan_append_cons]
  cases readItems false tokens with
  | ok found => exact .inl ⟨found.1, rfl, rfl, rfl⟩
  | error r => exact .inr ⟨_, _, rfl, rfl, rfl, ParseError.ofRejection_congr r _ _⟩

/-- Tokens without an end are read like the same tokens with an end behind them, whatever follows the end: the items are
the same, with their places, and so are the sort and the wording of an error. Only the root ends where the last of all
tokens does, and an error that no token is to blame for is placed at the end, and where there is none at the last token.

What is read as an item, as a member of a type group, as a property or as a comment takes at least one token, and none that
is an end. So each loop of the parser is left on every stream, after at most as many turns as there are tokens ahead and one
more: those over the items of a source and of a namespace, members, entries in braces, comments behind each other, entries
after an arrow, dotted names, their segments, and words between dashes. -/
theorem ofTokens_ends :
    (∀ (tokens more : List Located) (place : Span), (∀ t ∈ tokens, t.token ≠ .eof) →
      (∃ body, ofTokens tokens = .ok ⟨body, ⟨0, (Located.lastSpan tokens).stop⟩⟩ ∧
        ofTokens (tokens ++ [⟨.eof, place⟩]) = .ok ⟨body, ⟨0, place.stop⟩⟩ ∧
        ofTokens (tokens ++ ⟨.eof, place⟩ :: more) =
          .ok ⟨body, ⟨0, (Located.lastSpan (⟨.eof, place⟩ :: more)).stop⟩⟩) ∨
      ∃ e e', ofTokens tokens = .error e ∧ ofTokens (tokens ++ [⟨.eof, place⟩]) = .error e' ∧
        ofTokens (tokens ++ ⟨.eof, place⟩ :: more) = .error e' ∧ e'.kind = e.kind ∧ e'.summary = e.summary ∧
        (e' = e ∨ e.found = none ∧ e.span = Located.lastSpan tokens ∧ e'.span = place)) ∧
    ∀ tokens : Array Located,
      (∀ s s' : TokenStream tokens,
        (∀ item, s.nextItem = .ok (item, s') → s.Consumes s') ∧ (∀ m, s.member = .ok (m, s') → s.Consumes s') ∧
        (∀ p, s.property = .ok (p, s') → s.Consumes s') ∧ ∀ c, s.comment? = .ok (some (c, s')) → s.Consumes s') ∧
      (items : Loop tokens Item).Ends ∧ (blockItems : Loop tokens Item).Ends ∧
      (members : Loop tokens GroupMember).Ends ∧ (bracedEntries : Loop tokens (List BodyEntry)).Ends ∧
      (comments : Loop tokens Comment).Ends ∧ (arrowEntries : Loop tokens (List BodyEntry)).Ends ∧
      (paths : Loop tokens TypePath).Ends ∧ (segments : Loop tokens Identifier).Ends ∧
      (words : Loop tokens String).Ends := by
  refine ⟨fun tokens more place h => ofTokens_eof h place more, fun tokens => ⟨fun s s' => ?_, ?_⟩⟩
  · exact ⟨fun _ => TokenStream.consumes_nextItem, fun _ => TokenStream.consumes_member,
      fun _ => TokenStream.consumes_property, fun _ => TokenStream.consumes_comment?⟩
  · exact ⟨TokenStream.consumes_items.ends, TokenStream.consumes_blockItems.ends, TokenStream.consumes_members.ends,
      TokenStream.consumes_bracedEntries.ends, TokenStream.consumes_comments.ends, TokenStream.consumes_arrowEntries.ends,
      TokenStream.consumes_paths.ends, TokenStream.consumes_segments.ends, TokenStream.consumes_words.ends⟩

/-- `namespace n` with an opening brace that is never closed, with no end told, and with an end and a closing brace
behind it. An item, a member and a property before an end, and a comment with no end behind it. -/
theorem ofTokens_ends_unclosed :
    (∃ tokens : List Located, tokens.map Located.token = [.keyword .namespaceWord, .ident "n", .mark .leftBrace] ∧
      (∀ t ∈ tokens, t.token ≠ .eof) ∧ ofTokens tokens = .error ⟨.mark .rightBrace, none, ⟨12, 13⟩⟩ ∧
      ∃ e, ofTokens (tokens ++ [⟨.eof, ⟨14, 14⟩⟩]) = .error e ∧
        ofTokens (tokens ++ [⟨.eof, ⟨14, 14⟩⟩, ⟨.mark .rightBrace, ⟨14, 15⟩⟩]) = .error e ∧
        e.kind = .unexpectedEof ∧ e.summary = "unexpected end of input, expected \"\x7d\"") ∧
    (∃ s : TokenStream #[⟨.ident "a", ⟨0, 1⟩⟩, ⟨.ident "b", ⟨2, 3⟩⟩, ⟨.eof, ⟨3, 3⟩⟩],
      (TokenStream.ofTokens _).Consumes s ∧ s.ahead = []) ∧
    (∃ s : TokenStream #[⟨.ident "a", ⟨0, 1⟩⟩, ⟨.eof, ⟨3, 3⟩⟩], (TokenStream.ofTokens _).Consumes s ∧ s.ahead = []) ∧
    (∃ s : TokenStream #[⟨.ident "x", ⟨0, 1⟩⟩, ⟨.mark .colon, ⟨1, 2⟩⟩, ⟨.ident "y", ⟨3, 4⟩⟩, ⟨.eof, ⟨4, 4⟩⟩],
      (TokenStream.ofTokens _).Consumes s ∧ s.ahead = []) ∧
    ∃ s : TokenStream #[⟨.comment " c ", ⟨0, 7⟩⟩], (TokenStream.ofTokens _).Consumes s ∧ s.ahead = [] := by
  refine ⟨?_, ?_, ?_, ?_, ?_⟩
  · let tokens : List Located :=
      [⟨.keyword .namespaceWord, ⟨0, 9⟩⟩, ⟨.ident "n", ⟨10, 11⟩⟩, ⟨.mark .leftBrace, ⟨12, 13⟩⟩]
    have hplain : ∀ t ∈ tokens, t.token ≠ .eof := by decide
    have hread : readItems false tokens = .error ⟨.mark .rightBrace, []⟩ := by
      have hhead : namespaceHead [⟨.ident "n", ⟨10, 11⟩⟩, ⟨.mark .leftBrace, ⟨12, 13⟩⟩] = .ok (⟨"n", ⟨10, 11⟩⟩, []) := rfl
      rw [Parser.readItems_namespace_eq, hhead]
      simp only [bind, Except.bind, Parser.readItems_unclosed]
    have herror : ofTokens tokens = .error ⟨.mark .rightBrace, none, ⟨12, 13⟩⟩ := by
      rw [ofTokens_eq (Located.beforeEof_of_ne_eof hplain), hread]
      rfl
    refine ⟨tokens, rfl, hplain, herror, ?_⟩
    obtain ⟨body, hok, -⟩ | ⟨e, e', he, hended, hmore, hkind, hsummary, -⟩ :=
      ofTokens_ends.1 tokens [⟨.mark .rightBrace, ⟨14, 15⟩⟩] ⟨14, 14⟩ hplain
    · rw [herror] at hok
      cases hok
    · obtain rfl := Except.error.inj (herror.symm.trans he)
      exact ⟨e', hended, hmore, hkind, hsummary⟩
  · obtain ⟨s, hread, hleft⟩ := (TokenStream.nextItem_agrees (.ofTokens
      #[⟨.ident "a", ⟨0, 1⟩⟩, ⟨.ident "b", ⟨2, 3⟩⟩, ⟨.eof, ⟨3, 3⟩⟩])).exists_of_eq_ok rfl
    exact ⟨s, ((ofTokens_ends.2 _).1 _ _).1 _ hread, hleft⟩
  · obtain ⟨s, hread, hleft⟩ := (TokenStream.member_agrees (.ofTokens
      #[⟨.ident "a", ⟨0, 1⟩⟩, ⟨.eof, ⟨3, 3⟩⟩])).exists_of_eq_ok rfl
    exact ⟨s, ((ofTokens_ends.2 _).1 _ _).2.1 _ hread, hleft⟩
  · obtain ⟨s, hread, hleft⟩ := (TokenStream.property_agrees (.ofTokens
      #[⟨.ident "x", ⟨0, 1⟩⟩, ⟨.mark .colon, ⟨1, 2⟩⟩, ⟨.ident "y", ⟨3, 4⟩⟩, ⟨.eof, ⟨4, 4⟩⟩])).exists_of_eq_ok rfl
    exact ⟨s, ((ofTokens_ends.2 _).1 _ _).2.2.1 _ hread, hleft⟩
  · exact ⟨_, ((ofTokens_ends.2 _).1 _ _).2.2.2 _ rfl, rfl⟩

end Schema

end SchemaWire
