import SchemaWire.Proofs.Outline
import SchemaWire.Syntax.Descent

/-!
# The tokens ahead of a stream

A stream goes no further than the first end-of-source token behind it, and so all that its readers take are the tokens up
to there (`ahead`). Two readers agree on a stream if the one reads from the stream what the other reads from the tokens
ahead of it, and stands before the tokens that the other leaves, or reports what the other refuses (`Agrees`). Readers that
are put together from readers that agree do so too.
-/

namespace SchemaWire

/-! ## The end of the source -/

namespace Located

variable {tokens : List Located}

theorem ne_eof_of_mem_beforeEof {t : Located} (h : t ∈ beforeEof tokens) : t.token ≠ .eof := by
  unfold beforeEof at h
  simpa using List.all_eq_true.mp List.all_takeWhile t h

theorem head?_of_beforeEof {t : Located} (h : (beforeEof tokens).head? = some t) : tokens.head? = some t := by
  unfold beforeEof at h
  cases tokens with
  | nil => exact h
  | cons u rest =>
    rw [List.takeWhile_cons] at h
    split at h
    · exact h
    · cases h

theorem beforeEof_cons {t : Located} (h : t.token ≠ .eof) (rest : List Located) :
    beforeEof (t :: rest) = t :: beforeEof rest := by
  unfold beforeEof
  rw [List.takeWhile_cons_of_pos (by simpa using h)]

theorem beforeEof_append (h : ∀ t ∈ tokens, t.token ≠ .eof) (more : List Located) :
    beforeEof (tokens ++ more) = tokens ++ beforeEof more :=
  List.takeWhile_append_of_pos fun t ht => by simpa using h t ht

theorem beforeEof_append_eof_cons (h : ∀ t ∈ tokens, t.token ≠ .eof) (span : Span) (more : List Located) :
    beforeEof (tokens ++ ⟨.eof, span⟩ :: more) = tokens :=
  (beforeEof_append h _).trans (List.append_nil tokens)

theorem beforeEof_append_eof (h : ∀ t ∈ tokens, t.token ≠ .eof) (span : Span) :
    beforeEof (tokens ++ [⟨.eof, span⟩]) = tokens :=
  beforeEof_append_eof_cons h span []

theorem endSpan_append_eof_cons (h : ∀ t ∈ tokens, t.token ≠ .eof) (span : Span) (more : List Located) :
    endSpan (tokens ++ ⟨.eof, span⟩ :: more) = span := by
  have hfind : tokens.find? (·.token = .eof) = none := List.find?_eq_none.mpr fun t ht => by simpa using h t ht
  unfold endSpan
  rw [List.find?_append, hfind]
  rfl

theorem endSpan_append_eof (h : ∀ t ∈ tokens, t.token ≠ .eof) (span : Span) :
    endSpan (tokens ++ [⟨.eof, span⟩]) = span :=
  endSpan_append_eof_cons h span []

theorem beforeEof_of_ne_eof (h : ∀ t ∈ tokens, t.token ≠ .eof) : beforeEof tokens = tokens := by
  simpa [beforeEof] using beforeEof_append h []

/-- The place of the end is that of the token before which the tokens end. -/
theorem endSpan_eq_spanAt (tokens : List Located) :
    endSpan tokens = spanAt tokens.toArray (beforeEof tokens).length := by
  unfold endSpan
  cases hfind : tokens.find? (·.token = .eof) with
  | some t =>
    obtain ⟨heof, before, more, rfl, hbefore⟩ := List.find?_eq_some_iff_append.mp hfind
    obtain ⟨token, place⟩ := t
    obtain rfl : token = .eof := by simpa using heof
    rw [beforeEof_append_eof_cons fun t ht => by simpa using hbefore t ht]
    simp [spanAt]
  | none =>
    have hplain : ∀ t ∈ tokens, t.token ≠ .eof := fun t ht => by simpa using List.find?_eq_none.mp hfind t ht
    rw [beforeEof_of_ne_eof hplain]
    simp [spanAt]

end Located

namespace TokenStream

open SchemaWire.Parser (Tokens Uses Covers startsWith stopAfter)

variable {tokens : Array Located} {s s' s'' : TokenStream tokens} {t : Located} {rest : Tokens}

/-! ## What lies ahead -/

/-- The tokens from the stream up to the end of the source. -/
def ahead (s : TokenStream tokens) : Tokens :=
  Located.beforeEof (tokens.toList.drop s.pos)

/-- Where the end of the source is reported. -/
def stop (s : TokenStream tokens) : Span :=
  Located.spanAt tokens (s.pos + s.ahead.length)

@[simp] theorem ahead_ofTokens (tokens : List Located) :
    (TokenStream.ofTokens tokens.toArray).ahead = Located.beforeEof tokens := by
  simp [ahead, TokenStream.ofTokens]

@[simp] theorem stop_ofTokens (tokens : List Located) :
    (TokenStream.ofTokens tokens.toArray).stop = Located.endSpan tokens := by
  rw [stop, ahead_ofTokens, Located.endSpan_eq_spanAt]
  simp [TokenStream.ofTokens]

/-- A token is taken off the front of the ones ahead by the step over it. At the end there is none. -/
theorem ahead_cases (s : TokenStream tokens) :
    (s.ahead = [] ∧ (s.peek = none ∨ s.peek = some .eof)) ∨
      ∃ t, tokens[s.pos]? = some t ∧ t.token ≠ .eof ∧ s.ahead = t :: s.advance.ahead := by
  cases hnext : tokens[s.pos]? with
  | none =>
    have hdrop : tokens.toList.drop s.pos = [] := by simpa using hnext
    exact .inl ⟨by rw [ahead, hdrop]; rfl, .inl (by rw [peek, hnext]; rfl)⟩
  | some t =>
    obtain ⟨hlt, rfl⟩ := Array.getElem?_eq_some_iff.mp hnext
    have hdrop : tokens.toList.drop s.pos = tokens[s.pos] :: tokens.toList.drop (s.pos + 1) :=
      List.drop_eq_getElem_cons (by simpa using hlt)
    have hpeek : s.peek = some tokens[s.pos].token := by rw [peek, hnext]; rfl
    by_cases heof : tokens[s.pos].token = .eof
    · exact .inl ⟨by simp [ahead, hdrop, Located.beforeEof, heof], .inr (heof ▸ hpeek)⟩
    · exact .inr ⟨_, rfl, heof, by rw [ahead, hdrop, Located.beforeEof_cons heof, ahead, pos_advance_of_peek hpeek heof]⟩

theorem getElem?_of_ahead_append {used : Tokens} (h : s.ahead = used ++ t :: rest) :
    tokens[s.pos + used.length]? = some t := by
  obtain ⟨more, hmore⟩ : s.ahead <+: tokens.toList.drop s.pos := List.takeWhile_prefix _
  rw [h] at hmore
  rw [← Array.getElem?_toList, ← List.getElem?_drop, ← hmore]
  simp

theorem getElem?_of_ahead (h : s.ahead = t :: rest) : tokens[s.pos]? = some t :=
  getElem?_of_ahead_append (h.trans (List.nil_append _).symm)

theorem ne_eof_of_ahead (h : s.ahead = t :: rest) : t.token ≠ .eof :=
  Located.ne_eof_of_mem_beforeEof (h.symm ▸ List.mem_cons_self)

theorem peek_of_ahead (h : s.ahead = t :: rest) : s.peek = some t.token := by
  rw [peek, getElem?_of_ahead h]
  rfl

theorem currentSpan_of_ahead (h : s.ahead = t :: rest) : s.currentSpan = t.span := by
  rw [currentSpan, Located.spanAt, getElem?_of_ahead h]
  rfl

theorem pos_advance_of_ahead (h : s.ahead = t :: rest) : s.advance.pos = s.pos + 1 :=
  pos_advance_of_peek (peek_of_ahead h) (ne_eof_of_ahead h)

theorem pos_lt_advance_of_ahead (h : s.ahead = t :: rest) : s.pos < s.advance.pos :=
  pos_lt_advance (peek_of_ahead h) (ne_eof_of_ahead h)

theorem ahead_advance (h : s.ahead = t :: rest) : s.advance.ahead = rest := by
  obtain ⟨hnil, -⟩ | ⟨u, -, -, hcons⟩ := s.ahead_cases
  · rw [hnil] at h
    cases h
  · exact (List.cons.inj (hcons.symm.trans h)).2

theorem peek_of_ahead_nil (h : s.ahead = []) : s.peek = none ∨ s.peek = some .eof := by
  obtain ⟨-, hpeek⟩ | ⟨t, -, -, hcons⟩ := s.ahead_cases
  · exact hpeek
  · rw [h] at hcons
    cases hcons

theorem peekNth_of_ahead (h : s.ahead = t :: rest) (n : Nat) : s.peekNth (n + 1) = s.advance.peekNth n := by
  rw [peekNth, peekNth, pos_advance_of_ahead h, Nat.add_assoc, Nat.add_comm 1 n]

theorem atEnd_iff : s.atEnd = true ↔ s.ahead = [] := by
  unfold atEnd
  cases h : s.ahead with
  | nil => obtain hpeek | hpeek := peek_of_ahead_nil h <;> simp [hpeek]
  | cons t rest => simp [peek_of_ahead h, ne_eof_of_ahead h]

theorem check_eq_startsWith (m : Mark) : s.check (.mark m) = startsWith m s.ahead := by
  rw [Bool.eq_iff_iff, check_mark]
  cases h : s.ahead with
  | nil => obtain hpeek | hpeek := peek_of_ahead_nil h <;> simp [hpeek, startsWith]
  | cons t rest => simp [peek_of_ahead h, startsWith]

theorem eat_of_startsWith {m : Mark} (h : startsWith m s.ahead = true) : s.eat (.mark m) = (true, s.advance) := by
  rw [eat, check_eq_startsWith, if_pos h]

theorem eat_of_not_startsWith {m : Mark} (h : startsWith m s.ahead = false) : s.eat (.mark m) = (false, s) := by
  rw [eat, check_eq_startsWith, h]
  rfl

theorem ahead_of_peek {token : Token} (h : s.peek = some token) (hne : token ≠ .eof) :
    ∃ span, s.ahead = ⟨token, span⟩ :: s.advance.ahead := by
  obtain ⟨-, hnone | heof⟩ | ⟨t, hnext, -, hcons⟩ := s.ahead_cases
  · simp [h] at hnone
  · simp [h, hne] at heof
  · rw [peek, hnext] at h
    obtain rfl := Option.some.inj h
    exact ⟨t.span, hcons⟩

theorem ahead_of_startsWith {m : Mark} (h : startsWith m s.ahead = true) :
    ∃ span, s.ahead = ⟨.mark m, span⟩ :: s.advance.ahead :=
  ahead_of_peek (check_mark.mp (check_eq_startsWith m ▸ h)) nofun

theorem expect_of_ahead {m : Mark} {span : Span} (h : s.ahead = ⟨.mark m, span⟩ :: rest) :
    s.expect m = .ok (span, s.advance) := by
  rw [expect, if_pos (check_mark.mpr (peek_of_ahead h)), currentSpan_of_ahead h]

theorem refusal_eq (wanted : ParseError.Wanted) : s.refusal wanted = .ofRejection s.stop ⟨wanted, s.ahead⟩ := by
  unfold refusal
  cases h : s.ahead with
  | nil =>
    have hfound : s.peek.filter (· ≠ .eof) = none := by
      obtain hpeek | hpeek := peek_of_ahead_nil h <;> simp [hpeek]
    rw [hfound, stop, h]
    rfl
  | cons t rest =>
    have hfound : s.peek.filter (· ≠ .eof) = some t.token := by simp [peek_of_ahead h, ne_eof_of_ahead h]
    rw [hfound, currentSpan_of_ahead h]
    rfl

/-! ## Streams that are read on -/

/-- Whether the second stream is the first one after steps over some of the tokens ahead. -/
def Reaches (s s' : TokenStream tokens) : Prop :=
  ∃ used, s.ahead = used ++ s'.ahead ∧ s'.pos = s.pos + used.length

namespace Reaches

theorem refl (s : TokenStream tokens) : Reaches s s :=
  ⟨[], rfl, rfl⟩

theorem trans (h : Reaches s s') (h' : Reaches s' s'') : Reaches s s'' := by
  obtain ⟨us, hus, hpos⟩ := h
  obtain ⟨vs, hvs, hpos'⟩ := h'
  exact ⟨us ++ vs, by rw [hus, hvs, List.append_assoc], by rw [hpos', hpos, List.length_append, Nat.add_assoc]⟩

theorem advance (h : s.ahead = t :: rest) : Reaches s s.advance :=
  ⟨[t], by rw [h, ahead_advance h]; rfl, pos_advance_of_ahead h⟩

/-- The end is where it was. -/
theorem stop_eq (h : Reaches s s') : s'.stop = s.stop := by
  obtain ⟨used, hused, hpos⟩ := h
  rw [stop, stop, hused, hpos, List.length_append, Nat.add_assoc]

/-- Between two places of a stream stand the tokens that were stepped over. -/
theorem spanFrom_eq {span : Span} (h : Reaches s s') (hused : Uses s.ahead s'.ahead (Covers · span)) :
    s'.spanFrom s.pos = span := by
  obtain ⟨used, hahead, hcovers⟩ := hused
  obtain ⟨used', hahead', hpos⟩ := h
  obtain rfl : used = used' := List.append_cancel_right (hahead.symm.trans hahead')
  have hne : used ≠ [] := by
    rintro rfl
    cases hcovers.start
  obtain ⟨us, u, hlast⟩ := (List.eq_nil_or_concat used).resolve_left hne
  rw [List.concat_eq_append] at hlast
  subst hlast
  have hlast : tokens[s'.pos - 1]? = some u := by
    rw [hpos, List.length_append]
    exact getElem?_of_ahead_append (by simpa using hahead)
  have hstart : (Located.spanAt tokens s.pos).start = span.start := by
    have hfirst := hcovers.start
    obtain ⟨t, rest, hcons⟩ := List.exists_cons_of_ne_nil hne
    rw [hcons] at hahead hfirst
    rw [Located.spanAt, getElem?_of_ahead hahead]
    exact Option.some.inj hfirst
  have hstop := hcovers.stop 0
  rw [Parser.stopAfter_append] at hstop
  have hlt : s.pos < s'.pos := by simp [hpos]
  rw [spanFrom, hstart, if_pos hlt, hlast]
  exact congrArg (Span.mk span.start) hstop

theorem spanFrom_of_fits {o : Outline} (h : Reaches s s') (hfits : Uses s.ahead s'.ahead o.Fits) :
    s'.spanFrom s.pos = o.span := by
  obtain ⟨used, hused, hfits⟩ := hfits
  exact h.spanFrom_eq ⟨used, hused, hfits.covers⟩

/-- Whether a mark comes next or not, the stream behind it is reached. -/
theorem eat (m : Mark) (s : TokenStream tokens) : Reaches s (s.eat (.mark m)).2 := by
  cases h : startsWith m s.ahead with
  | false => exact eat_of_not_startsWith h ▸ refl s
  | true =>
    obtain ⟨span, hahead⟩ := ahead_of_startsWith h
    exact eat_of_startsWith h ▸ advance hahead

end Reaches

/-- A stream only goes forward, and it cannot do so forever. -/
theorem forward_induction {motive : TokenStream tokens → Prop}
    (h : ∀ s, (∀ s' : TokenStream tokens, s.pos < s'.pos → motive s') → motive s) (s : TokenStream tokens) : motive s := by
  induction hn : tokens.size - s.pos using Nat.strongRecOn generalizing s with
  | ind n ih =>
    refine h s fun s' hlt => ih (tokens.size - s'.pos) ?_ s' rfl
    have := s'.inside
    omega

/-! ## Readers that agree -/

/-- Whether a reader of the stream does what another one does with the tokens ahead of it. -/
inductive Agrees {α : Type} (s : TokenStream tokens) :
    Except ParseError (α × TokenStream tokens) → Except Rejection (α × Tokens) → Prop
  | ok {a : α} {s' : TokenStream tokens} (h : Reaches s s') : Agrees s (.ok (a, s')) (.ok (a, s'.ahead))
  | error (r : Rejection) : Agrees s (.error (.ofRejection s.stop r)) (.error r)

namespace Agrees

variable {α β γ : Type} {x : Except ParseError (α × TokenStream tokens)} {y : Except Rejection (α × Tokens)}

theorem reaches {a : α} (h : Agrees s x y) (hx : x = .ok (a, s')) : Reaches s s' := by
  cases h with
  | error r => cases hx
  | ok hreach =>
    cases hx
    exact hreach

theorem exists_of_eq_ok {a : α} (h : Agrees s x y) (hy : y = .ok (a, rest)) :
    ∃ s', x = .ok (a, s') ∧ s'.ahead = rest := by
  cases h with
  | error r => cases hy
  | @ok _ s' hreach =>
    cases hy
    exact ⟨s', rfl, rfl⟩

/-- What agrees behind a stream agrees on it. -/
theorem before (h : Reaches s s') (hread : Agrees s' x y) : Agrees s x y := by
  cases hread with
  | ok hreach => exact .ok (h.trans hreach)
  | error r => exact h.stop_eq ▸ .error r

theorem refused (wanted : ParseError.Wanted) (h : s.ahead = rest) :
    Agrees s (.error (s.refusal wanted) : Except ParseError (α × TokenStream tokens)) (.error ⟨wanted, rest⟩) :=
  h ▸ refusal_eq wanted ▸ .error _

/-- The token that comes next is read by the step over it. -/
theorem step (h : s.ahead = t :: rest) (a : α) : Agrees s (.ok (a, s.advance)) (.ok (a, rest)) :=
  ahead_advance h ▸ .ok (.advance h)

theorem done (a : α) : Agrees s (.ok (a, s)) (.ok (a, s.ahead)) :=
  .ok (.refl s)

/-- A step that agrees, followed by steps that agree. What the reader of tokens returns may hold more than what the other
one does, as its `view` says. -/
theorem bind_view {y : Except Rejection γ} {view : γ → α × Tokens}
    {f : α × TokenStream tokens → Except ParseError (β × TokenStream tokens)} {g : γ → Except Rejection (β × Tokens)}
    (h : Agrees s x (y.map view))
    (hnext : ∀ c s', Reaches s s' → y = .ok c → x = .ok ((view c).1, s') → (view c).2 = s'.ahead →
      Agrees s' (f ((view c).1, s')) (g c)) :
    Agrees s (x >>= f) (y >>= g) := by
  cases y with
  | error r =>
    generalize hy : Except.map view (.error r) = z at h
    cases h with
    | ok hreach => cases hy
    | error r' =>
      cases hy
      exact .error r
  | ok c =>
    generalize hy : Except.map view (.ok c) = z at h
    cases h with
    | error r' => cases hy
    | ok hreach =>
      obtain ⟨rfl, hahead⟩ := Prod.ext_iff.mp (Except.ok.inj hy)
      exact (hnext c _ hreach rfl rfl hahead).before hreach

theorem bind {f : α × TokenStream tokens → Except ParseError (β × TokenStream tokens)}
    {g : α × Tokens → Except Rejection (β × Tokens)} (h : Agrees s x y)
    (hnext : ∀ a s', Reaches s s' → y = .ok (a, s'.ahead) → x = .ok (a, s') → Agrees s' (f (a, s')) (g (a, s'.ahead))) :
    Agrees s (x >>= f) (y >>= g) := by
  cases h with
  | error r => exact .error r
  | ok hreach => exact (hnext _ _ hreach rfl rfl).before hreach

theorem map (h : Agrees s x y) (f : α → β) :
    Agrees s (x.map fun (a, s') => (f a, s')) (y.map fun (a, rest) => (f a, rest)) := by
  cases h with
  | error r => exact .error r
  | ok hreach => exact .ok hreach

/-- The same, where the other reader is given as a step that returns. -/
theorem map_return (h : Agrees s x y) (f : α → β) :
    Agrees s (x.map fun (a, s') => (f a, s')) (y >>= fun (a, rest) => return (f a, rest)) := by
  cases h with
  | error r => exact .error r
  | ok hreach => exact .ok hreach

end Agrees

end TokenStream

end SchemaWire
