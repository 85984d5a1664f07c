import SchemaWire.Proofs.Stages

/-!
# One token decides

A reader decides by the next token whether it goes on, and never goes on into a dead end. What it takes off the front of
tokens it takes off the front of others as well, unless they begin with a token that it goes on with. Where it refuses a
token, it refuses it whatever follows, and the tokens before could have been gone on with in another way. `Decided` says
this of a reader at given tokens. It holds of all readers of the parser, as it holds of readers one after the other
(`Decided.bind`).
-/

namespace SchemaWire.Parser

variable {α β ρ σ : Type} {mk : α → Tokens → ρ} {mk' : β → Tokens → σ} {loud loud' avoided : List Token}
  {read read' : Tokens → Except Rejection ρ} {k : ρ → Except Rejection σ} {tokens rest others : Tokens} {t : Located}
  {span : Span} {mark : Mark}

/-- The tokens do not begin with any of these. -/
def Avoids (loud : List Token) (tokens : Tokens) : Prop :=
  ∀ t ∈ tokens.head?, t.token ∉ loud

theorem avoids_nil (loud : List Token) : Avoids loud [] := by
  simp [Avoids]

theorem Avoids.mono (h : Avoids loud' tokens) (hloud : loud ⊆ loud') : Avoids loud tokens :=
  fun t ht hmem => h t ht (hloud hmem)

theorem Avoids.startsWith_eq_false (h : Avoids loud tokens) (hmark : .mark mark ∈ loud) :
    startsWith mark tokens = false := by
  cases tokens with
  | nil => rfl
  | cons t rest =>
    have hne : t.token ≠ .mark mark := fun heq => h t rfl (heq ▸ hmark)
    simpa [startsWith] using hne

/-- What a reader does not go on with does not come next: neither in tokens that begin with nothing it goes on with, nor
where the next token is the same. -/
theorem startsWith_eq_false_of_near (h : Avoids loud others ∨ others.head? = tokens.head?) (hmark : .mark mark ∈ loud)
    (htokens : startsWith mark tokens = false) : startsWith mark others = false := by
  rcases h with h | h
  · exact h.startsWith_eq_false hmark
  · rw [startsWith_congr h, htokens]

theorem Avoids.append (htokens : Avoids loud tokens) (hothers : Avoids loud others) : Avoids loud (tokens ++ others) := by
  cases tokens with
  | nil => exact hothers
  | cons t rest => exact htokens

/-- There is something to read, without an end of a source in it and beginning with none of the tokens to avoid, that is
read whatever comes behind it, except what a reader may go on with. -/
def Opens (avoided loud : List Token) (mk : α → Tokens → ρ) (read : Tokens → Except Rejection ρ) : Prop :=
  ∃ completion x, (∀ t ∈ completion, t.token ≠ .eof) ∧ Avoids avoided completion ∧
    ∀ others, Avoids loud others → read (completion ++ others) = .ok (mk x others)

/-- What a reader does is decided by the tokens that it takes and the one after them. Behind what it took may stand
anything but the tokens that it goes on with. Where it refuses a token, the tokens before can be completed. -/
inductive Decided (mk : α → Tokens → ρ) (loud : List Token) (read : Tokens → Except Rejection ρ) (tokens : Tokens) : Prop
  | took (used rest : Tokens) (x : α) (htokens : tokens = used ++ rest)
    (hread : ∀ others, Avoids loud others ∨ others.head? = rest.head? → read (used ++ others) = .ok (mk x others))
  | refused (used rest : Tokens) (wanted : ParseError.Wanted) (htokens : tokens = used ++ rest)
    (hread : ∀ others, others.head? = rest.head? → read (used ++ others) = .error ⟨wanted, others⟩)
    (hwanted : ∀ p, wanted = .noSize p → rest ≠ [])
    (hopen : Opens [] loud mk fun others => read (used ++ others))

theorem head?_append_of_ne_nil (h : tokens ≠ []) (rest others : Tokens) :
    (tokens ++ others).head? = (tokens ++ rest).head? := by
  cases tokens with
  | nil => exact absurd rfl h
  | cons t more => rfl

/-! ## Putting readers together -/

namespace Opens

/-- Nothing has to be read. -/
theorem done (x : α) (hread : ∀ others, Avoids loud others → read others = .ok (mk x others)) :
    Opens avoided loud mk read :=
  ⟨[], x, (by simp), avoids_nil _, hread⟩

/-- A token can be put before what can be read behind it. -/
theorem cons (token : Token) (heq : ∀ others, read (⟨token, ⟨0, 0⟩⟩ :: others) = read' others)
    (h : Opens [] loud mk read') (heof : token ≠ .eof) (havoided : token ∉ avoided) : Opens avoided loud mk read := by
  obtain ⟨completion, x, hplain, -, hread⟩ := h
  refine ⟨⟨token, ⟨0, 0⟩⟩ :: completion, x, ?_, by simpa [Avoids] using havoided, fun others h => ?_⟩
  · rintro t (_ | ⟨_, ht⟩)
    · exact heof
    · exact hplain t ht
  · exact (heq _).trans (hread others h)

/-- One token is enough. -/
theorem take (token : Token) (x : α) (hread : ∀ others, read (⟨token, ⟨0, 0⟩⟩ :: others) = .ok (mk x others))
    (heof : token ≠ .eof) (havoided : token ∉ avoided) : Opens avoided loud mk read :=
  cons token (fun _ => rfl) (done x fun others _ => hread others) heof havoided

theorem bind (h : Opens avoided loud mk read) (hloud : loud ⊆ loud')
    (hk : ∀ x, Opens (avoided ++ loud) loud' mk' fun others => k (mk x others)) :
    Opens avoided loud' mk' fun others => read others >>= k := by
  obtain ⟨completion, x, hplain, havoids, hread⟩ := h
  obtain ⟨completion', y, hplain', havoids', hread'⟩ := hk x
  refine ⟨completion ++ completion', y, ?_, havoids.append (havoids'.mono (List.subset_append_left ..)),
    fun others h => ?_⟩
  · intro t ht
    rcases List.mem_append.mp ht with ht | ht
    · exact hplain t ht
    · exact hplain' t ht
  · have hbehind := (havoids'.mono (List.subset_append_right ..)).append (h.mono hloud)
    show (read (completion ++ completion' ++ others) >>= k) = _
    rw [List.append_assoc, hread _ hbehind]
    exact hread' others h

/-- What is made of what was read reads nothing more. -/
theorem bind_done (g : α → β) (h : Opens avoided loud mk read) (hk : ∀ x rest, k (mk x rest) = .ok (mk' (g x) rest)) :
    Opens avoided loud mk' fun others => read others >>= k :=
  h.bind (List.Subset.refl _) fun x => .done (g x) fun _ _ => hk x _

theorem map {f : ρ → σ} (g : α → β) (h : Opens avoided loud mk read) (hf : ∀ x rest, f (mk x rest) = mk' (g x) rest) :
    Opens avoided loud mk' fun others => (read others).map f := by
  obtain ⟨completion, x, hplain, havoids, hread⟩ := h
  refine ⟨completion, g x, hplain, havoids, fun others h => ?_⟩
  show (read (completion ++ others)).map f = _
  rw [hread others h, ← hf]
  rfl

theorem mono (h : Opens avoided loud mk read) (hloud : loud ⊆ loud') : Opens avoided loud' mk read := by
  obtain ⟨completion, x, hplain, havoids, hread⟩ := h
  exact ⟨completion, x, hplain, havoids, fun others h => hread others (h.mono hloud)⟩

end Opens

namespace Decided

theorem mono (h : Decided mk loud read tokens) (hloud : loud ⊆ loud') : Decided mk loud' read tokens := by
  cases h with
  | took used rest x htokens hread =>
    exact .took used rest x htokens fun others h => hread others (h.imp_left (·.mono hloud))
  | refused used rest wanted htokens hread hwanted hopen =>
    exact .refused used rest wanted htokens hread hwanted (hopen.mono hloud)

/-- A reader that takes nothing. -/
theorem done (x : α) (hread : ∀ others, Avoids loud others ∨ others.head? = tokens.head? → read others = .ok (mk x others)) :
    Decided mk loud read tokens :=
  .took [] tokens x rfl hread

/-- A reader that refuses the end of the tokens. -/
theorem refuse_nil (wanted : ParseError.Wanted) (hread : read [] = .error ⟨wanted, []⟩)
    (hwanted : ∀ p, wanted ≠ .noSize p) (hopen : Opens [] loud mk read) : Decided mk loud read [] := by
  refine .refused [] [] wanted rfl (fun others h => ?_) (fun p hp => absurd hp (hwanted p)) hopen
  rw [List.head?_eq_none_iff.mp h]
  exact hread

/-- A reader that refuses the first token. -/
theorem refuse_cons (wanted : ParseError.Wanted) (hread : ∀ more, read (t :: more) = .error ⟨wanted, t :: more⟩)
    (hopen : Opens [] loud mk read) : Decided mk loud read (t :: rest) := by
  refine .refused [] (t :: rest) wanted rfl (fun others h => ?_) (fun _ _ => by simp) hopen
  obtain ⟨more, rfl⟩ := List.head?_eq_some_iff.mp h
  exact hread more

/-- A reader that takes the first token and nothing more. -/
theorem take (x : α) (hread : ∀ others, read (t :: others) = .ok (mk x others)) : Decided mk loud read (t :: rest) :=
  .took [t] rest x rfl fun others _ => hread others

/-- A reader that takes the first token. -/
theorem cons (heq : ∀ others, read (t :: others) = read' others) (h : Decided mk loud read' rest) :
    Decided mk loud read (t :: rest) := by
  cases h with
  | took used left x htokens hread =>
    exact .took (t :: used) left x (by rw [htokens]; rfl) fun others h => (heq _).trans (hread others h)
  | refused used left wanted htokens hread hwanted hopen =>
    refine .refused (t :: used) left wanted (by rw [htokens]; rfl) (fun others h => (heq _).trans (hread others h)) hwanted ?_
    obtain ⟨completion, x, hplain, havoids, hcompletes⟩ := hopen
    exact ⟨completion, x, hplain, havoids, fun others h => (heq _).trans (hcompletes others h)⟩

/-- A reader that another one stands for where the first token is this one. -/
theorem of_head (h : Decided mk loud read' tokens)
    (hagree : ∀ others, others.head? = tokens.head? → read others = read' others)
    (hstop : ∀ x, read' tokens = .ok (mk x tokens) → ∀ others, Avoids loud others → read others = read' others)
    (hopen : Opens [] loud mk read) : Decided mk loud read tokens := by
  cases h with
  | took used rest x htokens hread =>
    subst htokens
    refine .took used rest x rfl fun others h => ?_
    by_cases hused : used = []
    · subst hused
      rcases h with h | h
      · have hnothing : read' rest = .ok (mk x rest) := hread rest (.inr rfl)
        exact (hstop x hnothing others h).trans (hread others (.inl h))
      · exact (hagree others h).trans (hread others (.inr h))
    · exact (hagree _ (head?_append_of_ne_nil hused rest others)).trans (hread others h)
  | refused used rest wanted htokens hread hwanted hcompletes =>
    subst htokens
    by_cases hused : used = []
    · subst hused
      exact .refused [] rest wanted rfl (fun others h => (hagree others h).trans (hread others h)) hwanted hopen
    · have hsame (others : Tokens) : read (used ++ others) = read' (used ++ others) :=
        hagree _ (head?_append_of_ne_nil hused rest others)
      refine .refused used rest wanted rfl (fun others h => (hsame others).trans (hread others h)) hwanted ?_
      obtain ⟨completion, x, hplain, havoids, hcompletes⟩ := hcompletes
      exact ⟨completion, x, hplain, havoids, fun others h => (hsame _).trans (hcompletes others h)⟩

/-- A reader that takes something, and that another one stands for where the first token is this one. -/
theorem of_first (h : Decided mk loud read' (t :: rest)) (hagree : ∀ more, read (t :: more) = read' (t :: more))
    (hshorter : ∀ x left, read (t :: rest) = .ok (mk x left) → left.length < (t :: rest).length)
    (hopen : Opens [] loud mk read) : Decided mk loud read (t :: rest) := by
  refine h.of_head (fun others hhead => ?_) (fun x hread => ?_) hopen
  · obtain ⟨more, rfl⟩ := List.head?_eq_some_iff.mp hhead
    exact hagree more
  · rw [← hagree] at hread
    exact absurd (hshorter x _ hread) (Nat.lt_irrefl _)

/-- Two readers, one after the other. What the second one can read must not begin with a token that the first one goes on
with. -/
theorem bind (h : Decided mk loud read tokens) (hloud : loud ⊆ loud')
    (hk : ∀ x rest, read tokens = .ok (mk x rest) → Decided mk' loud' (fun others => k (mk x others)) rest)
    (hopen : ∀ x, Opens loud loud' mk' fun others => k (mk x others)) :
    Decided mk' loud' (fun others => read others >>= k) tokens := by
  cases h with
  | took used rest x htokens hread =>
    subst htokens
    have hfirst (others : Tokens) (h : Avoids loud others ∨ others.head? = rest.head?) :
        (read (used ++ others) >>= k) = k (mk x others) := by
      rw [hread others h]
      rfl
    -- Where the second reader took nothing, the first one sees what comes after it.
    rcases hk x rest (hread rest (.inr rfl)) with
      ⟨used', rest', y, htokens, hread'⟩ | ⟨used', rest', wanted, htokens, hread', hwanted, hcompletes⟩
    · subst htokens
      refine .took (used ++ used') rest' y (by simp) fun others h => ?_
      rw [List.append_assoc, hfirst, hread' others h]
      by_cases hused : used' = []
      · subst hused
        exact h.imp_left (·.mono hloud)
      · exact .inr (head?_append_of_ne_nil hused rest' others)
    · subst htokens
      refine .refused (used ++ used') rest' wanted (by simp) (fun others h => ?_) hwanted ?_
      · rw [List.append_assoc, hfirst, hread' others h]
        by_cases hused : used' = []
        · subst hused
          exact .inr h
        · exact .inr (head?_append_of_ne_nil hused rest' others)
      · by_cases hused : used' = []
        · subst hused
          obtain ⟨completion, y, hplain, havoids, hcompletes⟩ := hopen x
          refine ⟨completion, y, hplain, by simp [Avoids], fun others h => ?_⟩
          show (read (used ++ [] ++ (completion ++ others)) >>= k) = _
          rw [List.append_nil, hfirst _ (.inl (havoids.append (h.mono hloud)))]
          exact hcompletes others h
        · obtain ⟨completion, y, hplain, havoids, hcompletes⟩ := hcompletes
          refine ⟨completion, y, hplain, havoids, fun others h => ?_⟩
          show (read (used ++ used' ++ (completion ++ others)) >>= k) = _
          rw [List.append_assoc, hfirst _ (.inr (head?_append_of_ne_nil hused rest' _))]
          exact hcompletes others h
  | refused used rest wanted htokens hread hwanted hcompletes =>
    refine .refused used rest wanted htokens (fun others h => ?_) hwanted ?_
    · rw [hread others h]
      rfl
    · obtain ⟨completion, x, hplain, -, hcompletes⟩ := hcompletes
      obtain ⟨completion', y, hplain', havoids, hcompletes'⟩ := hopen x
      refine ⟨completion ++ completion', y, ?_, by simp [Avoids], fun others h => ?_⟩
      · intro t ht
        rcases List.mem_append.mp ht with ht | ht
        · exact hplain t ht
        · exact hplain' t ht
      · have hfirst : read (used ++ (completion ++ (completion' ++ others))) = .ok (mk x (completion' ++ others)) :=
          hcompletes _ (havoids.append (h.mono hloud))
        show (read (used ++ (completion ++ completion' ++ others)) >>= k) = _
        rw [List.append_assoc, hfirst]
        exact hcompletes' others h

/-- A reader behind which nothing more is read. -/
theorem bind_done (g : α → β) (h : Decided mk loud read tokens) (hk : ∀ x rest, k (mk x rest) = .ok (mk' (g x) rest)) :
    Decided mk' loud (fun others => read others >>= k) tokens :=
  h.bind (List.Subset.refl _) (fun x _ _ => .done (g x) fun _ _ => hk x _) fun x => .done (g x) fun _ _ => hk x _

/-- What a reader makes of what another one read. -/
theorem map {f : ρ → σ} (g : α → β) (h : Decided mk loud read tokens) (hf : ∀ x rest, f (mk x rest) = mk' (g x) rest) :
    Decided mk' loud (fun others => (read others).map f) tokens := by
  cases h with
  | took used rest x htokens hread =>
    refine .took used rest (g x) htokens fun others h => ?_
    rw [hread others h, ← hf]
    rfl
  | refused used rest wanted htokens hread hwanted hopen =>
    exact .refused used rest wanted htokens (fun others h => by rw [hread others h]; rfl) hwanted (hopen.map g hf)

/-- What was read is read where other tokens are behind it. -/
theorem exists_of_ok {read : Tokens → Except Rejection (α × Tokens)} {x : α} (h : Decided Prod.mk loud read tokens)
    (hread : read tokens = .ok (x, rest)) :
    ∃ used, tokens = used ++ rest ∧
      ∀ others, Avoids loud others ∨ others.head? = rest.head? → read (used ++ others) = .ok (x, others) := by
  cases h with
  | took used left y htokens hreads =>
    have hsame := hreads left (.inr rfl)
    rw [← htokens, hread] at hsame
    cases hsame
    exact ⟨used, htokens, hreads⟩
  | refused used left wanted htokens hreads _ _ =>
    have hrefused := hreads left rfl
    rw [← htokens, hread] at hrefused
    cases hrefused

/-- What was refused is refused whatever follows, and could have been something else. -/
theorem exists_of_error {e : Rejection} (h : Decided mk loud read tokens) (hread : read tokens = .error e) :
    ∃ used, tokens = used ++ e.rest ∧
      (∀ others, others.head? = e.rest.head? → read (used ++ others) = .error ⟨e.wanted, others⟩) ∧
      (∀ p, e.wanted = .noSize p → e.rest ≠ []) ∧ Opens [] loud mk fun others => read (used ++ others) := by
  cases h with
  | took used left y htokens hreads =>
    have htaken := hreads left (.inr rfl)
    rw [← htokens, hread] at htaken
    cases htaken
  | refused used left wanted htokens hreads hwanted hopen =>
    have hsame := hreads left rfl
    rw [← htokens, hread] at hsame
    cases hsame
    exact ⟨used, htokens, hreads, hwanted, hopen⟩

end Decided

end SchemaWire.Parser
