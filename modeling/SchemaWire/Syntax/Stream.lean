import SchemaWire.Syntax.ParseError

/-!
# Streams of tokens

A stream is a place in an array of tokens. The parser looks at the token there or at one of the next, and steps over the
token there. The end of the source is a token that can be looked at but is never stepped over, and an array without one
ends where its tokens do.

A loop of the parser is one turn, repeated until it says that it is done. `Loop` keeps a turn together with the proof
that it steps forward where it goes on, and so `Loop.run` is left on every stream.
-/

namespace SchemaWire

theorem exists_of_map_eq_ok {ε α β : Type} {x : Except ε α} {f : α → β} {b : β} (h : x.map f = .ok b) :
    ∃ a, x = .ok a ∧ f a = b := by
  cases x with
  | error e => simp [Except.map] at h
  | ok a => exact ⟨a, rfl, by simpa [Except.map] using h⟩

theorem exists_of_bind_eq_ok {ε α β : Type} {x : Except ε α} {f : α → Except ε β} {b : β} (h : (x >>= f) = .ok b) :
    ∃ a, x = .ok a ∧ f a = .ok b := by
  cases x with
  | error e => cases h
  | ok a => exact ⟨a, rfl, h⟩

/-- Whether two tokens are of one sort. Only the sorts whose tokens carry a text or a number have several tokens. -/
def Token.isLike : Token → Token → Bool
  | .boolean _, .boolean _ => true
  | .integer _, .integer _ => true
  | .float _, .float _ => true
  | .string _, .string _ => true
  | .ident _, .ident _ => true
  | .comment _, .comment _ => true
  | token, other => token = other

@[simp] theorem Token.isLike_mark (token : Token) (m : Mark) : token.isLike (.mark m) = decide (token = .mark m) := by
  cases token <;> rfl

@[simp] theorem Token.isLike_keyword (token : Token) (word : Keyword) :
    token.isLike (.keyword word) = decide (token = .keyword word) := by
  cases token <;> rfl

/-- Where a token of an array stands, or the last token if there are not as many. -/
def Located.spanAt (tokens : Array Located) (n : Nat) : Span :=
  ((tokens[n]?.or tokens.back?).map Located.span).getD ⟨0, 0⟩

/-- A place before one of some tokens, or behind them all. -/
structure TokenStream (tokens : Array Located) where
  pos : Nat
  inside : pos ≤ tokens.size

namespace TokenStream

variable {tokens : Array Located} {s s' : TokenStream tokens} {token : Token} {mark : Mark}

/-- The stream of all tokens. -/
def ofTokens (tokens : Array Located) : TokenStream tokens :=
  ⟨0, Nat.zero_le _⟩

/-- The next token. -/
def peek (s : TokenStream tokens) : Option Token :=
  tokens[s.pos]?.map Located.token

/-- The token that many places behind the next one. -/
def peekNth (s : TokenStream tokens) (n : Nat) : Option Token :=
  tokens[s.pos + n]?.map Located.token

/-- Steps over the next token, but not over the end of the source. -/
def advance (s : TokenStream tokens) : TokenStream tokens :=
  if h : s.pos < tokens.size then
    if tokens[s.pos].token = .eof then s else ⟨s.pos + 1, h⟩
  else s

/-- Whether the next token is of the sort of `expected`. -/
def check (expected : Token) (s : TokenStream tokens) : Bool :=
  s.peek.any (·.isLike expected)

/-- Steps over the next token if it is of the sort of `expected`, and says whether it is. -/
def eat (expected : Token) (s : TokenStream tokens) : Bool × TokenStream tokens :=
  if s.check expected then (true, s.advance) else (false, s)

/-- Whether no token is left but for the end of the source. -/
def atEnd (s : TokenStream tokens) : Bool :=
  match s.peek with
  | none => true
  | some token => token = .eof

/-- Where the next token stands, or the last one where there is none. -/
def currentSpan (s : TokenStream tokens) : Span :=
  Located.spanAt tokens s.pos

/-- The place from the token at `start` up to the one stepped over last. -/
def spanFrom (start : Nat) (s : TokenStream tokens) : Span :=
  let first := (Located.spanAt tokens start).start
  ⟨first, if start < s.pos then (tokens[s.pos - 1]?.map (·.span.stop)).getD first else first⟩

/-- The report that the next token is none that is wanted. -/
def refusal (wanted : ParseError.Wanted) (s : TokenStream tokens) : ParseError :=
  ⟨wanted, s.peek.filter (· ≠ .eof), s.currentSpan⟩

/-- Steps over a mark that has to come next, and returns its place. -/
def expect (mark : Mark) (s : TokenStream tokens) : Except ParseError (Span × TokenStream tokens) :=
  if s.check (.mark mark) then .ok (s.currentSpan, s.advance) else .error (s.refusal (.mark mark))

/-! ## Steps go forward -/

theorem pos_le_advance (s : TokenStream tokens) : s.pos ≤ s.advance.pos := by
  unfold advance
  grind

theorem pos_advance_of_peek (h : s.peek = some token) (hne : token ≠ .eof) : s.advance.pos = s.pos + 1 := by
  unfold peek at h
  unfold advance
  grind

theorem pos_lt_advance (h : s.peek = some token) (hne : token ≠ .eof) : s.pos < s.advance.pos := by
  rw [pos_advance_of_peek h hne]
  exact Nat.lt_add_one _

theorem check_mark : s.check (.mark mark) = true ↔ s.peek = some (.mark mark) := by
  unfold check
  cases s.peek <;> simp

theorem check_keyword {word : Keyword} : s.check (.keyword word) = true ↔ s.peek = some (.keyword word) := by
  unfold check
  cases s.peek <;> simp

theorem pos_lt_of_check (h : s.check (.mark mark) = true) : s.pos < s.advance.pos :=
  pos_lt_advance (check_mark.mp h) nofun

theorem pos_le_eat (expected : Token) (s : TokenStream tokens) : s.pos ≤ (s.eat expected).2.pos := by
  unfold eat
  split
  · exact s.pos_le_advance
  · exact Nat.le_refl _

theorem pos_lt_of_eat (h : s.eat (.mark mark) = (true, s')) : s.pos < s'.pos := by
  unfold eat at h
  split at h
  · cases h
    exact pos_lt_of_check ‹_›
  · cases h

theorem pos_lt_of_expect {span : Span} (h : s.expect mark = .ok (span, s')) : s.pos < s'.pos := by
  unfold expect at h
  split at h
  · cases h
    exact pos_lt_of_check ‹_›
  · cases h

end TokenStream

/-! ## Loops -/

/-- What a turn of a loop comes to: the loop is left, it is left with one entry more, or it goes on behind an entry. -/
inductive Turn (α : Type)
  | leave
  | last (entry : α)
  | again (entry : α)
  deriving DecidableEq, Repr

/-- A loop of the parser, by its turn. No turn steps back, and one that goes on has stepped forward. -/
structure Loop (tokens : Array Located) (α : Type) where
  turn : TokenStream tokens → Except ParseError (Turn α × TokenStream tokens)
  pos_le : ∀ {s t s'}, turn s = .ok (t, s') → s.pos ≤ s'.pos
  pos_lt : ∀ {s a s'}, turn s = .ok (.again a, s') → s.pos < s'.pos

namespace Loop

variable {tokens : Array Located} {α : Type} {l : Loop tokens α} {s s' : TokenStream tokens}

/-- Takes turns until one leaves the loop, and returns the entries. -/
def run (l : Loop tokens α) (s : TokenStream tokens) : Except ParseError (List α × TokenStream tokens) :=
  match h : l.turn s with
  | .error e => .error e
  | .ok (.leave, s') => .ok ([], s')
  | .ok (.last a, s') => .ok ([a], s')
  | .ok (.again a, s') =>
    have := l.pos_lt h
    have := s'.inside
    (l.run s').map fun (more, left) => (a :: more, left)
termination_by tokens.size - s.pos

/-- A loop is its turn, and the loop again where the turn says so. -/
theorem run_eq (l : Loop tokens α) (s : TokenStream tokens) :
    l.run s = match l.turn s with
      | .error e => .error e
      | .ok (.leave, s') => .ok ([], s')
      | .ok (.last a, s') => .ok ([a], s')
      | .ok (.again a, s') => (l.run s').map fun (more, left) => (a :: more, left) := by
  rw [run]
  split <;> simp_all

theorem run_of_error {e : ParseError} (h : l.turn s = .error e) : l.run s = .error e := by
  rw [run_eq, h]

theorem run_of_leave (h : l.turn s = .ok (.leave, s')) : l.run s = .ok ([], s') := by
  rw [run_eq, h]

/-- The loop goes on behind every entry that its turn reads. -/
theorem run_of_again {found : Except ParseError (α × TokenStream tokens)}
    (h : l.turn s = found.map fun r => (.again r.1, r.2)) :
    l.run s = found >>= fun (a, s') => (l.run s').map fun (more, left) => (a :: more, left) := by
  rw [run_eq, h]
  cases found <;> rfl

theorem pos_le_of_run {entries : List α} (h : l.run s = .ok (entries, s')) : s.pos ≤ s'.pos := by
  fun_induction run l s generalizing entries with
  | case1 => cases h
  | case2 s t hturn =>
    cases h
    exact l.pos_le hturn
  | case3 s a t hturn =>
    cases h
    exact l.pos_le hturn
  | case4 s a t hturn _ _ ih =>
    obtain ⟨⟨more, left⟩, hrun, heq⟩ := exists_of_map_eq_ok h
    cases heq
    exact Nat.le_trans (l.pos_le hturn) (ih hrun)

/-- The turn that has read an entry of a list with commas: it goes on if a comma comes next. -/
def commaTurn (found : α × TokenStream tokens) : Turn α × TokenStream tokens :=
  match found.2.eat (.mark .comma) with
  | (true, s) => (.again found.1, s)
  | (false, s) => (.last found.1, s)

theorem pos_le_of_commaTurn {found : α × TokenStream tokens} {t : Turn α} (h : commaTurn found = (t, s')) :
    found.2.pos ≤ s'.pos := by
  have := found.2.pos_le_eat (.mark .comma)
  unfold commaTurn at h
  grind

/-- The loop over entries that have commas between them, where each of them steps forward. -/
def separated (read : TokenStream tokens → Except ParseError (α × TokenStream tokens))
    (pos_lt : ∀ {s a s'}, read s = .ok (a, s') → s.pos < s'.pos) : Loop tokens α where
  turn s := (read s).map commaTurn
  pos_le h := by grind [→ exists_of_map_eq_ok, → pos_le_of_commaTurn]
  pos_lt h := by grind [→ exists_of_map_eq_ok, → pos_le_of_commaTurn]

theorem run_separated {read : TokenStream tokens → Except ParseError (α × TokenStream tokens)}
    (pos_lt : ∀ {s a s'}, read s = .ok (a, s') → s.pos < s'.pos) (s : TokenStream tokens) :
    (separated read pos_lt).run s = read s >>= fun (a, s') =>
      if s'.check (.mark .comma) then
        ((separated read pos_lt).run s'.advance).map fun (more, left) => (a :: more, left)
      else .ok ([a], s') := by
  rw [run_eq]
  simp only [separated]
  cases read s with
  | error e => rfl
  | ok found =>
    simp only [Except.map, commaTurn, TokenStream.eat, bind, Except.bind]
    cases found.2.check (.mark .comma) <;> rfl

end Loop

end SchemaWire
