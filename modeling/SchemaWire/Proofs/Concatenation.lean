import SchemaWire.Proofs.ItemPrediction
import SchemaWire.Proofs.LineBreaks
import SchemaWire.Source

/-!
# Sources one after the other

Two sources with a line break between them are a source, and its items are those of the first and then those of the
second, where they stand now (`ofSource_newline`). No item of the first goes on into the second: what an item can begin
with is nothing that another one goes on with, except for the word `implements`.
-/

namespace SchemaWire

namespace Parser

variable {a b tokens left : Tokens} {body : List Item}

/-- Items that are read up to the end of the tokens are read in front of others as well, unless these begin with a token
that an item goes on with. -/
theorem readItems_append (h : readItems false a = .ok (body, left)) (hb : Avoids goesOn b) :
    readItems false (a ++ b) = (readItems false b).map fun (more, left) => (body ++ more, left) := by
  induction hn : a.length using Nat.strongRecOn generalizing a body with
  | ind n ih =>
    subst hn
    cases a with
    | nil =>
      rw [readItems_nil] at h
      cases h
      rw [List.nil_append]
      cases readItems false b <;> rfl
    | cons t rest =>
      rw [readItems_false_cons] at h
      obtain ⟨⟨item, after⟩, hitem, h⟩ := Except.bind_eq_ok_iff.mp h
      obtain ⟨⟨more, left'⟩, hmore, heq⟩ := exists_of_map_eq_ok h
      cases heq
      obtain ⟨used, htokens, hreads⟩ := (decided_nextItem (t :: rest) fun inner _ => decided_block inner).exists_of_ok hitem
      have hbehind : Avoids goesOn (after ++ b) ∨ (after ++ b).head? = after.head? := by
        cases after with
        | nil => exact .inl hb
        | cons u after => exact .inr rfl
      rw [htokens, List.append_assoc, readItems_of_nextItem (hreads _ hbehind),
        ih _ (length_of_nextItem hitem) hmore rfl, Except.map_map]
      rfl

/-- What can be read begins with no token that an item goes on with, but for the word `implements`. -/
theorem avoids_of_readItems (h : readItems false tokens = .ok (body, left))
    (hword : ∀ t ∈ tokens.head?, t.token ≠ .keyword .implementsWord) : Avoids goesOn tokens := by
  intro t ht hmem
  obtain ⟨rest, rfl⟩ := List.head?_eq_some_iff.mp ht
  have hne := hword t ht
  obtain ⟨token, span⟩ := t
  have hmark : ∃ mark : Mark, token = .mark mark ∧ mark ≠ .tripleDash := by
    cases token with
    | mark mark => exact ⟨mark, rfl, by rintro rfl; simp [goesOn, arrowGoesOn, typeGoesOn] at hmem⟩
    | keyword word =>
      have hword : word = .implementsWord := by simpa [goesOn, arrowGoesOn, typeGoesOn] using hmem
      exact absurd (congrArg Token.keyword hword) hne
    | _ => simp [goesOn, arrowGoesOn, typeGoesOn] at hmem
  obtain ⟨mark, rfl, hdash⟩ := hmark
  have hnone : comment? (⟨.mark mark, span⟩ :: rest) = .ok none := by
    unfold comment?
    grind
  rw [readItems_item hnone (by simp) (by simp), keywordItem_error rfl] at h
  cases h

end Parser

/-- A tree is read off the tokens of its source before the end. -/
theorem exists_of_ofSource {source : List Char} {s : Schema} (h : Schema.ofSource source = .ok s) :
    ∃ tokens left, lex source = .ok tokens ∧ Parser.readItems false (Located.beforeEof tokens) = .ok (s.body, left) := by
  obtain ⟨tokens, hlex, h⟩ := Except.bind_eq_ok_iff.mp h
  obtain ⟨left, hitems⟩ := Parser.exists_of_ofTokens (Except.mapError_eq_ok_iff.mp h)
  refine ⟨tokens, left.1, Except.mapError_eq_ok_iff.mp hlex, ?_⟩
  rw [Parser.readItems, hitems]
  rfl

/-- Two sources with a line break between them are a source, unless the second begins with the word `implements`. Its
items are those of the first and then those of the second, where they stand now. -/
theorem ofSource_newline {a b : List Char} {s t : Schema} (ha : Schema.ofSource a = .ok s)
    (hb : Schema.ofSource b = .ok t)
    (hfirst : ∀ tokens, lex b = .ok tokens → tokens.head?.map Located.token ≠ some (.keyword .implementsWord)) :
    Schema.ofSource (a ++ '\n' :: b) =
      .ok ⟨s.body ++ t.body.map (Item.relocated (· + (Utf8.size a + 1))), ⟨0, Utf8.size (a ++ '\n' :: b)⟩⟩ := by
  obtain ⟨first, left, hlexA, hreadA⟩ := exists_of_ofSource ha
  obtain ⟨second, left', hlexB, hreadB⟩ := exists_of_ofSource hb
  let f (n : Nat) := n + (Utf8.size a + 1)
  have hlex : lex (a ++ '\n' :: b) = .ok (Located.beforeEof first ++ second.map (Located.relocated f)) := by
    rw [Lexer.lex_newline_eq hlexA, hlexB]
    rfl
  have hbefore : Located.beforeEof (Located.beforeEof first ++ second.map (Located.relocated f)) =
      Located.beforeEof first ++ Parser.allRelocated f (Located.beforeEof second) := by
    rw [Located.beforeEof_append fun t ht => Located.ne_eof_of_mem_beforeEof ht, Located.beforeEof_relocated]
    rfl
  have hmoved : Parser.readItems false (Parser.allRelocated f (Located.beforeEof second)) =
      .ok (t.body.map (Item.relocated f), Parser.allRelocated f left') := by
    rw [Parser.readItems_relocated, hreadB]
    rfl
  have havoids : Parser.Avoids Parser.goesOn (Parser.allRelocated f (Located.beforeEof second)) := by
    apply Parser.avoids_of_readItems hmoved
    intro u hu hword
    rw [Parser.allRelocated, List.head?_map] at hu
    obtain ⟨v, hv, rfl⟩ := Option.map_eq_some_iff.mp hu
    apply hfirst second hlexB
    rw [Located.head?_of_beforeEof hv]
    exact congrArg some hword
  have hread := Parser.readItems_append hreadA havoids
  rw [hmoved, ← hbefore] at hread
  have hstop : ((Located.beforeEof first ++ second.map (Located.relocated f)).getLast?.map (·.span.stop)).getD 0 =
      Utf8.size (a ++ '\n' :: b) := by
    rw [Lexer.eq_beforeEof_append hlexB, List.map_append, List.map_singleton, ← List.append_assoc,
      List.getLast?_concat, Utf8.size_append]
    show 0 + Utf8.size b + (Utf8.size a + 1) = Utf8.size a + (1 + Utf8.size b)
    omega
  have htree := Parser.ofTokens_of_readItems hread
  rw [hstop] at htree
  rw [Schema.ofSource, hlex]
  show (Schema.ofTokens _).mapError _ = _
  rw [htree]
  rfl

/-- A declaration that ends without a mark does not take the first name of the one behind the line break. -/
theorem ofSource_newline_declarations :
    ∃ s t, Schema.ofSource ['a', ' ', 'b'] = .ok s ∧ Schema.ofSource ['c', ' ', 'd'] = .ok t ∧
      Schema.ofSource ['a', ' ', 'b', '\n', 'c', ' ', 'd'] =
        .ok ⟨s.body ++ t.body.map (Item.relocated (· + 4)), ⟨0, 7⟩⟩ := by
  let path (text : String) (start : Nat) : TypePath := ⟨[⟨text, ⟨start, start + 1⟩⟩], ⟨start, start + 1⟩⟩
  let tree (name ctor : String) : Schema := ⟨[.declaration ⟨path ctor 2, path name 0, [], ⟨0, 3⟩⟩], ⟨0, 3⟩⟩
  let ahead (name ctor : String) : Parser.Tokens := [⟨.ident name, ⟨0, 1⟩⟩, ⟨.ident ctor, ⟨2, 3⟩⟩]
  have hlex {c d : Char} {name ctor : String} (hc : Lexer.isSkipped c = false) (hd : Lexer.isSkipped d = false)
      (hname : Lexer.scan c [' ', d] = ⟨.ok (.ident name), [c], [' ', d]⟩)
      (hctor : Lexer.scan d [] = ⟨.ok (.ident ctor), [d], []⟩) (hone : c.utf8Size = 1 ∧ d.utf8Size = 1) :
      lex [c, ' ', d] = .ok (ahead name ctor ++ [⟨.eof, ⟨3, 3⟩⟩]) := by
    rw [lex, Lexer.lexFrom_of_ok (by simp [hc]) (by rw [hname]), hname, Lexer.lexFrom_skipped rfl,
      Lexer.lexFrom_of_ok (by simp [hd]) (by rw [hctor]), hctor, Lexer.lexFrom_nil]
    simp [Utf8.size, hone, ahead, Except.map]
    rfl
  have hparse (name ctor : String) : Schema.ofTokens (ahead name ctor ++ [⟨.eof, ⟨3, 3⟩⟩]) = .ok (tree name ctor) := by
    apply Parser.ofTokens_of_readItems
    have hitem : Parser.nextItem (ahead name ctor) = .ok (.declaration ⟨path ctor 2, path name 0, [], ⟨0, 3⟩⟩, []) := rfl
    have hbefore : Located.beforeEof (ahead name ctor ++ [⟨.eof, ⟨3, 3⟩⟩]) = ahead name ctor := rfl
    rw [hbefore, Parser.readItems_of_nextItem hitem, Parser.readItems_nil]
    rfl
  have hfirst := hlex (c := 'a') (d := 'b') rfl rfl rfl rfl ⟨rfl, rfl⟩
  have hsecond := hlex (c := 'c') (d := 'd') rfl rfl rfl rfl ⟨rfl, rfl⟩
  have hsource : Schema.ofSource ['a', ' ', 'b'] = .ok (tree "a" "b") := by
    rw [Schema.ofSource, hfirst]
    exact Except.mapError_eq_ok_iff.mpr (hparse "a" "b")
  have hsource' : Schema.ofSource ['c', ' ', 'd'] = .ok (tree "c" "d") := by
    rw [Schema.ofSource, hsecond]
    exact Except.mapError_eq_ok_iff.mpr (hparse "c" "d")
  refine ⟨_, _, hsource, hsource', ofSource_newline hsource hsource' fun tokens h => ?_⟩
  rw [hsecond] at h
  cases h
  simp [ahead]

end SchemaWire
