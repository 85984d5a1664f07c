import Mathlib.Data.List.Pairwise
import SchemaWire.Proofs.Concatenation
import SchemaWire.Proofs.Sites

/-!
# Places nest

The tokens of a source are not empty and stand one behind the other, so what lies on them nests: every node of a tree
lies in the node that holds it, and the nodes of a list stand one behind the other (`isNested_of_ofSource`).
-/

namespace SchemaWire

namespace Parser

/-- Tokens that are not empty and stand one behind the other. -/
structure AreOrdered (tokens : Tokens) : Prop where
  nonempty : ∀ t ∈ tokens, t.span.start < t.span.stop
  apart : tokens.Pairwise fun t u => t.span.stop ≤ u.span.start

variable {tokens used more : Tokens} {span : Span}

theorem AreOrdered.sublist (h : AreOrdered tokens) (hused : used.Sublist tokens) : AreOrdered used :=
  ⟨fun t ht => h.nonempty t (hused.subset ht), h.apart.sublist hused⟩

theorem AreOrdered.left (h : AreOrdered (used ++ more)) : AreOrdered used :=
  h.sublist (List.sublist_append_left used more)

theorem AreOrdered.right (h : AreOrdered (used ++ more)) : AreOrdered more :=
  h.sublist (List.sublist_append_right used more)

/-- Tokens that end in the same place are the same. -/
theorem AreOrdered.eq_of_stop {t u : Located} (h : AreOrdered tokens) (ht : t ∈ tokens) (hu : u ∈ tokens)
    (hstop : t.span.stop = u.span.stop) : t = u := by
  have hdiffer : tokens.Pairwise fun t u => t.span.stop ≠ u.span.stop :=
    h.apart.imp_of_mem fun _ hu hle heq => by
      have := h.nonempty _ hu
      omega
  have : Std.Symm fun t u : Located => t.span.stop ≠ u.span.stop := ⟨fun _ _ h => h.symm⟩
  by_contra hne
  exact hdiffer.forall ht hu hne hstop

/-- A place from the first to the last of some tokens begins with one of them and ends with one. -/
theorem Covers.exists_ends (h : Covers used span) :
    (∃ t ∈ used, t.span.start = span.start) ∧ ∃ t ∈ used, t.span.stop = span.stop := by
  cases used with
  | nil => cases h.start
  | cons t rest =>
    refine ⟨⟨t, List.mem_cons_self, Option.some.inj h.start⟩, ?_⟩
    rcases List.eq_nil_or_concat rest with rfl | ⟨init, u, rfl⟩
    · exact ⟨t, List.mem_cons_self, h.stop 0⟩
    · exact ⟨u, by simp, by simpa using h.stop 0⟩

/-- All tokens lie in the place from the first of them to the last. -/
theorem Covers.contains (h : Covers used span) (hordered : AreOrdered used) {t : Located} (ht : t ∈ used) :
    span.start ≤ t.span.start ∧ t.span.stop ≤ span.stop := by
  have hnonempty := hordered.nonempty t ht
  constructor
  · cases used with
    | nil => cases ht
    | cons first rest =>
      obtain hstart : first.span.start = span.start := Option.some.inj h.start
      have hfirst := hordered.nonempty first List.mem_cons_self
      rcases List.mem_cons.mp ht with rfl | ht
      · omega
      · have := List.rel_of_pairwise_cons hordered.apart ht
        omega
  · rcases List.eq_nil_or_concat' used with rfl | ⟨init, last, rfl⟩
    · cases ht
    · obtain hstop : last.span.stop = span.stop := by simpa using h.stop 0
      have hlast := hordered.nonempty last (by simp)
      rcases List.mem_append.mp ht with ht | ht
      · have := (List.pairwise_append.mp hordered.apart).2.2 t ht last (List.mem_singleton_self last)
        omega
      · rw [List.mem_singleton.mp ht]
        omega

theorem Covers.start_lt_stop (h : Covers used span) (hordered : AreOrdered used) : span.start < span.stop := by
  obtain ⟨⟨t, ht, hstart⟩, -⟩ := h.exists_ends
  have := hordered.nonempty t ht
  have := (h.contains hordered ht).2
  omega

end Parser

namespace Outline

open SchemaWire.Parser (Tokens Covers AreOrdered)

/-- Every node below the root is not empty and lies in the one that holds it, and the nodes of a list stand one behind
the other. -/
inductive IsNested : Outline → Prop
  | node {span : Span} {fields : List (List Outline)}
    (inside : ∀ nodes ∈ fields, ∀ o ∈ nodes,
      span.start ≤ o.span.start ∧ o.span.start < o.span.stop ∧ o.span.stop ≤ span.stop)
    (apart : ∀ nodes ∈ fields, nodes.Pairwise fun o u => o.span.stop ≤ u.span.start)
    (below : ∀ nodes ∈ fields, ∀ o ∈ nodes, o.IsNested) : IsNested (.node span fields)

variable {o : Outline} {nodes : List Outline} {used : Tokens} {span : Span}

/-- Nodes that lie on tokens are not empty, and begin and end with some of these. -/
theorem InOrder.exists_ends (h : InOrder nodes used) (hordered : AreOrdered used) (ho : o ∈ nodes) :
    (∃ t ∈ used, t.span.start = o.span.start) ∧ (∃ t ∈ used, t.span.stop = o.span.stop) ∧
      o.span.start < o.span.stop := by
  induction nodes generalizing used with
  | nil => cases ho
  | cons first more ih =>
    obtain ⟨gap, piece, rest, rfl, hfirst, hmore⟩ := h
    rcases List.mem_cons.mp ho with rfl | ho
    · obtain ⟨⟨t, ht, hstart⟩, u, hu, hstop⟩ := hfirst.covers.exists_ends
      exact ⟨⟨t, by simp [ht], hstart⟩, ⟨u, by simp [hu], hstop⟩, hfirst.covers.start_lt_stop hordered.left.right⟩
    · obtain ⟨⟨t, ht, hstart⟩, ⟨u, hu, hstop⟩, hlt⟩ := ih hmore hordered.right ho
      exact ⟨⟨t, by simp [ht], hstart⟩, ⟨u, by simp [hu], hstop⟩, hlt⟩

theorem InOrder.apart (h : InOrder nodes used) (hordered : AreOrdered used) :
    nodes.Pairwise fun o u => o.span.stop ≤ u.span.start := by
  induction nodes generalizing used with
  | nil => exact List.Pairwise.nil
  | cons first more ih =>
    obtain ⟨gap, piece, rest, rfl, hfirst, hmore⟩ := h
    refine List.pairwise_cons.mpr ⟨fun o ho => ?_, ih hmore hordered.right⟩
    obtain ⟨-, t, ht, hstop⟩ := hfirst.covers.exists_ends
    obtain ⟨⟨u, hu, hstart⟩, -⟩ := hmore.exists_ends hordered.right ho
    rw [← hstop, ← hstart]
    exact (List.pairwise_append.mp hordered.apart).2.2 t (by simp [ht]) u hu

/-- Nodes on tokens in a place lie in this place. -/
theorem InOrder.inside (h : InOrder nodes used) (hordered : AreOrdered used)
    (hused : ∀ t ∈ used, span.start ≤ t.span.start ∧ t.span.stop ≤ span.stop) :
    ∀ o ∈ nodes, span.start ≤ o.span.start ∧ o.span.start < o.span.stop ∧ o.span.stop ≤ span.stop := by
  intro o ho
  obtain ⟨⟨t, ht, hstart⟩, ⟨u, hu, hstop⟩, hlt⟩ := h.exists_ends hordered ho
  exact ⟨hstart ▸ (hused t ht).1, hlt, hstop ▸ (hused u hu).2⟩

mutual

theorem isNested_of_fits : ∀ {o : Outline} {used : Tokens}, AreOrdered used → o.Fits used → o.IsNested
  | .node span fields, used, hordered, h => by
    obtain ⟨hcovers, hfields⟩ := fits_iff.mp h
    rw [Fits] at h
    exact .node (fun nodes hn => (hfields nodes hn).inside hordered fun t ht => hcovers.contains hordered ht)
      (fun nodes hn => (hfields nodes hn).apart hordered) (fields_areNested hordered h.2)

theorem fields_areNested : ∀ {fields : List (List Outline)} {used : Tokens}, AreOrdered used →
    FieldsFit fields used → ∀ nodes ∈ fields, ∀ o ∈ nodes, o.IsNested
  | [], _, _, _ => List.forall_mem_nil _
  | _ :: _, _, hordered, h =>
    List.forall_mem_cons.mpr ⟨nodes_areNested hordered h.1, fields_areNested hordered h.2⟩

theorem nodes_areNested : ∀ {nodes : List Outline} {used : Tokens}, AreOrdered used → InOrder nodes used →
    ∀ o ∈ nodes, o.IsNested
  | [], _, _, _ => List.forall_mem_nil _
  | _ :: _, _, hordered, ⟨_, _, _, heq, ho, hmore⟩ => by
    subst heq
    exact List.forall_mem_cons.mpr
      ⟨isNested_of_fits hordered.left.right ho, nodes_areNested hordered.right hmore⟩

end

end Outline

/-! ## Sources -/

/-- The outline of a tree. -/
def Schema.outline (s : Schema) : Outline :=
  .node s.span [s.body.map Item.outline]

theorem Span.IsSite.bounds {source : List Char} {s : Span} (h : s.IsSite source) :
    s.start < s.stop ∧ s.stop ≤ Utf8.size source := by
  obtain ⟨before, c, tail, after, rfl, -, rfl⟩ := h
  have := c.utf8Size_pos
  simp only [Utf8.size_append, Utf8.size_cons]
  omega

theorem Lexer.areOrdered_of_lex {source : List Char} {tokens : List Located} (h : lex source = .ok tokens) :
    Parser.AreOrdered (Located.beforeEof tokens) where
  nonempty t ht :=
    (isSite_of_mem h ((List.takeWhile_prefix _).subset ht) (Located.ne_eof_of_mem_beforeEof ht)).bounds.1
  apart := by
    have hread : lexFrom (Utf8.size ([] ++ [])) source = .ok tokens := h
    exact (tiles_of_lexFrom (List.forall_mem_nil _) hread).pairwise.sublist (List.takeWhile_sublist _)

/-- What is read off the tokens of a source is its tree, and the source is the place of the root. -/
theorem Schema.ofSource_of_readItems {source : List Char} {tokens left : List Located} {body : List Item}
    (hlex : lex source = .ok tokens) (h : Parser.readItems false (Located.beforeEof tokens) = .ok (body, left)) :
    ofSource source = .ok ⟨body, ⟨0, Utf8.size source⟩⟩ := by
  have hstop : (tokens.getLast?.map (·.span.stop)).getD 0 = Utf8.size source := by
    rw [Lexer.eq_beforeEof_append hlex, List.getLast?_concat]
    exact Nat.zero_add _
  have htree := Parser.ofTokens_of_readItems h
  rw [hstop] at htree
  rw [ofSource, hlex]
  exact Except.mapError_eq_ok_iff.mpr htree

theorem Schema.span_of_ofSource {source : List Char} {s : Schema} (h : ofSource source = .ok s) :
    s.span = ⟨0, Utf8.size source⟩ := by
  obtain ⟨tokens, left, hlex, hread⟩ := exists_of_ofSource h
  rw [ofSource_of_readItems hlex hread] at h
  exact congrArg Schema.span (Except.ok.inj h).symm

/-- The tree of a source nests. -/
theorem Schema.isNested_of_ofSource {source : List Char} {s : Schema} (h : ofSource source = .ok s) :
    s.outline.IsNested := by
  obtain ⟨tokens, left, hlex, hread⟩ := exists_of_ofSource h
  obtain ⟨⟨body, left⟩, hitems, heq⟩ := Except.map_eq_ok_iff.mp hread
  cases heq
  obtain ⟨used, htokens, horder⟩ := Parser.items_fits hitems
  have hordered := Lexer.areOrdered_of_lex hlex
  have hused : Parser.AreOrdered used := by
    rw [htokens] at hordered
    exact hordered.left
  have hinside (t : Located) (ht : t ∈ used) : s.span.start ≤ t.span.start ∧ t.span.stop ≤ s.span.stop := by
    have hmem : t ∈ Located.beforeEof tokens := by
      rw [htokens]
      simp [ht]
    have hsite := Lexer.isSite_of_mem hlex ((List.takeWhile_prefix _).subset hmem) (Located.ne_eof_of_mem_beforeEof hmem)
    rw [Schema.span_of_ofSource h]
    exact ⟨Nat.zero_le _, hsite.bounds.2⟩
  rw [Item.bodyOutlines_eq] at horder
  refine .node ?_ ?_ ?_ <;> rw [List.forall_mem_singleton]
  · exact horder.inside hused hinside
  · exact horder.apart hused
  · exact Outline.nodes_areNested hused horder

end SchemaWire
