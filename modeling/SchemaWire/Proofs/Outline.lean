import SchemaWire.Proofs.Steps

/-!
# Trees lie on their tokens

What remains of a syntax tree without its texts is its outline: the place of every node, with the nodes in it. An outline
fits tokens where every node begins with the first and ends with the last token of a run of them, and the nodes in a list
have runs one after the other in the run of the node that holds them. What the parser reads fits the tokens that it takes:
one lemma for each reader says so (`…_fits`), up to `items_fits`.
-/

namespace SchemaWire

/-- The places of a tree: that of its root, and the lists of trees in it. -/
inductive Outline
  | node (span : Span) (fields : List (List Outline))

/-! ## Runs of tokens -/

namespace Parser

variable {tokens after rest used used' : Tokens} {t : Located} {span : Span}

/-- Where the last of the tokens ends, or what is before them if there are none. -/
def stopAfter (before : Nat) : Tokens → Nat
  | [] => before
  | t :: rest => stopAfter t.span.stop rest

@[simp] theorem stopAfter_nil (before : Nat) : stopAfter before [] = before := rfl

@[simp] theorem stopAfter_cons (before : Nat) (t : Located) (rest : Tokens) :
    stopAfter before (t :: rest) = stopAfter t.span.stop rest := rfl

@[simp] theorem stopAfter_append (before : Nat) (used used' : Tokens) :
    stopAfter before (used ++ used') = stopAfter (stopAfter before used) used' := by
  induction used generalizing before with
  | nil => rfl
  | cons t rest ih => exact ih _

/-- A place that begins with the first of some tokens and ends with the last. -/
structure Covers (used : Tokens) (span : Span) : Prop where
  start : used.head?.map (·.span.start) = some span.start
  stop : ∀ before, stopAfter before used = span.stop

namespace Covers

theorem single (t : Located) : Covers [t] t.span :=
  ⟨rfl, fun _ => rfl⟩

theorem append {stop : Nat} (h : Covers used span) (hstop : stopAfter span.stop used' = stop) :
    Covers (used ++ used') ⟨span.start, stop⟩ := by
  subst hstop
  refine ⟨?_, fun before => by rw [stopAfter_append, h.stop]⟩
  cases used with
  | nil => cases h.start
  | cons t rest => exact h.start

theorem cons {stop : Nat} (t : Located) (hstop : stopAfter t.span.stop used = stop) :
    Covers (t :: used) ⟨t.span.start, stop⟩ :=
  (single t).append hstop

end Covers

/-- The tokens that were taken off the front of others, if something holds of them. -/
def Uses (tokens rest : Tokens) (Q : Tokens → Prop) : Prop :=
  ∃ used, tokens = used ++ rest ∧ Q used

theorem Uses.append {P Q R : Tokens → Prop} (hfirst : Uses tokens after P) (hsecond : Uses after rest Q)
    (hboth : ∀ {us vs}, P us → Q vs → R (us ++ vs)) : Uses tokens rest R := by
  obtain ⟨us, rfl, hus⟩ := hfirst
  obtain ⟨vs, rfl, hvs⟩ := hsecond
  exact ⟨us ++ vs, (List.append_assoc ..).symm, hboth hus hvs⟩

end Parser

/-! ## Outlines that fit -/

namespace Outline

open SchemaWire.Parser (Tokens Covers stopAfter)

/-- The place of the root. -/
def span : Outline → Span
  | .node span _ => span

mutual

/-- Whether the root and all nodes in it lie on the tokens. -/
def Fits : Outline → Tokens → Prop
  | .node span fields, used => Covers used span ∧ FieldsFit fields used

/-- Whether each of the lists lies on the tokens in order. -/
def FieldsFit : List (List Outline) → Tokens → Prop
  | [], _ => True
  | nodes :: fields, used => InOrder nodes used ∧ FieldsFit fields used

/-- Whether the outlines lie on tokens one after the other. -/
def InOrder : List Outline → Tokens → Prop
  | [], _ => True
  | o :: nodes, used => ∃ gap piece rest, used = gap ++ piece ++ rest ∧ Fits o piece ∧ InOrder nodes rest

end

variable {o : Outline} {nodes more : List Outline} {used used' gap : Tokens} {span : Span}

theorem fieldsFit_iff {fields : List (List Outline)} : FieldsFit fields used ↔ ∀ nodes ∈ fields, InOrder nodes used := by
  induction fields with
  | nil => simp [FieldsFit]
  | cons nodes fields ih => simp [FieldsFit, ih]

theorem fits_iff {fields : List (List Outline)} :
    Fits (.node span fields) used ↔ Covers used span ∧ ∀ nodes ∈ fields, InOrder nodes used := by
  rw [Fits, fieldsFit_iff]

theorem fits_leaf (h : Covers used span) : Fits (.node span []) used :=
  fits_iff.mpr ⟨h, by simp⟩

theorem fits_node (h : Covers used span) (hnodes : InOrder nodes used) : Fits (.node span [nodes]) used :=
  fits_iff.mpr ⟨h, by simpa using hnodes⟩

theorem Fits.inOrder (h : Fits (.node span [nodes]) used) : InOrder nodes used :=
  (fits_iff.mp h).2 nodes (List.mem_singleton_self _)

theorem Fits.covers (h : o.Fits used) : Covers used o.span := by
  cases o
  exact (fits_iff.mp h).1

namespace InOrder

theorem nil (used : Tokens) : InOrder [] used := trivial

theorem behind (gap : Tokens) (h : InOrder nodes used) : InOrder nodes (gap ++ used) := by
  cases nodes with
  | nil => trivial
  | cons o more =>
    obtain ⟨gap', piece, rest, rfl, ho, hmore⟩ := h
    exact ⟨gap ++ gap', piece, rest, by simp, ho, hmore⟩

theorem cons (ho : o.Fits used) (h : InOrder nodes used') : InOrder (o :: nodes) (used ++ used') :=
  ⟨[], used, used', rfl, ho, h⟩

theorem append (h : InOrder nodes used) (hmore : InOrder more used') : InOrder (nodes ++ more) (used ++ used') := by
  induction nodes generalizing used with
  | nil => exact hmore.behind used
  | cons o nodes ih =>
    obtain ⟨gap, piece, rest, rfl, ho, hrest⟩ := h
    exact ⟨gap, piece, rest ++ used', by simp, ho, ih hrest⟩

theorem before (h : InOrder nodes used) (used' : Tokens) : InOrder nodes (used ++ used') := by
  simpa using h.append (nil used')

theorem single (h : o.Fits used) : InOrder [o] used := by
  simpa using cons h (nil [])

end InOrder

/-- Outlines that lie on tokens in order, in a list that ends where the tokens do. -/
structure Fills (nodes : List Outline) (stop : Nat) (used : Tokens) : Prop where
  inOrder : InOrder nodes used
  ends : ∀ before, stopAfter before used = stop

namespace Fills

variable {stop : Nat}

theorem closing (t : Located) : Fills [] t.span.stop [t] :=
  ⟨.nil [t], fun _ => rfl⟩

theorem last (h : o.Fits used) : Fills [o] o.span.stop used :=
  ⟨.single h, h.covers.stop⟩

theorem cons (ho : o.Fits used) (h : Fills nodes stop used') : Fills (o :: nodes) stop (used ++ used') :=
  ⟨.cons ho h.inOrder, fun before => by rw [Parser.stopAfter_append, h.ends]⟩

theorem behind (gap : Tokens) (h : Fills nodes stop used) : Fills nodes stop (gap ++ used) :=
  ⟨h.inOrder.behind gap, fun before => by rw [Parser.stopAfter_append, h.ends]⟩

end Fills

/-! ### What holds of all places -/

/-- Something holds of every place that begins with a token and ends with one at it or behind it. -/
def Runs (P : Span → Prop) (used : Tokens) : Prop :=
  ∀ gap piece rest span, used = gap ++ piece ++ rest → Covers piece span → P span

theorem Runs.infix {P : Span → Prop} {gap piece rest : Tokens} (h : Runs P (gap ++ piece ++ rest)) : Runs P piece := by
  rintro gap' piece' rest' span rfl hcovers
  exact h (gap ++ gap') piece' (rest' ++ rest) span (by simp) hcovers

mutual

/-- Whether something holds of the places of all nodes. -/
def All (P : Span → Prop) : Outline → Prop
  | .node span fields => P span ∧ AllFields P fields

def AllFields (P : Span → Prop) : List (List Outline) → Prop
  | [] => True
  | nodes :: fields => AllNodes P nodes ∧ AllFields P fields

def AllNodes (P : Span → Prop) : List Outline → Prop
  | [] => True
  | o :: nodes => All P o ∧ AllNodes P nodes

end

theorem allNodes_iff {P : Span → Prop} : AllNodes P nodes ↔ ∀ o ∈ nodes, o.All P := by
  induction nodes with
  | nil => simp [AllNodes]
  | cons o nodes ih => simp [AllNodes, ih]

theorem all_iff {P : Span → Prop} {fields : List (List Outline)} :
    All P (.node span fields) ↔ P span ∧ ∀ nodes ∈ fields, ∀ o ∈ nodes, o.All P := by
  have hfields : AllFields P fields ↔ ∀ nodes ∈ fields, ∀ o ∈ nodes, o.All P := by
    induction fields with
    | nil => simp [AllFields]
    | cons nodes fields ih => simp [AllFields, ih, allNodes_iff]
  rw [All, hfields]

mutual

/-- What holds of all runs of tokens holds of all places of an outline that lies on them. -/
theorem all_of_fits {P : Span → Prop} : ∀ {o : Outline} {used : Tokens}, Runs P used → o.Fits used → o.All P
  | .node span fields, used, hruns, h => by
    rw [Fits] at h
    rw [All]
    exact ⟨hruns [] used [] span (by simp) h.1, allFields_of_fieldsFit hruns h.2⟩

theorem allFields_of_fieldsFit {P : Span → Prop} :
    ∀ {fields : List (List Outline)} {used : Tokens}, Runs P used → FieldsFit fields used → AllFields P fields
  | [], _, _, _ => trivial
  | _ :: _, _, hruns, h => ⟨allNodes_of_inOrder hruns h.1, allFields_of_fieldsFit hruns h.2⟩

theorem allNodes_of_inOrder {P : Span → Prop} :
    ∀ {nodes : List Outline} {used : Tokens}, Runs P used → InOrder nodes used → AllNodes P nodes
  | [], _, _, _ => trivial
  | _ :: _, _, hruns, ⟨gap, piece, rest, heq, ho, hmore⟩ => by
    subst heq
    refine ⟨all_of_fits hruns.infix ho, allNodes_of_inOrder ?_ hmore⟩
    rw [← List.append_nil (gap ++ piece ++ rest)] at hruns
    exact hruns.infix

end

end Outline

/-! ## The outlines of trees -/

def Identifier.outline (i : Identifier) : Outline :=
  .node i.span []

def Literal.outline (l : Literal) : Outline :=
  .node l.span []

def TypePath.outline (p : TypePath) : Outline :=
  .node p.span [p.segments.map Identifier.outline]

def SizedType.outline (s : SizedType) : Outline :=
  .node s.span [[s.name.outline, s.size.outline]]

def TypeName.outline : TypeName → Outline
  | .path p => p.outline
  | .sized s => s.outline

theorem TypeName.span_outline (t : TypeName) : t.outline.span = t.span := by
  cases t <;> rfl

def VectorType.outline (v : VectorType) : Outline :=
  .node v.span [[v.item.outline]]

def PropertyType.outline : PropertyType → Outline
  | .single t => t.outline
  | .vector v => v.outline

theorem PropertyType.span_outline (t : PropertyType) : t.outline.span = t.span := by
  cases t with
  | single t => exact t.span_outline
  | vector v => rfl

def Property.outline (p : Property) : Outline :=
  .node p.span [[p.key.outline, p.type.outline]]

def Comment.outline (c : Comment) : Outline :=
  .node c.span []

def BodyEntry.outline : BodyEntry → Outline
  | .comment c => c.outline
  | .property p => p.outline

/-- The two names may stand in either order. -/
def Declaration.outline (d : Declaration) : Outline :=
  .node d.span [[d.ctor.outline], [d.name.outline], d.body.map BodyEntry.outline]

def GroupContainer.outline (c : GroupContainer) : Outline :=
  .node c.span [c.name.outline :: c.body.map BodyEntry.outline]

def GroupMember.outline : GroupMember → Outline
  | .comment c => c.outline
  | .container c => c.outline

def TypeGroup.outline (g : TypeGroup) : Outline :=
  .node g.span [g.name.outline :: (g.traits.map TypePath.outline ++ g.body.map GroupMember.outline)]

def Alias.outline (a : Alias) : Outline :=
  .node a.span [[a.name.outline, a.target.outline]]

def TraitDeclaration.outline (t : TraitDeclaration) : Outline :=
  .node t.span [t.name.outline :: t.body.map BodyEntry.outline]

mutual

def Item.outline : Item → Outline
  | .comment c => c.outline
  | .namespaceBlock name body span => .node span [name.outline :: bodyOutlines body]
  | .typeGroup g => g.outline
  | .aliasDecl a => a.outline
  | .traitDecl t => t.outline
  | .declaration d => d.outline

def Item.bodyOutlines : List Item → List Outline
  | [] => []
  | item :: rest => item.outline :: bodyOutlines rest

end

theorem Item.bodyOutlines_eq (body : List Item) : bodyOutlines body = body.map outline := by
  induction body with
  | nil => rfl
  | cons item rest ih => rw [bodyOutlines, ih, List.map_cons]

section All

variable {P : Span → Prop}

theorem Outline.All.span {o : Outline} (h : o.All P) : P o.span := by
  cases o
  exact (all_iff.mp h).1

theorem SizedType.of_all {s : SizedType} (h : s.outline.All P) : P s.span ∧ P s.name.span ∧ P s.size.span := by
  simpa [outline, Identifier.outline, Literal.outline, Outline.all_iff] using h

theorem Alias.of_all {a : Alias} (h : a.outline.All P) : P a.name.span ∧ a.target.outline.All P := by
  rw [outline, Outline.all_iff] at h
  simp only [List.forall_mem_singleton, List.forall_mem_cons] at h
  exact ⟨h.2.1.span, h.2.2⟩

theorem Property.of_all {p : Property} (h : p.outline.All P) : p.type.outline.All P := by
  rw [outline, Outline.all_iff] at h
  simp only [List.forall_mem_singleton, List.forall_mem_cons] at h
  exact h.2.2

theorem Declaration.of_all {d : Declaration} (h : d.outline.All P) :
    P d.ctor.span ∧ ∀ entry ∈ d.body, entry.outline.All P := by
  rw [outline, Outline.all_iff] at h
  simp only [List.forall_mem_singleton, List.forall_mem_cons, List.forall_mem_map] at h
  exact ⟨h.2.1.span, h.2.2.2⟩

theorem GroupContainer.of_all {c : GroupContainer} (h : c.outline.All P) :
    P c.name.span ∧ ∀ entry ∈ c.body, entry.outline.All P := by
  rw [outline, Outline.all_iff] at h
  simp only [List.forall_mem_singleton, List.forall_mem_cons, List.forall_mem_map] at h
  exact ⟨h.2.1.span, h.2.2⟩

theorem TypeGroup.of_all {g : TypeGroup} (h : g.outline.All P) : ∀ member ∈ g.body, member.outline.All P := by
  rw [outline, Outline.all_iff] at h
  simp only [List.forall_mem_singleton, List.forall_mem_cons, List.forall_mem_append, List.forall_mem_map] at h
  exact h.2.2.2

theorem TraitDeclaration.of_all {d : TraitDeclaration} (h : d.outline.All P) :
    ∀ entry ∈ d.body, entry.outline.All P := by
  rw [outline, Outline.all_iff] at h
  simp only [List.forall_mem_singleton, List.forall_mem_cons, List.forall_mem_map] at h
  exact h.2.2

theorem Item.namespaceBlock_of_all {name : Identifier} {body : List Item} {span : Span}
    (h : (Item.namespaceBlock name body span).outline.All P) : ∀ item ∈ body, item.outline.All P := by
  rw [outline, Outline.all_iff, bodyOutlines_eq] at h
  simp only [List.forall_mem_singleton, List.forall_mem_cons, List.forall_mem_map] at h
  exact h.2.2

end All

/-! ## What is read fits what is taken -/

namespace Parser

open Outline

variable {tokens rest : Tokens}

theorem name_fits {context : ParseError.Context} {i : Identifier} (h : name context tokens = .ok (i, rest)) :
    Uses tokens rest i.outline.Fits := by
  cases tokens with
  | nil => cases h
  | cons t after =>
    simp only [name] at h
    split at h
    · cases h
      exact ⟨[t], rfl, fits_leaf (.single t)⟩
    · cases h

theorem exists_of_expect {mark : Mark} {span : Span} (h : expect mark tokens = .ok (span, rest)) :
    ∃ t, tokens = t :: rest ∧ t.span = span := by
  cases tokens with
  | nil => cases h
  | cons t after =>
    simp only [expect] at h
    split at h
    · cases h
      exact ⟨t, rfl, rfl⟩
    · cases h

theorem moreSegments_fits {segments : List Identifier} (h : moreSegments tokens = .ok (segments, rest)) :
    Uses tokens rest fun used => InOrder (segments.map Identifier.outline) used ∧
      ∀ first : Identifier, stopAfter first.span.stop used = ((first :: segments).getLast (by simp)).span.stop := by
  fun_induction moreSegments tokens generalizing segments with
  | case1 =>
    cases h
    exact ⟨[], rfl, trivial, fun _ => rfl⟩
  | case2 => cases h
  | case3 =>
    cases h
    exact ⟨[], rfl, trivial, fun _ => rfl⟩
  | case4 t u after hdot text hname ih =>
    obtain ⟨⟨more, left⟩, hmore, heq⟩ := Except.map_eq_ok_iff.mp h
    cases heq
    obtain ⟨used, rfl, horder, hstop⟩ := ih hmore
    have hsegment : Outline.Fits (Identifier.outline ⟨text, u.span⟩) [u] := fits_leaf (.single u)
    refine ⟨t :: u :: used, rfl, (InOrder.cons hsegment horder).behind [t], fun first => ?_⟩
    exact hstop ⟨text, u.span⟩
  | case5 => cases h
  | case6 =>
    cases h
    exact ⟨[], rfl, trivial, fun _ => rfl⟩

theorem path_fits {p : TypePath} (h : path tokens = .ok (p, rest)) : Uses tokens rest p.outline.Fits := by
  obtain ⟨⟨first, after⟩, hfirst, h⟩ := Except.bind_eq_ok_iff.mp h
  obtain ⟨⟨more, left⟩, hmore, h⟩ := Except.bind_eq_ok_iff.mp h
  cases h
  exact (name_fits hfirst).append (moreSegments_fits hmore) fun hus hvs =>
    fits_node (hus.covers.append (hvs.2 first)) (.cons hus hvs.1)

theorem literal_fits {l : Literal} (h : literal tokens = .ok (l, rest)) : Uses tokens rest l.outline.Fits := by
  unfold literal at h
  split at h
  · cases h
    exact ⟨[_], rfl, fits_leaf (.single _)⟩
  · cases h

theorem typeName_fits {type : TypeName} (h : typeName tokens = .ok (type, rest)) : Uses tokens rest type.outline.Fits := by
  obtain ⟨⟨p, after⟩, hpath, h⟩ := Except.bind_eq_ok_iff.mp h
  obtain ⟨used, htokens, hp⟩ := path_fits hpath
  simp only at h
  split at h
  · rename_i hbracket
    obtain ⟨bracket, behind, rfl⟩ := exists_of_startsWith hbracket
    split at h
    · rename_i base hsegments
      obtain ⟨⟨size, after'⟩, hsize, h⟩ := Except.bind_eq_ok_iff.mp h
      obtain ⟨⟨brace, left⟩, hclosing, h⟩ := Except.bind_eq_ok_iff.mp h
      cases h
      obtain ⟨inner, rfl, hfits⟩ := literal_fits hsize
      obtain ⟨closing, rfl, rfl⟩ := exists_of_expect hclosing
      have hname : InOrder [base.outline] used := by
        have horder := hp.inOrder
        rwa [hsegments] at horder
      refine ⟨used ++ ⟨.mark .leftBracket, bracket⟩ :: (inner ++ [closing]), by simp [htokens], fits_node ?_ ?_⟩
      · exact hp.covers.append (by simp)
      · exact hname.append (((InOrder.single hfits).before [closing]).behind [_])
    · cases h
  · cases h
    exact ⟨used, htokens, hp⟩

theorem propertyType_fits {type : PropertyType} (h : propertyType tokens = .ok (type, rest)) :
    Uses tokens rest type.outline.Fits := by
  unfold propertyType at h
  split at h
  · rename_i word less _
    obtain ⟨⟨item, after⟩, hitem, h⟩ := Except.bind_eq_ok_iff.mp h
    obtain ⟨⟨greater, left⟩, hclosing, h⟩ := Except.bind_eq_ok_iff.mp h
    cases h
    obtain ⟨used, rfl, hfits⟩ := typeName_fits hitem
    obtain ⟨closing, rfl, rfl⟩ := exists_of_expect hclosing
    let opening : Tokens := [⟨.ident "Vector", word⟩, ⟨.mark .less, less⟩]
    refine ⟨opening ++ (used ++ [closing]), by simp [opening], fits_node ?_ ?_⟩
    · exact Covers.cons ⟨.ident "Vector", word⟩ (by simp)
    · exact ((InOrder.single hfits).before [closing]).behind opening
  · obtain ⟨⟨t, after⟩, htype, h⟩ := Except.bind_eq_ok_iff.mp h
    cases h
    exact typeName_fits htype

theorem exists_of_question {optional : Bool} (h : question tokens = (optional, rest)) : ∃ marks, tokens = marks ++ rest := by
  unfold question at h
  split at h
  · rename_i hmark
    cases h
    obtain ⟨span, rest, rfl⟩ := exists_of_startsWith hmark
    exact ⟨[⟨.mark .question, span⟩], rfl⟩
  · cases h
    exact ⟨[], rfl⟩

theorem property_fits {p : Property} (h : property tokens = .ok (p, rest)) : Uses tokens rest p.outline.Fits := by
  obtain ⟨⟨key, after⟩, hkey, h⟩ := Except.bind_eq_ok_iff.mp h
  simp only at h
  generalize hquestion : question after = marked at h
  obtain ⟨optional, after'⟩ := marked
  obtain ⟨⟨colon, after''⟩, hcolon, h⟩ := Except.bind_eq_ok_iff.mp h
  obtain ⟨⟨type, left⟩, htype, h⟩ := Except.bind_eq_ok_iff.mp h
  cases h
  obtain ⟨us, rfl, hname⟩ := name_fits hkey
  obtain ⟨marks, rfl⟩ := exists_of_question hquestion
  obtain ⟨t, rfl, rfl⟩ := exists_of_expect hcolon
  obtain ⟨vs, rfl, hfits⟩ := propertyType_fits htype
  refine ⟨us ++ (marks ++ t :: vs), by simp, fits_node (hname.covers.append ?_) (.cons hname ?_)⟩
  · rw [stopAfter_append, stopAfter_cons, hfits.covers.stop, type.span_outline]
  · exact ((InOrder.single hfits).behind [t]).behind marks

theorem dashWords_fits {words : List String} {stop : Nat} (h : dashWords tokens = .ok (words, stop, rest)) :
    Uses tokens rest fun used => ∀ before, stopAfter before used = stop := by
  fun_induction dashWords tokens generalizing words with
  | case1 => cases h
  | case2 t after =>
    cases h
    exact ⟨[t], rfl, fun _ => rfl⟩
  | case3 t after _ ih =>
    obtain ⟨⟨more, stop', left⟩, hmore, heq⟩ := Except.map_eq_ok_iff.mp h
    cases heq
    obtain ⟨used, rfl, hstop⟩ := ih hmore
    exact ⟨t :: used, rfl, fun _ => hstop _⟩

theorem comment?_fits {c : Comment} (h : comment? tokens = .ok (some (c, rest))) : Uses tokens rest c.outline.Fits := by
  unfold comment? at h
  split at h
  · cases h
    exact ⟨[_], rfl, fits_leaf (.single _)⟩
  · rename_i span after
    obtain ⟨⟨words, stop, left⟩, hwords, heq⟩ := Except.map_eq_ok_iff.mp h
    cases heq
    obtain ⟨used, rfl, hstop⟩ := dashWords_fits hwords
    exact ⟨⟨.mark .tripleDash, span⟩ :: used, rfl, fits_leaf (.cons _ (hstop _))⟩
  · cases h

/-! ### Bodies -/

theorem braceEntries_fits {separated : Bool} {entries : List BodyEntry} {stop : Nat}
    (h : braceEntries separated tokens = .ok (entries, stop, rest)) :
    Uses tokens rest (Fills (entries.map BodyEntry.outline) stop) := by
  fun_induction braceEntries separated tokens generalizing entries with
  | case1 separated span after =>
    cases h
    exact ⟨[⟨.mark .rightBrace, span⟩], rfl, .closing ⟨.mark .rightBrace, span⟩⟩
  | case2 => cases h
  | case3 separated tokens _ c after hc _ ih =>
    obtain ⟨⟨more, stop', left⟩, hmore, heq⟩ := Except.map_eq_ok_iff.mp h
    cases heq
    exact (comment?_fits hc).append (ih hmore) .cons
  | case4 => cases h
  | case5 => cases h
  | case6 tokens _ _ p after hp _ _ ih =>
    obtain ⟨⟨more, stop', left⟩, hmore, heq⟩ := Except.map_eq_ok_iff.mp h
    cases heq
    exact (property_fits hp).append (ih hmore) .cons
  | case7 => cases h
  | case8 separated tokens _ _ hseparated _ after hs _ ih =>
    obtain ⟨t, rfl, -⟩ := exists_of_expect hs
    obtain ⟨used, rfl, hfills⟩ := ih h
    exact ⟨t :: used, rfl, hfills.behind [t]⟩

theorem arrowEntries_fits {entries : List BodyEntry} {stop : Nat} (h : arrowEntries tokens = .ok (entries, stop, rest)) :
    Uses tokens rest (Fills (entries.map BodyEntry.outline) stop) := by
  fun_induction arrowEntries tokens generalizing entries with
  | case1 => cases h
  | case2 tokens c after hc _ ih =>
    obtain ⟨⟨more, stop', left⟩, hmore, heq⟩ := Except.map_eq_ok_iff.mp h
    cases heq
    exact (comment?_fits hc).append (ih hmore) .cons
  | case3 => cases h
  | case4 tokens _ p span after hp _ ih =>
    obtain ⟨⟨more, stop', left⟩, hmore, heq⟩ := Except.map_eq_ok_iff.mp h
    cases heq
    obtain ⟨us, rfl, hproperty⟩ := property_fits hp
    obtain ⟨vs, rfl, hfills⟩ := ih hmore
    exact ⟨us ++ ⟨.mark .comma, span⟩ :: vs, by simp, .cons hproperty (hfills.behind [⟨.mark .comma, span⟩])⟩
  | case5 tokens _ p span after hp =>
    cases h
    obtain ⟨us, rfl, hproperty⟩ := property_fits hp
    have hclosing : Fills [] span.stop [⟨.mark .semicolon, span⟩] := .closing ⟨.mark .semicolon, span⟩
    exact ⟨_, by simp, hclosing.cons hproperty⟩
  | case6 tokens _ p after _ _ hp =>
    cases h
    obtain ⟨us, rfl, hproperty⟩ := property_fits hp
    exact ⟨us, rfl, .last hproperty⟩

/-- A body that is not there ends where its container's name does. -/
theorem containerBody_fits {entries : List BodyEntry} {before stop : Nat}
    (h : containerBody before tokens = .ok (entries, stop, rest)) :
    Uses tokens rest fun used => InOrder (entries.map BodyEntry.outline) used ∧ stopAfter before used = stop := by
  have hsame {used : Tokens} (h : Fills (entries.map BodyEntry.outline) stop used) :
      InOrder (entries.map BodyEntry.outline) used ∧ stopAfter before used = stop := ⟨h.inOrder, h.ends before⟩
  unfold containerBody at h
  split at h
  · rename_i brace after
    obtain ⟨used, rfl, hfills⟩ := braceEntries_fits h
    exact ⟨⟨.mark .leftBrace, brace⟩ :: used, rfl, hsame (hfills.behind [_])⟩
  · rename_i arrow span after
    cases h
    exact ⟨[⟨.mark .arrow, arrow⟩, ⟨.mark .semicolon, span⟩], rfl, hsame ((Fills.closing ⟨_, span⟩).behind [_])⟩
  · rename_i arrow after _
    obtain ⟨used, rfl, hfills⟩ := arrowEntries_fits h
    exact ⟨⟨.mark .arrow, arrow⟩ :: used, rfl, hsame (hfills.behind [_])⟩
  · rename_i span after
    cases h
    exact ⟨[⟨.mark .semicolon, span⟩], rfl, hsame (.closing ⟨_, span⟩)⟩
  · cases h
    exact ⟨[], rfl, trivial, rfl⟩

theorem groupContainer_fits {c : GroupContainer} (h : groupContainer tokens = .ok (c, rest)) :
    Uses tokens rest c.outline.Fits := by
  obtain ⟨⟨name, after⟩, hname, h⟩ := Except.bind_eq_ok_iff.mp h
  obtain ⟨⟨body, stop, left⟩, hbody, h⟩ := Except.bind_eq_ok_iff.mp h
  cases h
  exact (path_fits hname).append (containerBody_fits hbody) fun hus hvs =>
    fits_node (hus.covers.append hvs.2) (.cons hus hvs.1)

theorem members_fits {ms : List GroupMember} {stop : Nat} (h : members tokens = .ok (ms, stop, rest)) :
    Uses tokens rest (Fills (ms.map GroupMember.outline) stop) := by
  fun_induction members tokens generalizing ms with
  | case1 span after =>
    cases h
    exact ⟨[⟨.mark .rightBrace, span⟩], rfl, .closing ⟨.mark .rightBrace, span⟩⟩
  | case2 => cases h
  | case3 tokens _ c after hc _ ih =>
    obtain ⟨⟨more, stop', left⟩, hmore, heq⟩ := Except.map_eq_ok_iff.mp h
    cases heq
    exact (comment?_fits hc).append (ih hmore) .cons
  | case4 => cases h
  | case5 => cases h
  | case6 tokens _ _ c after hg _ _ ih =>
    obtain ⟨⟨more, stop', left⟩, hmore, heq⟩ := Except.map_eq_ok_iff.mp h
    cases heq
    exact (groupContainer_fits hg).append (ih hmore) .cons

/-! ### Items -/

theorem paths_fits {ps : List TypePath} (h : paths tokens = .ok (ps, rest)) :
    Uses tokens rest (InOrder (ps.map TypePath.outline)) := by
  fun_induction paths tokens generalizing ps with
  | case1 => cases h
  | case2 tokens p span after hp _ ih =>
    obtain ⟨⟨more, left⟩, hmore, heq⟩ := Except.map_eq_ok_iff.mp h
    cases heq
    obtain ⟨us, rfl, hpath⟩ := path_fits hp
    obtain ⟨vs, rfl, horder⟩ := ih hmore
    exact ⟨us ++ ⟨.mark .comma, span⟩ :: vs, by simp, .cons hpath (horder.behind [_])⟩
  | case3 tokens p after _ hp =>
    cases h
    obtain ⟨us, rfl, hpath⟩ := path_fits hp
    exact ⟨us, rfl, .single hpath⟩

theorem implemented_fits {ps : List TypePath} (h : implemented tokens = .ok (ps, rest)) :
    Uses tokens rest (InOrder (ps.map TypePath.outline)) := by
  unfold implemented at h
  split at h
  · rename_i word after
    obtain ⟨used, rfl, horder⟩ := paths_fits h
    exact ⟨⟨.keyword .implementsWord, word⟩ :: used, rfl, horder.behind [_]⟩
  · cases h
    exact ⟨[], rfl, trivial⟩

/-- The tokens of an item behind its keyword, which began at `start`. -/
theorem typeGroup_fits {word : Located} {g : TypeGroup} (h : typeGroup word.span.start tokens = .ok (g, rest)) :
    Uses (word :: tokens) rest g.outline.Fits := by
  obtain ⟨⟨i, after⟩, hname, h⟩ := Except.bind_eq_ok_iff.mp h
  obtain ⟨⟨traits, after'⟩, htraits, h⟩ := Except.bind_eq_ok_iff.mp h
  obtain ⟨⟨brace, after''⟩, hbrace, h⟩ := Except.bind_eq_ok_iff.mp h
  obtain ⟨⟨body, stop, left⟩, hbody, h⟩ := Except.bind_eq_ok_iff.mp h
  cases h
  obtain ⟨us, rfl, hfits⟩ := name_fits hname
  obtain ⟨vs, rfl, horder⟩ := implemented_fits htraits
  obtain ⟨t, rfl, -⟩ := exists_of_expect hbrace
  obtain ⟨ws, rfl, hfills⟩ := members_fits hbody
  refine ⟨word :: (us ++ (vs ++ t :: ws)), by simp, fits_node (.cons word ?_) ?_⟩
  · rw [stopAfter_append, stopAfter_append, stopAfter_cons, hfills.ends]
  · exact (InOrder.cons hfits (horder.append (hfills.inOrder.behind [t]))).behind [word]

theorem aliasDecl_fits {word : Located} {a : Alias} (h : aliasDecl word.span.start tokens = .ok (a, rest)) :
    Uses (word :: tokens) rest a.outline.Fits := by
  obtain ⟨⟨i, after⟩, hname, h⟩ := Except.bind_eq_ok_iff.mp h
  obtain ⟨⟨equals, after'⟩, hequals, h⟩ := Except.bind_eq_ok_iff.mp h
  obtain ⟨⟨target, after''⟩, htarget, h⟩ := Except.bind_eq_ok_iff.mp h
  obtain ⟨us, htokens, hfits⟩ := name_fits hname
  obtain ⟨t, hbehind, -⟩ := exists_of_expect hequals
  obtain ⟨vs, hleft, htype⟩ := typeName_fits htarget
  rw [hbehind, hleft] at htokens
  have horder : InOrder [i.outline, target.outline] (word :: (us ++ t :: vs)) :=
    (InOrder.cons hfits ((InOrder.single htype).behind [t])).behind [word]
  simp only at h
  split at h
  · rename_i span left'
    cases h
    refine ⟨word :: (us ++ t :: vs) ++ [⟨.mark .semicolon, span⟩], by simp [htokens], fits_node (.cons word ?_) ?_⟩
    · simp
    · exact horder.before _
  · cases h
    refine ⟨word :: (us ++ t :: vs), by simp [htokens], fits_node (.cons word ?_) horder⟩
    rw [stopAfter_append, stopAfter_cons, htype.covers.stop, target.span_outline]

theorem traitDecl_fits {word : Located} {d : TraitDeclaration} (h : traitDecl word.span.start tokens = .ok (d, rest)) :
    Uses (word :: tokens) rest d.outline.Fits := by
  obtain ⟨⟨i, after⟩, hname, h⟩ := Except.bind_eq_ok_iff.mp h
  obtain ⟨us, htokens, hfits⟩ := name_fits hname
  have hends {entries : List BodyEntry} {stop : Nat} {used : Tokens}
      (h : Fills (entries.map BodyEntry.outline) stop used) :
      TraitDeclaration.outline ⟨i, entries, ⟨word.span.start, stop⟩⟩ |>.Fits (word :: (us ++ used)) := by
    refine fits_node (.cons word ?_) ((InOrder.cons hfits h.inOrder).behind [word])
    rw [stopAfter_append, h.ends]
  simp only at h
  split at h
  · rename_i brace after
    obtain ⟨⟨body, stop, left⟩, hbody, h⟩ := Except.bind_eq_ok_iff.mp h
    cases h
    obtain ⟨vs, rfl, hfills⟩ := braceEntries_fits hbody
    exact ⟨word :: (us ++ ⟨.mark .leftBrace, brace⟩ :: vs), by simp [htokens], hends (hfills.behind [_])⟩
  · rename_i span left
    cases h
    have hclosing : Fills [] span.stop [⟨.mark .semicolon, span⟩] := .closing ⟨.mark .semicolon, span⟩
    exact ⟨_, by simp [htokens], hends hclosing⟩
  · cases h

theorem declarationNames_fits {ctor type : TypePath} {stop : Nat}
    (h : declarationNames tokens = .ok (ctor, type, stop, rest)) :
    Uses tokens rest fun used => Covers used ⟨startOf tokens, stop⟩ ∧ InOrder [ctor.outline] used ∧
      InOrder [type.outline] used := by
  obtain ⟨⟨first, after⟩, hfirst, h⟩ := Except.bind_eq_ok_iff.mp h
  obtain ⟨us, htokens, hfits⟩ := path_fits hfirst
  have hstart : startOf tokens = first.span.start := by
    rw [htokens]
    have hstart := hfits.covers.start
    cases us with
    | nil => cases hstart
    | cons t more => exact Option.some.inj hstart
  rw [hstart]
  simp only at h
  split at h
  · rename_i hcolon
    obtain ⟨colon, behind, rfl⟩ := exists_of_startsWith hcolon
    obtain ⟨⟨second, after'⟩, hsecond, h⟩ := Except.bind_eq_ok_iff.mp h
    cases h
    obtain ⟨vs, rfl, htype⟩ := path_fits hsecond
    refine ⟨us ++ ⟨.mark .colon, colon⟩ :: vs, by simp [htokens], hfits.covers.append (htype.covers.stop _), ?_, ?_⟩
    · exact (InOrder.single hfits).before _
    · exact ((InOrder.single htype).behind [_]).behind us
  · obtain ⟨⟨second, after'⟩, hsecond, h⟩ := Except.bind_eq_ok_iff.mp h
    cases h
    obtain ⟨vs, rfl, htype⟩ := path_fits hsecond
    refine ⟨us ++ vs, by simp [htokens], hfits.covers.append (htype.covers.stop _), ?_, ?_⟩
    · exact (InOrder.single htype).behind us
    · exact (InOrder.single hfits).before vs

theorem declaration_fits {d : Declaration} (h : declaration tokens = .ok (d, rest)) :
    Uses tokens rest d.outline.Fits := by
  obtain ⟨⟨ctor, type, before, after⟩, hnames, h⟩ := Except.bind_eq_ok_iff.mp h
  obtain ⟨⟨body, stop, left⟩, hbody, h⟩ := Except.bind_eq_ok_iff.mp h
  cases h
  refine (declarationNames_fits hnames).append (containerBody_fits hbody) fun hus hvs => ?_
  obtain ⟨hcovers, hctor, htype⟩ := hus
  refine fits_iff.mpr ⟨hcovers.append hvs.2, ?_⟩
  simpa using ⟨hctor.before _, htype.before _, hvs.1.behind _⟩

theorem keywordItem_fits {item : Item} (h : keywordItem tokens = .ok (item, rest)) :
    Uses tokens rest item.outline.Fits := by
  cases tokens with
  | nil => cases h
  | cons t after =>
    simp only [keywordItem] at h
    split at h
    · obtain ⟨⟨g, left⟩, hgroup, heq⟩ := Except.map_eq_ok_iff.mp h
      cases heq
      exact typeGroup_fits hgroup
    split at h
    · obtain ⟨⟨a, left⟩, halias, heq⟩ := Except.map_eq_ok_iff.mp h
      cases heq
      exact aliasDecl_fits halias
    split at h
    · obtain ⟨⟨d, left⟩, htrait, heq⟩ := Except.map_eq_ok_iff.mp h
      cases heq
      exact traitDecl_fits htrait
    split at h
    · obtain ⟨⟨d, left⟩, hdeclaration, heq⟩ := Except.map_eq_ok_iff.mp h
      cases heq
      exact declaration_fits hdeclaration
    · cases h

theorem namespaceHead_fits {i : Identifier} (h : namespaceHead tokens = .ok (i, rest)) :
    Uses tokens rest (InOrder [i.outline]) := by
  obtain ⟨⟨first, after⟩, hname, h⟩ := Except.bind_eq_ok_iff.mp h
  obtain ⟨⟨brace, left⟩, hbrace, h⟩ := Except.bind_eq_ok_iff.mp h
  cases h
  obtain ⟨us, rfl, hfits⟩ := name_fits hname
  obtain ⟨t, rfl, -⟩ := exists_of_expect hbrace
  exact ⟨us ++ [t], by simp, (InOrder.single hfits).before [t]⟩

theorem items_fits {inside : Bool} {body : List Item} {left : Remainder tokens}
    (h : items inside tokens = .ok (body, left)) : Uses tokens left.1 (InOrder (Item.bodyOutlines body)) := by
  fun_induction items inside tokens generalizing body with
  | case1 => cases h
  | case2 =>
    cases h
    exact ⟨[], rfl, trivial⟩
  | case3 =>
    cases h
    exact ⟨[], rfl, trivial⟩
  | case4 => cases h
  | case5 inside t _ _ c after hc _ ih =>
    obtain ⟨⟨more, left⟩, hmore, heq⟩ := Except.map_eq_ok_iff.mp h
    cases heq
    exact (comment?_fits hc).append (ih hmore) .cons
  | case6 => cases h
  | case7 => cases h
  | case8 => cases h
  | case9 inside t _ _ _ hword i inner hhead _ members closing _ hmembers brace after hbrace _ ihinner ih =>
    obtain ⟨⟨more, left⟩, hmore, heq⟩ := Except.map_eq_ok_iff.mp h
    cases heq
    obtain ⟨us, hus, hname⟩ := namespaceHead_fits hhead
    obtain ⟨vs, hvs, hbody⟩ := ihinner hmembers
    obtain ⟨u, hu, rfl⟩ := exists_of_expect hbrace
    obtain ⟨ws, hws, horder⟩ := ih hmore
    refine ⟨t :: (us ++ (vs ++ [u])) ++ ws, by simp [hus, hvs, hu, hws], .cons ?_ horder⟩
    refine fits_node (.cons t (by simp)) (InOrder.behind [t] ?_)
    exact hname.append (hbody.before [u])
  | case10 => cases h
  | case11 inside t _ _ _ _ item after hitem _ ih =>
    obtain ⟨⟨more, left⟩, hmore, heq⟩ := Except.map_eq_ok_iff.mp h
    cases heq
    exact (keywordItem_fits hitem).append (ih hmore) .cons

end Parser

end SchemaWire
