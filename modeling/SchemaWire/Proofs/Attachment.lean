import SchemaWire.Proofs.Dependence

/-!
# What documents what

A comment documents what stands right behind it. Here this is told from places in the tree alone: a property, a group or
a declaration has the comments that the list before it ends with (`Docs.run`), and every list, that of a namespace, of a
group or of a body, begins anew. The containers of a schema stand for the places where constructors are declared, in
order, and have the entries of these comments as their documentation, as their params have (`lower_documents`). So
comments before a namespace, a trait or an alias and comments at the end of a list document nothing.
-/

namespace SchemaWire

/-! ## Comments before a place -/

/-- The entry as a comment. -/
def BodyEntry.comment? : BodyEntry → Option Comment
  | .comment c => some c
  | .property _ => none

/-- The member as a comment. -/
def GroupMember.comment? : GroupMember → Option Comment
  | .comment c => some c
  | .container _ => none

/-- The item as a comment. -/
def Item.comment? : Item → Option Comment
  | .comment c => some c
  | _ => none

namespace Docs

/-- The comments that a list ends with, those behind the last of its entries that is none. -/
def run {α : Type} (comment? : α → Option Comment) (before : List α) : List Comment :=
  (before.reverse.takeWhile fun x => (comment? x).isSome).reverse.filterMap comment?

/-- The entries of comments, in order. -/
def ofComments (comments : List Comment) : List String :=
  comments.flatMap fun c => entries c.text

section Run

variable {α : Type} {comment? : α → Option Comment} {before : List α} {x : α} {c : Comment}

@[simp] theorem run_nil : run comment? [] = [] := rfl

theorem run_append_comment (h : comment? x = some c) : run comment? (before ++ [x]) = run comment? before ++ [c] := by
  simp [run, h]

theorem run_append_other (h : comment? x = none) : run comment? (before ++ [x]) = [] := by
  simp [run, h]

/-- One more comment adds its entries to those that wait. -/
theorem collect_run {pending : List String} (h : comment? x = some c)
    (hpending : pending = ofComments (run comment? before)) :
    collect pending c.text = ofComments (run comment? (before ++ [x])) := by
  rw [hpending, run_append_comment h, ofComments, ofComments, List.flatMap_append, List.flatMap_singleton, collect]

/-- Behind anything else none wait. -/
theorem nil_eq_ofComments_run (h : comment? x = none) : [] = ofComments (run comment? (before ++ [x])) := by
  rw [run_append_other h]
  rfl

end Run

end Docs

/-! ## Places -/

/-- The properties of a body, each with the comments right before it. `before` is what stands before the entries. -/
def BodyEntry.documented (before : List BodyEntry) : List BodyEntry → List (Property × List Comment)
  | [] => []
  | .comment c :: rest => documented (before ++ [.comment c]) rest
  | .property p :: rest => (p, Docs.run comment? before) :: documented (before ++ [.property p]) rest

/-- A place where a constructor is declared. -/
structure ContainerSite where
  /-- The name of the constructor, with those of the namespaces around it. -/
  name : String
  /-- The comments right before it. -/
  comments : List Comment
  body : List BodyEntry

/-- A place where a trait is declared. -/
structure TraitSite where
  /-- The name of the trait, with those of the namespaces around it. -/
  name : String
  body : List BodyEntry

/-- The place, as it is named outside a namespace around it. -/
def ContainerSite.inside (spaceName : String) (site : ContainerSite) : ContainerSite :=
  { site with name := Scope.qualified spaceName site.name }

/-- The place, as it is named outside a namespace around it. -/
def TraitSite.inside (spaceName : String) (site : TraitSite) : TraitSite :=
  { site with name := Scope.qualified spaceName site.name }

/-- The constructors of a type group. The comments right before the group come before their own. -/
def GroupMember.sites (groupComments : List Comment) (before : List GroupMember) : List GroupMember → List ContainerSite
  | [] => []
  | .comment c :: rest => sites groupComments (before ++ [.comment c]) rest
  | .container c :: rest =>
    ⟨c.name.dotted, groupComments ++ Docs.run comment? before, c.body⟩ ::
      sites groupComments (before ++ [.container c]) rest

/-- The constructors in items, in order. `before` is what stands before the items in their list. -/
def Item.sites (before : List Item) : List Item → List ContainerSite
  | [] => []
  | .declaration d :: rest =>
    ⟨d.ctor.dotted, Docs.run comment? before, d.body⟩ :: sites (before ++ [.declaration d]) rest
  | .typeGroup g :: rest =>
    GroupMember.sites (Docs.run comment? before) [] g.body ++ sites (before ++ [.typeGroup g]) rest
  | .namespaceBlock name body span :: rest =>
    (sites [] body).map (ContainerSite.inside name.name) ++ sites (before ++ [.namespaceBlock name body span]) rest
  | .comment c :: rest => sites (before ++ [.comment c]) rest
  | .aliasDecl a :: rest => sites (before ++ [.aliasDecl a]) rest
  | .traitDecl d :: rest => sites (before ++ [.traitDecl d]) rest

/-- The traits in items, in order. -/
def Item.traitSites : List Item → List TraitSite
  | [] => []
  | .traitDecl d :: rest => ⟨d.name.name, d.body⟩ :: traitSites rest
  | .namespaceBlock name body _ :: rest => (traitSites body).map (TraitSite.inside name.name) ++ traitSites rest
  | _ :: rest => traitSites rest

/-! ## Documentation of a place -/

/-- The params are those of the properties that follow in a body, each with the entries of the comments right before
it. -/
def BodyEntry.Documents (before body : List BodyEntry) (params : List Param) : Prop :=
  List.Forall₂ (fun place param => param.name = place.1.key.name ∧ param.doc = Docs.ofComments place.2)
    (documented before body) params

/-- The container is that of the place, and its documentation is what stands before the place and before its
properties. -/
structure ContainerSite.Documents (site : ContainerSite) (c : Container) : Prop where
  name : c.name = site.name
  doc : c.doc = Docs.ofComments site.comments
  params : BodyEntry.Documents [] site.body c.params

/-- The trait is that of the place, and its params have the documentation that stands before its properties. -/
structure TraitSite.Documents (site : TraitSite) (d : Trait) : Prop where
  name : d.name = site.name
  params : BodyEntry.Documents [] site.body d.params

section Qualifying

variable {s : Scope} {spaceName : String}

/-- Qualifying leaves names and documentation of params alone. -/
theorem BodyEntry.Documents.qualify {before body : List BodyEntry} {params : List Param}
    (h : Documents before body params) : Documents before body (params.map (s.qualifyParam spaceName)) :=
  List.forall₂_map_right_iff.mpr (h.imp fun _ _ hparam => hparam)

theorem ContainerSite.Documents.qualify {site : ContainerSite} {c : Container} (h : site.Documents c) :
    (site.inside spaceName).Documents (s.qualifyContainer spaceName c) where
  name := congrArg (Scope.qualified spaceName) h.name
  doc := h.doc
  params := h.params.qualify

theorem TraitSite.Documents.qualify {site : TraitSite} {d : Trait} (h : site.Documents d) :
    (site.inside spaceName).Documents (s.qualifyTrait spaceName d) where
  name := congrArg (Scope.qualified spaceName) h.name
  params := h.params.qualify

end Qualifying

/-- The scope is that of the places in items. -/
structure Scope.IsOf (s : Scope) (sites : List ContainerSite) (traitSites : List TraitSite) : Prop where
  containers : List.Forall₂ (fun site (d : Container × Span) => site.Documents d.1) sites s.containers
  traits : List.Forall₂ TraitSite.Documents traitSites s.traits

namespace Scope

variable {s u : Scope} {sites sites' : List ContainerSite} {traitSites traitSites' : List TraitSite}

theorem isOf_empty : empty.IsOf [] [] :=
  ⟨.nil, .nil⟩

theorem isOf_container {site : ContainerSite} {c : Container} (h : site.Documents c) (place : Span) :
    Scope.IsOf ⟨[(c, place)], []⟩ [site] [] :=
  ⟨.cons h .nil, .nil⟩

theorem isOf_trait {site : TraitSite} {d : Trait} (h : site.Documents d) : Scope.IsOf ⟨[], [d]⟩ [] [site] :=
  ⟨.nil, .cons h .nil⟩

theorem IsOf.append (h : s.IsOf sites traitSites) (h' : u.IsOf sites' traitSites') :
    (s.append u).IsOf (sites ++ sites') (traitSites ++ traitSites') :=
  ⟨List.rel_append h.containers h'.containers, List.rel_append h.traits h'.traits⟩

theorem IsOf.enclose (h : s.IsOf sites traitSites) (spaceName : String) :
    (s.enclose spaceName).IsOf (sites.map (ContainerSite.inside spaceName))
      (traitSites.map (TraitSite.inside spaceName)) where
  containers := List.forall₂_map_left_iff.mpr (List.forall₂_map_right_iff.mpr
    (h.containers.imp fun _ _ hsite => hsite.qualify))
  traits := List.forall₂_map_left_iff.mpr (List.forall₂_map_right_iff.mpr (h.traits.imp fun _ _ hsite => hsite.qualify))

end Scope

namespace AliasTable

variable {t : AliasTable} {pending : List String}

theorem lowerProperty_documents {p : Property} {param : Param} (h : t.lowerProperty pending p = .ok param) :
    param.name = p.key.name ∧ param.doc = pending := by
  obtain ⟨shape, _, h⟩ := Except.bind_eq_ok_iff.mp h
  cases h
  cases shape <;> exact ⟨rfl, rfl⟩

/-- By induction on the body: what waits are the entries of the comments that end what stands before it. -/
theorem lowerBody_documents {before body : List BodyEntry} {params : List Param}
    (h : t.lowerBody pending body = .ok params)
    (hpending : pending = Docs.ofComments (Docs.run BodyEntry.comment? before)) :
    BodyEntry.Documents before body params := by
  induction pending, body using lowerBody.induct generalizing before params with
  | case1 pending =>
    cases h
    exact .nil
  | case2 pending c rest ih =>
    rw [lowerBody] at h
    exact ih h (Docs.collect_run rfl hpending)
  | case3 pending p rest ih =>
    rw [lowerBody] at h
    obtain ⟨param, hparam, h⟩ := Except.bind_eq_ok_iff.mp h
    obtain ⟨more, hmore, h⟩ := Except.bind_eq_ok_iff.mp h
    cases h
    obtain ⟨hname, hdoc⟩ := lowerProperty_documents hparam
    exact .cons ⟨hname, hdoc.trans hpending⟩ (ih hmore (Docs.nil_eq_ofComments_run rfl))

theorem lowerMembers_documents {typeName : String} {traits : List String} {groupComments : List Comment}
    {before body : List GroupMember} {members : List (Container × Span)}
    (h : t.lowerMembers typeName traits (Docs.ofComments groupComments) pending body = .ok members)
    (hpending : pending = Docs.ofComments (Docs.run GroupMember.comment? before)) :
    List.Forall₂ (fun site (d : Container × Span) => site.Documents d.1) (GroupMember.sites groupComments before body)
      members := by
  induction pending, body using lowerMembers.induct generalizing before members with
  | case1 pending =>
    cases h
    exact .nil
  | case2 pending c rest ih =>
    rw [lowerMembers] at h
    exact ih h (Docs.collect_run rfl hpending)
  | case3 pending c rest ih =>
    rw [lowerMembers] at h
    obtain ⟨params, hparams, h⟩ := Except.bind_eq_ok_iff.mp h
    obtain ⟨more, hmore, h⟩ := Except.bind_eq_ok_iff.mp h
    cases h
    have hdoc : Docs.ofComments groupComments ++ pending =
        Docs.ofComments (groupComments ++ Docs.run GroupMember.comment? before) := by
      rw [hpending]
      exact List.flatMap_append.symm
    exact .cons ⟨rfl, hdoc, lowerBody_documents hparams rfl⟩ (ih hmore (Docs.nil_eq_ofComments_run rfl))

theorem lowerDeclaration_documents {comments : List Comment} {d : Declaration} {c : Container}
    (h : t.lowerDeclaration (Docs.ofComments comments) d = .ok c) :
    ContainerSite.Documents ⟨d.ctor.dotted, comments, d.body⟩ c := by
  obtain ⟨params, hparams, h⟩ := Except.bind_eq_ok_iff.mp h
  cases h
  exact ⟨rfl, rfl, lowerBody_documents hparams rfl⟩

theorem lowerTrait_documents {d : TraitDeclaration} {declared : Trait} (h : t.lowerTrait d = .ok declared) :
    TraitSite.Documents ⟨d.name.name, d.body⟩ declared := by
  obtain ⟨params, hparams, h⟩ := Except.bind_eq_ok_iff.mp h
  cases h
  exact ⟨rfl, lowerBody_documents hparams rfl⟩

/-- The scope of items is that of the places in them. By induction on the items: a list inside another one begins with
nothing before it, and whatever is no comment leaves nothing that waits. -/
theorem lowerItems_documents {before items : List Item} {s : Scope} (h : t.lowerItems pending items = .ok s)
    (hpending : pending = Docs.ofComments (Docs.run Item.comment? before)) :
    s.IsOf (Item.sites before items) (Item.traitSites items) := by
  induction pending, items using lowerItems.induct generalizing before s with
  | case1 pending =>
    rw [lowerItems] at h
    cases h
    rw [Item.sites, Item.traitSites]
    exact Scope.isOf_empty
  | case2 pending c rest ih =>
    rw [lowerItems] at h
    rw [Item.sites, Item.traitSites]
    · exact ih h (Docs.collect_run rfl hpending)
    all_goals simp
  | case3 pending d rest ih =>
    rw [lowerItems] at h
    obtain ⟨c, hc, h⟩ := Except.bind_eq_ok_iff.mp h
    obtain ⟨more, hmore, h⟩ := Except.bind_eq_ok_iff.mp h
    cases h
    rw [hpending] at hc
    have hrest : more.IsOf (Item.sites (before ++ [.declaration d]) rest) (Item.traitSites rest) :=
      ih hmore (Docs.nil_eq_ofComments_run rfl)
    rw [Item.sites, Item.traitSites]
    · exact (Scope.isOf_container (lowerDeclaration_documents hc) d.ctor.span).append hrest
    all_goals simp
  | case4 pending g rest ih =>
    rw [lowerItems] at h
    obtain ⟨members, hmembers, h⟩ := Except.bind_eq_ok_iff.mp h
    obtain ⟨more, hmore, h⟩ := Except.bind_eq_ok_iff.mp h
    cases h
    rw [hpending, lowerGroup] at hmembers
    have hgroup : Scope.IsOf ⟨members, []⟩ (GroupMember.sites (Docs.run Item.comment? before) [] g.body) [] :=
      ⟨lowerMembers_documents hmembers rfl, .nil⟩
    have hrest : more.IsOf (Item.sites (before ++ [.typeGroup g]) rest) (Item.traitSites rest) :=
      ih hmore (Docs.nil_eq_ofComments_run rfl)
    rw [Item.sites, Item.traitSites]
    · exact hgroup.append hrest
    all_goals simp
  | case5 pending name body span rest ihbody ih =>
    rw [lowerItems] at h
    obtain ⟨inner, hinner, h⟩ := Except.bind_eq_ok_iff.mp h
    obtain ⟨more, hmore, h⟩ := Except.bind_eq_ok_iff.mp h
    cases h
    have hinner : inner.IsOf (Item.sites [] body) (Item.traitSites body) := ihbody hinner rfl
    have hrest : more.IsOf (Item.sites (before ++ [.namespaceBlock name body span]) rest) (Item.traitSites rest) :=
      ih hmore (Docs.nil_eq_ofComments_run rfl)
    rw [Item.sites, Item.traitSites]
    exact (hinner.enclose name.name).append hrest
  | case6 pending d rest ih =>
    rw [lowerItems] at h
    obtain ⟨declared, hdeclared, h⟩ := Except.bind_eq_ok_iff.mp h
    obtain ⟨more, hmore, h⟩ := Except.bind_eq_ok_iff.mp h
    cases h
    have hrest : more.IsOf (Item.sites (before ++ [.traitDecl d]) rest) (Item.traitSites rest) :=
      ih hmore (Docs.nil_eq_ofComments_run rfl)
    rw [Item.sites, Item.traitSites]
    exact (Scope.isOf_trait (lowerTrait_documents hdeclared)).append hrest
  | case7 pending a rest ih =>
    rw [lowerItems] at h
    rw [Item.sites, Item.traitSites]
    · exact ih h (Docs.nil_eq_ofComments_run rfl)
    all_goals simp

end AliasTable

namespace Schema

variable {s : Schema} {containers : List Container}

/-- The containers of a schema are those of the places where constructors are declared, in order, and its traits are the
first of each name of those where traits are declared. What stands right before a place, and nothing else, documents
it. -/
theorem lower_documents (h : s.lower.result = .ok containers) :
    List.Forall₂ ContainerSite.Documents (Item.sites [] s.body) containers ∧
      ∃ declared, List.Forall₂ TraitSite.Documents (Item.traitSites s.body) declared ∧
        s.lower.traits = Trait.firsts declared := by
  have hlower : s.lower = ⟨s.lower.aliases, s.lower.traits, .ok containers⟩ := h ▸ rfl
  obtain ⟨-, -, scope, hitems, htraits, -, rfl⟩ := lower_eq_ok_iff.mp hlower
  have hscope : scope.IsOf (Item.sites [] s.body) (Item.traitSites s.body) :=
    AliasTable.lowerItems_documents hitems rfl
  refine ⟨List.forall₂_map_right_iff.mpr (hscope.containers.imp fun _ _ hsite => ?_), scope.traits, hscope.traits,
    htraits.symm⟩
  exact ⟨hsite.name, hsite.doc, hsite.params⟩

/-- A type group in a namespace, with comments before the namespace, before the group, before its member, and before and
behind the property of the member. -/
def commentedPost : Schema :=
  let note (text : String) : Item := .comment ⟨text, ⟨0, 0⟩⟩
  let path (text : String) : TypePath := ⟨[⟨text, ⟨0, 0⟩⟩], ⟨0, 0⟩⟩
  let id : Property := ⟨⟨"id", ⟨0, 0⟩⟩, false, .single (.path (path "long")), ⟨0, 0⟩⟩
  let post : GroupContainer :=
    ⟨path "post", [.comment ⟨"D", ⟨0, 0⟩⟩, .property id, .comment ⟨"E", ⟨0, 0⟩⟩], ⟨0, 0⟩⟩
  let group : TypeGroup := ⟨⟨"Post", ⟨0, 0⟩⟩, [], [.comment ⟨"C", ⟨0, 0⟩⟩, .container post], ⟨0, 0⟩⟩
  ⟨[note "A", app [note "B", .typeGroup group]], ⟨0, 0⟩⟩

theorem lower_documents_commentedPost :
    ∃ c, commentedPost.lower.result = .ok [c] ∧ c.name = "app.post" ∧ c.doc = ["B", "C"] ∧
      c.params.map Param.doc = [["D"]] := by
  have hlong : AliasTable.empty.resolve (.path ⟨[⟨"long", ⟨0, 0⟩⟩], ⟨0, 0⟩⟩) = .ok (.primitive .long) :=
    AliasTable.resolve_eq_ok_iff.mpr (.primitive rfl (by decide))
  obtain ⟨scope, c, hitems, hscope⟩ : ∃ scope c, AliasTable.empty.lowerItems [] commentedPost.body = .ok scope ∧
      scope.containers = [c] := by
    simp only [commentedPost, app, AliasTable.lowerItems, AliasTable.lowerGroup, AliasTable.lowerMembers,
      AliasTable.lowerBody, AliasTable.lowerProperty, AliasTable.shape, hlong]
    exact ⟨_, _, rfl, rfl⟩
  have haliases : AliasTable.empty.entries = Item.aliases commentedPost.body := by
    simp [AliasTable.empty, commentedPost, app, Item.aliases, Item.flatten]
  have hlower : commentedPost.lower.result = .ok [c.1.assignId] :=
    lower_result_eq_ok_iff.mpr ⟨.empty, scope, haliases, rfl, hitems, by simp [hscope], by simp [hscope]⟩
  have hsites := (lower_documents hlower).1
  simp only [commentedPost, app, Item.sites, GroupMember.sites] at hsites
  obtain ⟨hsite, -⟩ := List.forall₂_cons.mp hsites
  obtain ⟨id, ids, ⟨-, hdoc⟩, hids, hparams⟩ := List.forall₂_cons_left_iff.mp hsite.params
  obtain rfl := List.forall₂_nil_left_iff.mp hids
  refine ⟨_, hlower, hsite.name.trans (by decide), hsite.doc.trans (by decide), ?_⟩
  rw [hparams, List.map_singleton, hdoc]
  decide

end Schema

end SchemaWire
