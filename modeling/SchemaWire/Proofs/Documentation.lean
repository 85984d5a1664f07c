import SchemaWire.Proofs.Dependence
import SchemaWire.Proofs.Erasure
import SchemaWire.Proofs.Signature

/-!
# Documentation and the model

Comments become the documentation of containers and params, and this is all that they decide. Trees that are the same
without their comments contradict themselves alike, or have the same containers and traits but for the documentation,
ids included (`lower_of_withoutComments_eq`).
-/

namespace SchemaWire

/-! ## Trees without comments -/

/-- The entries of a body that are properties. -/
def BodyEntry.withoutComments : List BodyEntry → List BodyEntry
  | [] => []
  | .comment _ :: rest => withoutComments rest
  | .property p :: rest => .property p :: withoutComments rest

/-- The members of a type group that are constructors, without the comments in their bodies. -/
def GroupMember.withoutComments : List GroupMember → List GroupMember
  | [] => []
  | .comment _ :: rest => withoutComments rest
  | .container c :: rest => .container { c with body := BodyEntry.withoutComments c.body } :: withoutComments rest

/-- The items that are no comments, without the comments inside them. -/
def Item.withoutComments : List Item → List Item
  | [] => []
  | .comment _ :: rest => withoutComments rest
  | .namespaceBlock name body span :: rest => .namespaceBlock name (withoutComments body) span :: withoutComments rest
  | .typeGroup g :: rest => .typeGroup { g with body := GroupMember.withoutComments g.body } :: withoutComments rest
  | .aliasDecl a :: rest => .aliasDecl a :: withoutComments rest
  | .traitDecl d :: rest => .traitDecl { d with body := BodyEntry.withoutComments d.body } :: withoutComments rest
  | .declaration d :: rest => .declaration { d with body := BodyEntry.withoutComments d.body } :: withoutComments rest

/-- The tree without its comments. -/
def Schema.withoutComments (s : Schema) : Schema :=
  { s with body := Item.withoutComments s.body }

theorem Item.aliases_withoutComments (items : List Item) : aliases (withoutComments items) = aliases items := by
  unfold aliases
  induction items using withoutComments.induct with
  | case1 => simp only [withoutComments]
  | case2 c rest ih => simpa only [withoutComments, flatten, List.filterMap_cons] using ih
  | case3 name body span rest ihbody ih =>
    simp only [withoutComments, flatten, List.cons_append, List.filterMap_cons, List.filterMap_append, ihbody, ih]
  | case4 g rest ih => simpa only [withoutComments, flatten, List.filterMap_cons] using ih
  | case5 a rest ih => simp only [withoutComments, flatten, List.filterMap_cons, ih]
  | case6 d rest ih => simpa only [withoutComments, flatten, List.filterMap_cons] using ih
  | case7 d rest ih => simpa only [withoutComments, flatten, List.filterMap_cons] using ih

/-! ## Models without documentation -/

theorem Param.erases_withoutDoc : Erases withoutDoc :=
  ⟨fun _ => rfl, fun _ _ _ => rfl⟩

/-- The trait without the documentation of its params. -/
def Trait.withoutDocs (d : Trait) : Trait :=
  { d with params := d.params.map Param.withoutDoc }

/-- What lowering leaves behind, without documentation. -/
def Lowered.withoutDocs (l : Lowered) : Lowered :=
  ⟨l.aliases, l.traits.map Trait.withoutDocs, l.result.map (List.map Container.withoutDocs)⟩

/-! ## Lowering without comments -/

namespace AliasTable

variable {t : AliasTable} {pending pending' : List String}

theorem lowerProperty_withoutDoc (p : Property) :
    (t.lowerProperty pending p).map Param.withoutDoc = (t.lowerProperty pending' p).map Param.withoutDoc := by
  unfold lowerProperty
  cases t.shape p.type <;> rfl

theorem lowerBody_withoutComments {body : List BodyEntry} :
    (t.lowerBody pending (BodyEntry.withoutComments body)).map (List.map Param.withoutDoc) =
      (t.lowerBody pending' body).map (List.map Param.withoutDoc) := by
  induction pending', body using lowerBody.induct generalizing pending with
  | case1 => rfl
  | case2 pending' c rest ih => exact ih
  | case3 pending' p rest ih =>
    exact Except.map_bind_congr Param.withoutDoc (List.map Param.withoutDoc) List.cons (lowerProperty_withoutDoc p) ih
      (fun _ _ => rfl) fun _ _ => rfl

theorem erasedBody_withoutComments (body : List BodyEntry) :
    t.erasedBody Param.withoutDoc (BodyEntry.withoutComments body) = t.erasedBody Param.withoutDoc body :=
  lowerBody_withoutComments

theorem containers_withoutComments (body : List GroupMember) :
    GroupMember.containers (GroupMember.withoutComments body) =
      (GroupMember.containers body).map fun c => { c with body := BodyEntry.withoutComments c.body } := by
  induction body using GroupMember.withoutComments.induct with
  | case1 => rfl
  | case2 c rest ih => exact ih
  | case3 c rest ih => exact congrArg _ ih

theorem erasedMember_withoutComments (typeName : String) (traits : List String) (body : List GroupMember) :
    (GroupMember.containers (GroupMember.withoutComments body)).mapM (t.erasedMember Param.withoutDoc typeName traits) =
      (GroupMember.containers body).mapM (t.erasedMember Param.withoutDoc typeName traits) := by
  have hmember (c : GroupContainer) :
      t.erasedMember Param.withoutDoc typeName traits { c with body := BodyEntry.withoutComments c.body } =
        t.erasedMember Param.withoutDoc typeName traits c := by
    rw [erasedMember, erasedMember, erasedBody_withoutComments]
  rw [containers_withoutComments, List.mapM_map]
  exact congrArg (GroupMember.containers body).mapM (funext hmember)

theorem lowersAlike_withoutComments (items : List Item) :
    t.LowersAlike Param.withoutDoc (Item.withoutComments items) items := by
  induction items using Item.withoutComments.induct with
  | case1 =>
    rw [Item.withoutComments]
    exact .nil
  | case2 c rest ih =>
    rw [Item.withoutComments]
    exact .symm (.comment c ih.symm)
  | case3 name body span rest ihbody ih =>
    rw [Item.withoutComments]
    exact .namespaceBlock name span ihbody ih
  | case4 g rest ih =>
    rw [Item.withoutComments]
    exact .typeGroup g (fun traits => erasedMember_withoutComments g.name.name traits g.body) ih
  | case5 a rest ih =>
    rw [Item.withoutComments]
    exact .aliasDecl a (.symm (.aliasDecl a ih.symm))
  | case6 d rest ih =>
    rw [Item.withoutComments]
    exact .traitDecl d (erasedBody_withoutComments d.body) ih
  | case7 d rest ih =>
    rw [Item.withoutComments]
    exact .declaration d (erasedBody_withoutComments d.body) ih

/-- Items have the same scope without their comments, but for the documentation. -/
theorem lowerItems_withoutComments (items : List Item) :
    (t.lowerItems [] (Item.withoutComments items)).map (Scope.erase Param.withoutDoc) =
      (t.lowerItems [] items).map (Scope.erase Param.withoutDoc) :=
  (lowersAlike_withoutComments items).erase_lowerItems Param.erases_withoutDoc [] []

end AliasTable

namespace Schema

variable {s s' : Schema}

theorem scope_withoutComments (t : AliasTable) :
    (s.withoutComments.scope t).map (Scope.erase Param.withoutDoc) = (s.scope t).map (Scope.erase Param.withoutDoc) := by
  unfold scope
  cases t.validate with
  | error e => rfl
  | ok _ => exact AliasTable.lowerItems_withoutComments s.body

theorem lower_withoutComments (s : Schema) : s.withoutComments.lower.withoutDocs = s.lower.withoutDocs := by
  -- Both register the same aliases, and so come to the same table or to the same error.
  have haliases : Item.aliases s.withoutComments.body = Item.aliases s.body := Item.aliases_withoutComments s.body
  rw [lower, lower, haliases]
  cases AliasTable.registerAll .empty (Item.aliases s.body) with
  | mk t registered =>
    cases registered with
    | error e => rfl
    | ok _ =>
      have hscope := s.scope_withoutComments t
      cases hs : s.scope t with
      | error e =>
        rw [hs] at hscope
        simp only [hs, Except.map_eq_error_iff.mp hscope]
      | ok scope =>
        obtain ⟨scope', hs', hsame⟩ := Except.map_eq_ok_iff.mp (hscope.trans (congrArg _ hs))
        have hcontainers := congrArg Scope.containers hsame
        have htraits := congrArg Scope.traits hsame
        simp only [Scope.erase] at hcontainers htraits
        have htrait : Trait.withoutDocs = Trait.erase Param.withoutDoc := rfl
        have hcontainer : Container.withoutDocs = Container.erase Param.withoutDoc := rfl
        simp only [hs, hs', Lowered.withoutDocs, htrait, hcontainer, ← Trait.erase_firsts,
          ← Scope.identify_erase Param.erases_withoutDoc, hcontainers, htraits]

/-- Trees that are the same without their comments have the same aliases, and the same traits and the same result of
lowering but for the documentation of containers and params: the same error, or containers with the same ids. -/
theorem lower_of_withoutComments_eq (h : s.withoutComments = s'.withoutComments) :
    s.lower.withoutDocs = s'.lower.withoutDocs ∧
      s.lower.result.map (List.map Container.id) = s'.lower.result.map (List.map Container.id) := by
  have hsame : s.lower.withoutDocs = s'.lower.withoutDocs := by
    rw [← lower_withoutComments, h, lower_withoutComments]
  have hids (l : Lowered) :
      l.result.map (List.map Container.id) = l.withoutDocs.result.map (List.map Container.id) := by
    rw [Lowered.withoutDocs, Except.map_map, List.map_comp_map]
    rfl
  exact ⟨hsame, by rw [hids, hsame, ← hids]⟩

/-- A comment before a declaration, and another one in its body. -/
theorem lower_of_withoutComments_eq_users :
    let note : Comment := ⟨"note", ⟨0, 0⟩⟩
    let commented : Schema := ⟨[.aliasDecl idAlias, app [.comment note,
      .declaration { user with body := .comment note :: user.body }]], ⟨0, 0⟩⟩
    users.withoutComments = commented.withoutComments ∧
      ∃ c, commented.lower.result = .ok [c] ∧ c.name = "app.user" := by
  intro note commented
  have hsame : users.withoutComments = commented.withoutComments := by
    simp [users, commented, app, withoutComments, Item.withoutComments, BodyEntry.withoutComments]
  obtain ⟨c, hc, hname⟩ := lower_users
  obtain ⟨hlowered, -⟩ := lower_of_withoutComments_eq hsame
  have hresult := congrArg Lowered.result hlowered
  simp only [Lowered.withoutDocs, hc] at hresult
  obtain ⟨containers, hcontainers, hdocs⟩ := Except.map_eq_ok_iff.mp hresult.symm
  obtain ⟨d, rfl, hd⟩ := List.map_eq_singleton_iff.mp hdocs
  have hnames := congrArg Container.name hd
  exact ⟨hsame, d, hcontainers, hnames.trans hname⟩

end Schema

end SchemaWire
