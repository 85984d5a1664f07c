import SchemaWire.Lowering
import SchemaWire.Proofs.Outcome

/-!
# Scopes without documentation

Documentation has no part in what names mean, in ids and in whether a schema can be lowered. So it can be left out of a
scope before or after the scope is closed (`Scope.erase_enclose`), and what is left of the containers of a type group
depends on no comment (`AliasTable.erase_lowerMembers`). That of containers is always left out here; what is left out of
params is a parameter.

Lists of items that differ in comments and aliases, and in bodies with the same params but for the documentation, have
the same scope but for the documentation (`AliasTable.LowersAlike.erase_lowerItems`).
-/

namespace SchemaWire

/-- Whether what is left out of params has no part in signatures and references. -/
structure Param.Erases (f : Param → Param) : Prop where
  signature : ∀ p, (f p).signature = p.signature
  qualify : ∀ (s : Scope) spaceName p, s.qualifyParam spaceName (f p) = f (s.qualifyParam spaceName p)

theorem Param.erases_id : Erases id :=
  ⟨fun _ => rfl, fun _ _ _ => rfl⟩

/-- The container without its documentation, and with what is left of its params. -/
def Container.erase (f : Param → Param) (c : Container) : Container :=
  { c with doc := [], params := c.params.map f }

/-- The trait with what is left of its params. -/
def Trait.erase (f : Param → Param) (d : Trait) : Trait :=
  { d with params := d.params.map f }

/-- A container with its place, without documentation. -/
def Scope.eraseAt (f : Param → Param) (c : Container × Span) : Container × Span :=
  (c.1.erase f, c.2)

/-- The scope without the documentation of its containers, and with what is left of all params. -/
def Scope.erase (f : Param → Param) (s : Scope) : Scope :=
  ⟨s.containers.map (eraseAt f), s.traits.map (Trait.erase f)⟩

variable {f : Param → Param}

namespace Container

theorem signature_erase (hf : Param.Erases f) (c : Container) : (c.erase f).signature = c.signature := by
  have hparams : (c.erase f).params.map Param.signature = c.params.map Param.signature := by
    rw [erase, List.map_map]
    exact List.map_congr_left fun p _ => hf.signature p
  unfold signature
  rw [hparams]
  rfl

theorem erase_assignId (hf : Param.Erases f) (c : Container) : c.assignId.erase f = (c.erase f).assignId := by
  rw [assignId, assignId, computeId, computeId, signature_erase hf]
  rfl

theorem erase_withParams (hf : Param.Erases f) (c : Container) (params : List Param) :
    (c.withParams params).erase f = (c.erase f).withParams (params.map f) := by
  rw [withParams, erase_assignId hf]
  rfl

end Container

namespace Trait

theorem erase_record (known : List Trait) (d : Trait) :
    record (known.map (erase f)) (d.erase f) = (record known d).map (erase f) := by
  rw [record, record, apply_ite (List.map (erase f)), List.map_append, List.any_map]
  rfl

theorem erase_firsts (traits : List Trait) : firsts (traits.map (erase f)) = (firsts traits).map (erase f) := by
  have hfold (known : List Trait) :
      (traits.map (erase f)).foldl record (known.map (erase f)) = (traits.foldl record known).map (erase f) := by
    induction traits generalizing known with
    | nil => rfl
    | cons d rest ih => rw [List.map_cons, List.foldl_cons, List.foldl_cons, erase_record, ih]
  exact hfold []

end Trait

namespace Scope

variable {s u : Scope}

theorem eraseAt_id (d : Container × Span) : eraseAt id d = (d.1.withDoc [], d.2) := by
  rw [eraseAt, Container.erase, List.map_id]
  rfl

theorem traits_erase_id : (s.erase id).traits = s.traits := by
  have htrait (d : Trait) : d.erase id = d := by rw [Trait.erase, List.map_id]
  rw [erase, List.map_congr_left fun d _ => htrait d, List.map_id']

theorem erase_append : (s.append u).erase f = (s.erase f).append (u.erase f) := by
  simp [erase, append]

theorem declares_erase : (s.erase f).declares = s.declares := by
  funext name
  simp [erase, eraseAt, declares, Container.erase, Trait.erase, Function.comp_def]

theorem erase_enclose (hf : Param.Erases f) (spaceName : String) :
    (s.enclose spaceName).erase f = (s.erase f).enclose spaceName := by
  have hparams (params : List Param) : (params.map f).map ((s.erase f).qualifyParam spaceName) =
      (params.map (s.qualifyParam spaceName)).map f := by
    rw [qualifyParam_congr declares_erase, List.map_map, List.map_map]
    exact List.map_congr_left fun p _ => hf.qualify s spaceName p
  have hcontainer (c : Container) :
      (s.erase f).qualifyContainer spaceName (c.erase f) = (s.qualifyContainer spaceName c).erase f := by
    simp only [qualifyContainer, Container.erase, hparams, qualifyReference_congr declares_erase]
  have htrait (d : Trait) : (s.erase f).qualifyTrait spaceName (d.erase f) = (s.qualifyTrait spaceName d).erase f := by
    simp only [qualifyTrait, Trait.erase, hparams]
  refine congrArg₂ Scope.mk ?_ ?_
  · rw [enclose, erase, List.map_map, List.map_map]
    exact List.map_congr_left fun d _ => congrArg (·, d.2) (hcontainer d.1).symm
  · rw [enclose, erase, List.map_map, List.map_map]
    exact List.map_congr_left fun d _ => (htrait d).symm

/-- Documentation neither repeats a name nor changes an id. -/
theorem identify_erase (hf : Param.Erases f) {seen : List (String × Span)} {declared : List (Container × Span)} :
    identify seen (declared.map (eraseAt f)) = (identify seen declared).map (List.map (Container.erase f)) := by
  induction declared generalizing seen with
  | nil => rfl
  | cons d rest ih =>
    obtain ⟨c, place⟩ := d
    have hname : (c.erase f).name = c.name := rfl
    rw [List.map_cons, eraseAt, identify, identify, hname]
    cases seen.lookup c.name with
    | some first => rfl
    | none =>
      simp only [ih, Except.map_map]
      congr 1
      funext more
      exact congrArg (· :: _) (c.erase_assignId hf).symm

end Scope

/-- The constructors among members. -/
def GroupMember.containers : List GroupMember → List GroupContainer
  | [] => []
  | .comment _ :: rest => containers rest
  | .container c :: rest => c :: containers rest

namespace AliasTable

variable {t : AliasTable} {pending : List String}

/-- What is left of the params of a body. -/
def erasedBody (t : AliasTable) (f : Param → Param) (body : List BodyEntry) : Except LoweringError (List Param) :=
  (t.lowerBody [] body).map (List.map f)

theorem erase_lowerDeclaration (hf : Param.Erases f) (d : Declaration) :
    (t.lowerDeclaration pending d).map (Container.erase f) =
      (t.erasedBody f d.body).map ((Container.make d.ctor.dotted d.name.dotted).erase f).withParams := by
  rw [lowerDeclaration, erasedBody]
  cases t.lowerBody [] d.body with
  | error e => rfl
  | ok params => exact congrArg Except.ok (Container.erase_withParams hf _ params)

theorem erase_lowerTrait (d : TraitDeclaration) :
    (t.lowerTrait d).map (Trait.erase f) = (t.erasedBody f d.body).map (Trait.mk d.name.name) := by
  rw [lowerTrait, erasedBody]
  cases t.lowerBody [] d.body <;> rfl

/-- The container of a constructor in a type group, with its place, of which documentation is left out. -/
def erasedMember (t : AliasTable) (f : Param → Param) (typeName : String) (traits : List String) (c : GroupContainer) :
    Except LoweringError (Container × Span) :=
  (t.erasedBody f c.body).map fun params =>
    ((((Container.make c.name.dotted typeName).withTraits traits).erase f).withParams params, c.name.span)

/-- What is left of the containers of members comes from each constructor alone. -/
theorem erase_lowerMembers (hf : Param.Erases f) {typeName : String} {traits groupDoc : List String}
    {body : List GroupMember} :
    (t.lowerMembers typeName traits groupDoc pending body).map (List.map (Scope.eraseAt f)) =
      (GroupMember.containers body).mapM (t.erasedMember f typeName traits) := by
  induction pending, body using lowerMembers.induct with
  | case1 => rfl
  | case2 pending c rest ih => exact ih
  | case3 pending c rest ih =>
    have hcontainer (doc : List String) (params : List Param) :
        ((((Container.make c.name.dotted typeName).withTraits traits).withParams params).withDoc doc).erase f =
          (((Container.make c.name.dotted typeName).withTraits traits).erase f).withParams (params.map f) :=
      Container.erase_withParams hf ..
    rw [lowerMembers, GroupMember.containers, List.mapM_cons, ← ih, erasedMember, erasedBody]
    cases t.lowerBody [] c.body with
    | error e => rfl
    | ok params =>
      cases t.lowerMembers typeName traits groupDoc [] rest with
      | error e => rfl
      | ok more => exact congrArg Except.ok (congrArg (fun d => (d, c.name.span) :: _) (hcontainer _ params))

/-- Items that lower alike: comments and aliases are passed over, and bodies may differ where the same is left of them. -/
inductive LowersAlike (t : AliasTable) (f : Param → Param) : List Item → List Item → Prop
  | nil : LowersAlike t f [] []
  | symm {items others : List Item} : LowersAlike t f items others → LowersAlike t f others items
  | comment {items others : List Item} (c : Comment) :
    LowersAlike t f items others → LowersAlike t f (.comment c :: items) others
  | aliasDecl {items others : List Item} (a : Alias) :
    LowersAlike t f items others → LowersAlike t f (.aliasDecl a :: items) others
  | declaration {items others : List Item} (d : Declaration) {body : List BodyEntry}
    (h : t.erasedBody f body = t.erasedBody f d.body) :
    LowersAlike t f items others → LowersAlike t f (.declaration { d with body } :: items) (.declaration d :: others)
  | typeGroup {items others : List Item} (g : TypeGroup) {body : List GroupMember}
    (h : ∀ traits, (GroupMember.containers body).mapM (t.erasedMember f g.name.name traits) =
      (GroupMember.containers g.body).mapM (t.erasedMember f g.name.name traits)) :
    LowersAlike t f items others → LowersAlike t f (.typeGroup { g with body } :: items) (.typeGroup g :: others)
  | namespaceBlock {items others body body' : List Item} (name : Identifier) (span : Span) :
    LowersAlike t f body body' → LowersAlike t f items others →
      LowersAlike t f (.namespaceBlock name body span :: items) (.namespaceBlock name body' span :: others)
  | traitDecl {items others : List Item} (d : TraitDeclaration) {body : List BodyEntry}
    (h : t.erasedBody f body = t.erasedBody f d.body) :
    LowersAlike t f items others → LowersAlike t f (.traitDecl { d with body } :: items) (.traitDecl d :: others)

/-- Items that lower alike have the same scope, but for the documentation. -/
theorem LowersAlike.erase_lowerItems (hf : Param.Erases f) {items others : List Item} (h : t.LowersAlike f items others)
    (pending pending' : List String) :
    (t.lowerItems pending items).map (Scope.erase f) = (t.lowerItems pending' others).map (Scope.erase f) := by
  have happend := @Scope.erase_append f
  induction h generalizing pending pending' with
  | nil => rw [lowerItems, lowerItems]
  | symm _ ih => exact (ih pending' pending).symm
  | comment c _ ih =>
    rw [lowerItems]
    exact ih _ _
  | aliasDecl a _ ih =>
    rw [lowerItems]
    exact ih _ _
  | declaration d hbody _ ih =>
    rw [lowerItems, lowerItems]
    refine Except.map_bind_congr (Container.erase f) (Scope.erase f) (fun c => Scope.append ⟨[(c, d.ctor.span)], []⟩)
      ?_ (ih [] []) (fun _ _ => happend) fun _ _ => happend
    rw [erase_lowerDeclaration hf, erase_lowerDeclaration hf, hbody]
  | typeGroup g hmembers _ ih =>
    rw [lowerItems, lowerItems]
    refine Except.map_bind_congr (List.map (Scope.eraseAt f)) (Scope.erase f) (fun members => Scope.append ⟨members, []⟩)
      ?_ (ih [] []) (fun _ _ => happend) fun _ _ => happend
    rw [lowerGroup, lowerGroup, erase_lowerMembers hf, erase_lowerMembers hf]
    exact hmembers _
  | namespaceBlock name span _ _ ihbody ih =>
    have hclosed (s u : Scope) : ((s.enclose name.name).append u).erase f =
        ((s.erase f).enclose name.name).append (u.erase f) := by
      rw [happend, Scope.erase_enclose hf]
    rw [lowerItems, lowerItems]
    exact Except.map_bind_congr (Scope.erase f) (Scope.erase f) (fun inner => (inner.enclose name.name).append)
      (ihbody [] []) (ih [] []) hclosed hclosed
  | traitDecl d hbody _ ih =>
    rw [lowerItems, lowerItems]
    refine Except.map_bind_congr (Trait.erase f) (Scope.erase f) (fun declared => Scope.append ⟨[], [declared]⟩)
      ?_ (ih [] []) (fun _ _ => happend) fun _ _ => happend
    rw [erase_lowerTrait, erase_lowerTrait, hbody]

end AliasTable

end SchemaWire
