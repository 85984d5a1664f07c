import SchemaWire.Proofs.Keys
import SchemaWire.Proofs.Resolution
import SchemaWire.Session

/-!
# What lowering depends on

Of a table of aliases lowering sees only what the type names in a schema stand for, and this depends only on the aliases
that are met on the way (`resolve_congr`, `lowerItems_congr`). A schema has a model if its aliases have distinct names
and all stand for primitive types, its items can be lowered, and no full name is repeated (`lower_eq_ok_iff`). This is
the model of a source that has the schema as its tree (`compile_eq_ok_iff`).
-/

namespace SchemaWire

theorem Item.mem_aliases_iff {items : List Item} {a : Alias} : a ∈ aliases items ↔ .aliasDecl a ∈ flatten items := by
  rw [aliases, List.mem_filterMap]
  constructor
  · rintro ⟨item, hitem, hsome⟩
    cases item with
    | aliasDecl a' =>
      cases hsome
      exact hitem
    | _ => cases hsome
  · exact fun h => ⟨_, h, rfl⟩

namespace AliasTable

variable {t u : AliasTable}

/-! ## Tables with the same aliases on the way -/

section Reached

/- Names that both tables know alike, the names by which their targets are looked up included. -/
variable {S : String → Prop} (hget : ∀ name, S name → t.get? name = u.get? name)
  (hclosed : ∀ name a next, S name → t.get? name = some a → a.target.head? = some next → S next)
include hget hclosed

theorem resolveName_congr {chain : List String} {name : String} {place : Span} (hname : S name) :
    t.resolveName chain name place = u.resolveName chain name place := by
  fun_induction resolveName t chain name place with
  | case1 chain name place type htype => fun_cases resolveName u chain name place <;> simp_all
  | case2 chain name place htype ha => fun_cases resolveName u chain name place <;> simp_all
  | case3 chain name place htype a ha hmem => fun_cases resolveName u chain name place <;> simp_all
  | case4 chain name place htype a ha hmem hlt path htarget hsimple ih =>
    have hnext := ih (hclosed name a _ hname ha (htarget ▸ TypeName.head?_path hsimple))
    rw [hget name hname] at ha
    fun_cases resolveName u chain name place <;> simp_all
  | case5 chain name place htype a ha hmem hlt path htarget hsimple =>
    rw [hget name hname] at ha
    fun_cases resolveName u chain name place <;> simp_all
  | case6 chain name place htype a ha hmem hlt sized htarget ih =>
    have hnext := ih (hclosed name a _ hname ha (htarget ▸ rfl))
    rw [hget name hname] at ha
    fun_cases resolveName u chain name place <;> simp_all

theorem resolve_congr {type : TypeName} (htype : ∀ name, type.head? = some name → S name) :
    t.resolve type = u.resolve type := by
  cases type with
  | path p =>
    rw [resolve, resolve]
    by_cases hp : p.isSimple = true
    · rw [if_pos hp, if_pos hp, resolveName_congr hget hclosed (htype _ (TypeName.head?_path hp))]
    · rw [if_neg hp, if_neg hp]
  | sized s => rw [resolve, resolve, resolveName_congr hget hclosed (htype _ rfl)]

end Reached

/-! ## Tables that give the type names of a schema the same meaning -/

theorem shape_congr {type : PropertyType} (h : t.resolve type.item = u.resolve type.item) :
    t.shape type = u.shape type := by
  cases type with
  | single type =>
    rw [PropertyType.item] at h
    rw [shape, shape, h]
  | vector v =>
    rw [PropertyType.item] at h
    rw [shape, shape, h]

theorem lowerBody_congr {pending : List String} {body : List BodyEntry}
    (h : ∀ type ∈ BodyEntry.typeNames body, t.resolve type = u.resolve type) :
    t.lowerBody pending body = u.lowerBody pending body := by
  induction pending, body using lowerBody.induct with
  | case1 => rfl
  | case2 pending c rest ih => exact ih h
  | case3 pending p rest ih =>
    simp only [BodyEntry.typeNames, List.filterMap_cons, List.forall_mem_cons] at h
    rw [lowerBody, lowerBody, lowerProperty, lowerProperty, shape_congr h.1, ih h.2]

theorem lowerMembers_congr {typeName : String} {traits groupDoc pending : List String} {body : List GroupMember}
    (h : ∀ type ∈ body.flatMap fun | .comment _ => [] | .container c => BodyEntry.typeNames c.body,
      t.resolve type = u.resolve type) :
    t.lowerMembers typeName traits groupDoc pending body = u.lowerMembers typeName traits groupDoc pending body := by
  induction pending, body using lowerMembers.induct with
  | case1 => rfl
  | case2 pending c rest ih => exact ih (by simpa using h)
  | case3 pending c rest ih =>
    rw [List.flatMap_cons, List.forall_mem_append] at h
    rw [lowerMembers, lowerMembers, lowerBody_congr h.1, ih h.2]

/-- The scope of items depends on what the type names in them stand for, and not on the table otherwise. -/
theorem lowerItems_congr {pending : List String} {items : List Item}
    (h : ∀ item ∈ Item.flatten items, ∀ type ∈ item.typeNames, t.resolve type = u.resolve type) :
    t.lowerItems pending items = u.lowerItems pending items := by
  induction pending, items using lowerItems.induct with
  | case1 => rw [lowerItems, lowerItems]
  | case2 pending c rest ih =>
    simp only [Item.flatten, List.forall_mem_cons] at h
    rw [lowerItems, lowerItems, ih h.2]
  | case3 pending d rest ih =>
    simp only [Item.flatten, List.forall_mem_cons] at h
    rw [lowerItems, lowerItems, lowerDeclaration, lowerDeclaration, lowerBody_congr h.1, ih h.2]
  | case4 pending g rest ih =>
    simp only [Item.flatten, List.forall_mem_cons] at h
    rw [lowerItems, lowerItems, lowerGroup, lowerGroup, lowerMembers_congr h.1, ih h.2]
  | case5 pending name body span rest ihbody ih =>
    simp only [Item.flatten, List.cons_append, List.forall_mem_cons, List.forall_mem_append] at h
    rw [lowerItems, lowerItems, ihbody h.2.1, ih h.2.2]
  | case6 pending d rest ih =>
    simp only [Item.flatten, List.forall_mem_cons] at h
    rw [lowerItems, lowerItems, lowerTrait, lowerTrait, lowerBody_congr h.1, ih h.2]
  | case7 pending a rest ih =>
    simp only [Item.flatten, List.forall_mem_cons] at h
    rw [lowerItems, lowerItems, ih h.2]

end AliasTable

/-! ## When a schema has a model -/

namespace Scope

/-- Containers get their ids exactly if no name is repeated and none was seen before. -/
theorem identify_eq_ok_iff {seen : List (String × Span)} {declared : List (Container × Span)}
    {containers : List Container} : identify seen declared = .ok containers ↔
      (declared.map fun d => d.1.name).Nodup ∧ (∀ d ∈ declared, seen.lookup d.1.name = none) ∧
        declared.map (fun d => d.1.assignId) = containers := by
  induction declared generalizing seen containers with
  | nil => simp [identify]
  | cons d rest ih =>
    obtain ⟨c, place⟩ := d
    rw [identify, List.forall_mem_cons, List.map_cons, List.nodup_cons, List.map_cons]
    cases hseen : seen.lookup c.name with
    | some first => simp
    | none =>
      have hlookup (d : Container × Span) : ((c.name, place) :: seen).lookup d.1.name = none ↔
          d.1.name ≠ c.name ∧ seen.lookup d.1.name = none := by
        rw [List.lookup_cons]
        by_cases hname : d.1.name = c.name
        · simp [hname]
        · rw [beq_false_of_ne hname]
          simp only [ne_eq, hname, not_false_eq_true, true_and]
      simp only [Except.map_eq_ok_iff, ih, hlookup]
      constructor
      · rintro ⟨more, ⟨hdistinct, hfresh, rfl⟩, rfl⟩
        refine ⟨⟨fun hmem => ?_, hdistinct⟩, ⟨trivial, fun d hd => (hfresh d hd).2⟩, rfl⟩
        obtain ⟨d, hd, hname⟩ := List.mem_map.mp hmem
        exact (hfresh d hd).1 hname
      · rintro ⟨⟨hnew, hdistinct⟩, ⟨_, hfresh⟩, rfl⟩
        refine ⟨_, ⟨hdistinct, fun d hd => ⟨fun hname => hnew ?_, hfresh d hd⟩, rfl⟩, rfl⟩
        exact List.mem_map.mpr ⟨d, hd, hname⟩

end Scope

namespace Schema

variable {s : Schema} {t : AliasTable} {traits : List Trait} {containers : List Container}

/-- A schema has a model exactly if its aliases have distinct names and stand for primitive types, its items have a
scope, and no two containers of this scope share a full name. -/
theorem lower_eq_ok_iff : s.lower = ⟨t, traits, .ok containers⟩ ↔
    t.entries = Item.aliases s.body ∧ t.validate = .ok () ∧ ∃ scope, t.lowerItems [] s.body = .ok scope ∧
      Trait.firsts scope.traits = traits ∧ (scope.containers.map fun d => d.1.name).Nodup ∧
        scope.containers.map (fun d => d.1.assignId) = containers := by
  have hregister : AliasTable.registerAll .empty (Item.aliases s.body) = (t, .ok ()) ↔
      t.entries = Item.aliases s.body := AliasTable.registerAll_eq_ok_iff
  rw [← hregister, lower]
  cases AliasTable.registerAll .empty (Item.aliases s.body) with
  | mk t' registered =>
    cases registered with
    | error e => simp
    | ok u =>
      simp only [Prod.mk.injEq, and_true]
      constructor
      · intro h
        split at h
        · simp at h
        · rename_i scope hscope
          obtain ⟨_, hvalid, hitems⟩ := Except.bind_eq_ok_iff.mp hscope
          simp only [Lowered.mk.injEq, Scope.identify_eq_ok_iff] at h
          obtain ⟨rfl, htraits, hdistinct, _, hcontainers⟩ := h
          exact ⟨rfl, hvalid, scope, hitems, htraits, hdistinct, hcontainers⟩
      · rintro ⟨rfl, hvalid, scope, hitems, rfl, hdistinct, hcontainers⟩
        have hscope : s.scope t' = .ok scope := by
          rw [Schema.scope, hvalid]
          exact hitems
        have hids := Scope.identify_eq_ok_iff.mpr ⟨hdistinct, fun d _ => List.lookup_nil, hcontainers⟩
        simp only [hscope, hids]

theorem lower_result_eq_ok_iff : s.lower.result = .ok containers ↔
    ∃ (t : AliasTable) (scope : Scope), t.entries = Item.aliases s.body ∧ t.validate = .ok () ∧
      t.lowerItems [] s.body = .ok scope ∧ (scope.containers.map fun d => d.1.name).Nodup ∧
        scope.containers.map (fun d => d.1.assignId) = containers := by
  constructor
  · intro h
    have hlower : s.lower = ⟨s.lower.aliases, s.lower.traits, .ok containers⟩ := h ▸ rfl
    obtain ⟨hentries, hvalid, scope, hitems, _, hdistinct, hids⟩ := lower_eq_ok_iff.mp hlower
    exact ⟨_, scope, hentries, hvalid, hitems, hdistinct, hids⟩
  · rintro ⟨t, scope, hentries, hvalid, hitems, hdistinct, hids⟩
    rw [lower_eq_ok_iff.mpr ⟨hentries, hvalid, scope, hitems, rfl, hdistinct, hids⟩]

end Schema

/-- A source has the containers of its tree as its model, and the session keeps the aliases and traits of the tree. -/
theorem Session.compile_eq_ok_iff {session next : Session} {source : List Char} {m : Model} :
    session.compile source = (.ok m, next) ↔ ∃ tree, Schema.ofSource source = .ok tree ∧
      tree.lower = ⟨next.aliases, next.traits, .ok m.containers⟩ := by
  unfold compile
  cases Schema.ofSource source with
  | error e => simp
  | ok tree =>
    cases hlower : tree.lower with
    | mk aliases traits result =>
      simp only [lower_eq, hlower, Prod.mk.injEq, Except.mapError_eq_ok_iff, Except.map_eq_ok_iff]
      constructor
      · rintro ⟨⟨containers, rfl, rfl⟩, rfl⟩
        exact ⟨tree, rfl, hlower⟩
      · rintro ⟨tree', htree, h⟩
        cases htree
        rw [hlower] at h
        cases h
        exact ⟨⟨_, rfl, rfl⟩, rfl⟩

/-! ## A schema that has a model -/

namespace Schema

/-- An alias `Id` of a primitive type. -/
def idAlias : Alias :=
  ⟨⟨"Id", ⟨0, 0⟩⟩, .path ⟨[⟨"long", ⟨0, 0⟩⟩], ⟨0, 0⟩⟩, ⟨0, 0⟩⟩

/-- A declaration that uses the alias. -/
def user : Declaration :=
  let path (text : String) : TypePath := ⟨[⟨text, ⟨0, 0⟩⟩], ⟨0, 0⟩⟩
  ⟨path "user", path "User", [.property ⟨⟨"id", ⟨0, 0⟩⟩, false, .single (.path (path "Id")), ⟨0, 0⟩⟩], ⟨0, 0⟩⟩

/-- A namespace `app` of items. -/
def app (items : List Item) : Item :=
  .namespaceBlock ⟨"app", ⟨0, 0⟩⟩ items ⟨0, 0⟩

/-- The alias with the namespace of its use. -/
def users : Schema :=
  ⟨[.aliasDecl idAlias, app [.declaration user]], ⟨0, 0⟩⟩

theorem lower_users : ∃ c, users.lower.result = .ok [c] ∧ c.name = "app.user" := by
  let t : AliasTable := ⟨[idAlias], List.nodup_singleton _⟩
  have hlong : t.StandsFor idAlias.target (.ok (.primitive .long)) := .primitive rfl (by decide)
  have hid : t.resolve (.path ⟨[⟨"Id", ⟨0, 0⟩⟩], ⟨0, 0⟩⟩) = .ok (.primitive .long) :=
    AliasTable.resolve_eq_ok_iff.mpr (.followed rfl (by decide) rfl hlong)
  have hvalid : t.validate = .ok () := by
    rw [AliasTable.validate_eq_ok_iff]
    intro a ha
    obtain rfl := List.mem_singleton.mp ha
    exact .inl ⟨.long, AliasTable.resolve_eq_ok_iff.mpr hlong⟩
  let c := (Container.make "user" "User").withParams [(Param.ofShape "id" (.primitive .long)).setOptional false]
  have hdeclaration : t.lowerDeclaration [] user = .ok (c.withDoc []) := by
    simp only [AliasTable.lowerDeclaration, user, AliasTable.lowerBody, AliasTable.lowerProperty, AliasTable.shape, hid]
    rfl
  have hitems : t.lowerItems [] users.body = .ok ((Scope.enclose ⟨[(c, ⟨0, 0⟩)], []⟩ "app").append .empty) := by
    simp only [users, app, AliasTable.lowerItems, hdeclaration]
    rfl
  have haliases : t.entries = Item.aliases users.body := by simp [t, users, app, Item.aliases, Item.flatten]
  exact ⟨_, lower_result_eq_ok_iff.mpr ⟨t, _, haliases, hvalid, hitems, List.nodup_singleton _, rfl⟩, by decide⟩

end Schema

end SchemaWire
