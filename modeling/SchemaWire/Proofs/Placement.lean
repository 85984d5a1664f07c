import SchemaWire.Proofs.Dependence
import SchemaWire.Proofs.Erasure

/-!
# Where aliases stand

Aliases may stand anywhere in a schema: at its top or in any namespace, before or after their uses, in any order. Moving
them changes neither whether the schema has a model nor the model, but for the documentation of containers, from which
an alias cuts off the comments before it (`lower_of_aliasesMoved`).
-/

namespace SchemaWire

/-- The items without aliases, those in namespaces left out too. -/
def Item.withoutAliases : List Item → List Item
  | [] => []
  | .aliasDecl _ :: rest => withoutAliases rest
  | .namespaceBlock name body span :: rest => .namespaceBlock name (withoutAliases body) span :: withoutAliases rest
  | item :: rest => item :: withoutAliases rest

/-- Schemas that differ only in where their aliases stand, and in what order. -/
structure Schema.AliasesMoved (s s' : Schema) : Prop where
  items : Item.withoutAliases s.body = Item.withoutAliases s'.body
  aliases : (Item.aliases s.body).Perm (Item.aliases s'.body)

theorem Schema.AliasesMoved.symm {s s' : Schema} (h : s.AliasesMoved s') : s'.AliasesMoved s :=
  ⟨h.items.symm, h.aliases.symm⟩

namespace AliasTable

variable {t u : AliasTable}

/-! ## Documentation -/

theorem lowersAlike_withoutAliases (items : List Item) : t.LowersAlike id (Item.withoutAliases items) items := by
  induction items using Item.flatten.induct with
  | case1 =>
    simp only [Item.withoutAliases]
    exact .nil
  | case2 name body span rest ihbody ih =>
    simp only [Item.withoutAliases]
    exact .namespaceBlock name span ihbody ih
  | case3 item rest hnamespace ih =>
    cases item with
    | comment c =>
      simp only [Item.withoutAliases]
      exact .comment c (.symm (.comment c ih.symm))
    | namespaceBlock name body span => exact absurd rfl (hnamespace name body span)
    | typeGroup g =>
      simp only [Item.withoutAliases]
      exact .typeGroup g (fun _ => rfl) ih
    | aliasDecl a =>
      simp only [Item.withoutAliases]
      exact .symm (.aliasDecl a ih.symm)
    | traitDecl d =>
      simp only [Item.withoutAliases]
      exact .traitDecl d rfl ih
    | declaration d =>
      simp only [Item.withoutAliases]
      exact .declaration d rfl ih

/-- As far as documentation is no matter, items without their aliases have the scope of all items. -/
theorem lowerItems_withoutAliases (items : List Item) :
    (t.lowerItems [] (Item.withoutAliases items)).map (Scope.erase id) = (t.lowerItems [] items).map (Scope.erase id) :=
  (lowersAlike_withoutAliases items).erase_lowerItems Param.erases_id [] []

/-! ## Order -/

theorem get?_eq_some_iff {name : String} {a : Alias} : t.get? name = some a ↔ a ∈ t.entries ∧ a.name.name = name :=
  find?_eq_some_iff_of_nodup t.distinct

theorem get?_eq_of_perm (h : t.entries.Perm u.entries) (name : String) : t.get? name = u.get? name := by
  ext a
  rw [get?_eq_some_iff, get?_eq_some_iff, h.mem_iff]

theorem resolve_eq_of_perm (h : t.entries.Perm u.entries) (type : TypeName) : t.resolve type = u.resolve type :=
  resolve_congr (S := fun _ => True) (fun name _ => get?_eq_of_perm h name) (fun _ _ _ _ _ _ => trivial)
    fun _ _ => trivial

end AliasTable

namespace Schema

variable {s s' : Schema} {t : AliasTable} {traits : List Trait} {containers : List Container}

theorem exists_lower_of_aliasesMoved (h : s.AliasesMoved s') (hlower : s.lower = ⟨t, traits, .ok containers⟩) :
    ∃ t' containers', s'.lower = ⟨t', traits, .ok containers'⟩ ∧
      containers.map (·.withDoc []) = containers'.map (·.withDoc []) := by
  obtain ⟨hentries, hvalid, scope, hitems, htraits, hdistinct, hids⟩ := lower_eq_ok_iff.mp hlower
  -- The moved aliases make a table that gives every type name the same meaning.
  have hnodup : ((Item.aliases s'.body).map fun a => a.name.name).Nodup := by
    rw [← (h.aliases.map _).nodup_iff, ← hentries]
    exact t.distinct
  let t' : AliasTable := ⟨Item.aliases s'.body, hnodup⟩
  have hperm : t.entries.Perm t'.entries := hentries ▸ h.aliases
  have hresolve := AliasTable.resolve_eq_of_perm hperm
  have hvalid' : t'.validate = .ok () := by
    rw [AliasTable.validate_eq_ok_iff] at hvalid ⊢
    exact fun a ha => hresolve a.target ▸ hvalid a (hperm.mem_iff.mpr ha)
  have hwithout (items : List Item) : (t'.lowerItems [] (Item.withoutAliases items)).map (Scope.erase id) =
      (t'.lowerItems [] items).map (Scope.erase id) :=
    AliasTable.lowerItems_withoutAliases items
  have hscope : (t'.lowerItems [] s'.body).map (Scope.erase id) = .ok (scope.erase id) := by
    rw [← hwithout, ← h.items, hwithout, ← AliasTable.lowerItems_congr fun _ _ type _ => hresolve type, hitems]
    rfl
  obtain ⟨scope', hitems', hscope⟩ := Except.map_eq_ok_iff.mp hscope
  have hcontainers : scope'.containers.map (Scope.eraseAt id) = scope.containers.map (Scope.eraseAt id) :=
    congrArg Scope.containers hscope
  have htraits' : scope'.traits = scope.traits := by
    have herased := congrArg Scope.traits hscope
    rwa [Scope.traits_erase_id, Scope.traits_erase_id] at herased
  have hnames (declared : List (Container × Span)) :
      (declared.map fun d => d.1.name) = (declared.map (Scope.eraseAt id)).map fun d => d.1.name := by
    rw [List.map_map]
    rfl
  have hidentified (declared : List (Container × Span)) :
      (declared.map fun d => d.1.assignId).map (·.withDoc []) =
        (declared.map (Scope.eraseAt id)).map fun d => d.1.assignId := by
    rw [List.map_map, List.map_map]
    refine List.map_congr_left fun d _ => ?_
    rw [Function.comp_apply, Function.comp_apply, Scope.eraseAt_id]
    rfl
  refine ⟨t', _, lower_eq_ok_iff.mpr ⟨rfl, hvalid', scope', hitems', ?_, ?_, rfl⟩, ?_⟩
  · exact htraits ▸ congrArg Trait.firsts htraits'
  · rwa [hnames, hcontainers, ← hnames]
  · rw [← hids, hidentified, hidentified, hcontainers]

/-- Moving aliases to other places, in any order and into namespaces or out of them, decides nothing about whether a
schema has a model, and changes nothing in the traits and in the containers but the documentation of the latter. -/
theorem lower_of_aliasesMoved (h : s.AliasesMoved s') :
    ((∃ containers, s.lower.result = .ok containers) ↔ ∃ containers, s'.lower.result = .ok containers) ∧
      ∀ containers containers', s.lower.result = .ok containers → s'.lower.result = .ok containers' →
        containers.map (·.withDoc []) = containers'.map (·.withDoc []) ∧ s.lower.traits = s'.lower.traits := by
  have hone {s s' : Schema} (h : s.AliasesMoved s') {containers : List Container}
      (hs : s.lower.result = .ok containers) : ∃ containers', s'.lower.result = .ok containers' ∧
        containers.map (·.withDoc []) = containers'.map (·.withDoc []) ∧ s.lower.traits = s'.lower.traits := by
    have hlower : s.lower = ⟨s.lower.aliases, s.lower.traits, .ok containers⟩ := hs ▸ rfl
    obtain ⟨t', containers', hlower', hdocs⟩ := exists_lower_of_aliasesMoved h hlower
    exact ⟨containers', by rw [hlower'], hdocs, by rw [hlower']⟩
  refine ⟨⟨fun ⟨_, hs⟩ => ?_, fun ⟨_, hs⟩ => ?_⟩, fun containers containers' hs hs' => ?_⟩
  · obtain ⟨containers', hs', _⟩ := hone h hs
    exact ⟨containers', hs'⟩
  · obtain ⟨containers', hs', _⟩ := hone h.symm hs
    exact ⟨containers', hs'⟩
  · obtain ⟨other, hother, heq⟩ := hone h hs
    rw [hs', Except.ok.injEq] at hother
    exact hother ▸ heq

/-- An alias that is moved behind its use, into the namespace of this. -/
theorem lower_of_aliasesMoved_users :
    let moved : Schema := ⟨[app [.declaration user, .aliasDecl idAlias]], ⟨0, 0⟩⟩
    users.AliasesMoved moved ∧ ∃ c, moved.lower.result = .ok [c] ∧ c.name = "app.user" := by
  intro moved
  have hmoved : users.AliasesMoved moved :=
    ⟨by simp [users, moved, app, Item.withoutAliases], by simp [users, moved, app, Item.aliases, Item.flatten]⟩
  obtain ⟨c, hc, hname⟩ := lower_users
  obtain ⟨hmodels, hsame⟩ := lower_of_aliasesMoved hmoved
  obtain ⟨containers, hcontainers⟩ := hmodels.mp ⟨_, hc⟩
  obtain ⟨d, rfl, hd⟩ := List.map_eq_singleton_iff.mp (hsame _ _ hc hcontainers).1.symm
  have hnames := congrArg Container.name hd
  exact ⟨hmoved, d, hcontainers, hnames.trans hname⟩

end Schema

end SchemaWire
