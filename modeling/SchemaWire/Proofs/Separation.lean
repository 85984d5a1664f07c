import SchemaWire.Engine.Registry
import SchemaWire.Proofs.Dependence

/-!
# Schemas in two parts

Two lists of items that have models on their own have the models together that they have apart, one after the other, so
long as the parts share no names: nothing of the first part reaches the second one but its aliases, which the second
part does not use, and a comment that is left at its end (`lower_append`).
-/

namespace SchemaWire

namespace Item

variable {items rest : List Item} {a : Alias} {name : String}

/-- Whether a name without dots is written in items as a type name or before a size. -/
def Uses (items : List Item) (name : String) : Prop :=
  ∃ item ∈ flatten items, ∃ type ∈ item.typeNames, type.head? = some name

theorem flatten_append : flatten (items ++ rest) = flatten items ++ flatten rest := by
  induction items with
  | nil => simp [flatten]
  | cons item items ih => cases item <;> simp [flatten, ih]

theorem aliases_append : aliases (items ++ rest) = aliases items ++ aliases rest := by
  rw [aliases, flatten_append, List.filterMap_append]
  rfl

/-- What an alias leads to is used where the alias stands. -/
theorem uses_of_mem_aliases (ha : a ∈ aliases items) (hname : a.target.head? = some name) : Uses items name :=
  ⟨_, mem_aliases_iff.mp ha, _, List.mem_singleton_self _, hname⟩

end Item

namespace Scope

variable {s u w : Scope}

theorem append_assoc : (s.append u).append w = s.append (u.append w) := by
  simp [append]

end Scope

namespace AliasTable

variable {t u w : AliasTable} {pending : List String} {items rest : List Item}

/-- What a first item adds in front of a scope, it adds in front of two scopes together. -/
theorem prepend_append {α : Type} (x : Except LoweringError α) (f : α → Scope) (y z : Except LoweringError Scope) :
    (do return (f (← x)).append (← (do return (← y).append (← z)))) =
      (do return (← (do return (f (← x)).append (← y))).append (← z) : Except LoweringError Scope) := by
  cases x <;> cases y <;> cases z <;> simp [bind, Except.bind, pure, Except.pure, Scope.append_assoc]

/-- A list of items that does not end with a comment is lowered apart from what follows. -/
theorem lowerItems_append (hlast : ∀ c, items.getLast? ≠ some (.comment c)) (hpending : items = [] → pending = []) :
    t.lowerItems pending (items ++ rest) =
      do return (← t.lowerItems pending items).append (← t.lowerItems [] rest) := by
  have htail {item : Item} {items : List Item} (h : ∀ c, (item :: items).getLast? ≠ some (.comment c)) :
      ∀ c, items.getLast? ≠ some (.comment c) := by
    intro c hc
    apply h c
    rw [List.getLast?_cons, hc]
    rfl
  induction pending, items using lowerItems.induct with
  | case1 pending =>
    rw [hpending rfl, List.nil_append, lowerItems]
    cases t.lowerItems [] rest <;> rfl
  | case2 pending c items ih =>
    have hne : items ≠ [] := by
      rintro rfl
      exact hlast c rfl
    rw [List.cons_append, lowerItems, lowerItems]
    exact ih (htail hlast) fun h => absurd h hne
  | case3 pending d items ih =>
    rw [List.cons_append, lowerItems, lowerItems, ih (htail hlast) fun _ => rfl]
    exact prepend_append _ (fun c => ⟨[(c, d.ctor.span)], []⟩) _ _
  | case4 pending g items ih =>
    rw [List.cons_append, lowerItems, lowerItems, ih (htail hlast) fun _ => rfl]
    exact prepend_append _ (fun members => ⟨members, []⟩) _ _
  | case5 pending name body span items ihbody ih =>
    rw [List.cons_append, lowerItems, lowerItems, ih (htail hlast) fun _ => rfl]
    exact prepend_append _ (Scope.enclose · name.name) _ _
  | case6 pending d items ih =>
    rw [List.cons_append, lowerItems, lowerItems, ih (htail hlast) fun _ => rfl]
    exact prepend_append _ (fun declared => ⟨[], [declared]⟩) _ _
  | case7 pending a items ih =>
    rw [List.cons_append, lowerItems, lowerItems, ih (htail hlast) fun _ => rfl]

/-! ## Two tables together -/

theorem get?_of_entries_append (ht : t.entries = u.entries ++ w.entries) (name : String) :
    t.get? name = (u.get? name).or (w.get? name) := by
  rw [get?, ht, List.find?_append]
  rfl

/-- Items mean the same under a larger table, if they use none of the aliases that are new in it. -/
theorem resolve_of_unused (hu : u.entries = Item.aliases items)
    (hget : ∀ name, name ∉ w.names → t.get? name = u.get? name) (hunused : ∀ name ∈ w.names, ¬Item.Uses items name) :
    ∀ item ∈ Item.flatten items, ∀ type ∈ item.typeNames, t.resolve type = u.resolve type := by
  intro item hitem type htype
  refine resolve_congr (S := fun name => name ∉ w.names) hget ?_ ?_
  · intro name a next hname ha hnext hmem
    rw [hget name hname] at ha
    exact hunused next hmem (Item.uses_of_mem_aliases (hu ▸ mem_entries_of_get? ha) hnext)
  · intro name hname hmem
    exact hunused name hmem ⟨item, hitem, type, htype, hname⟩

/-- Aliases pass the check where they mean what they mean in a table that passes it. -/
theorem check_of_validate (hu : u.entries = Item.aliases items) (hvalid : u.validate = .ok ())
    (hresolve : ∀ item ∈ Item.flatten items, ∀ type ∈ item.typeNames, t.resolve type = u.resolve type) :
    ∀ a ∈ u.entries, t.check a = .ok () := by
  intro a ha
  have hcheck := Except.forM_eq_ok_iff.mp hvalid a ha
  rwa [check, hresolve _ (Item.mem_aliases_iff.mp (hu ▸ ha)) _ (List.mem_singleton_self _)]

end AliasTable

namespace Schema

/-- Lists of items that have models on their own have these models together, one after the other, if no alias of one
list is declared or used in the other, no full name occurs in both, and the first does not end with a comment. So the
models make the registry that the model of both lists makes. -/
theorem lower_append {first second : List Item} {span span' span'' : Span} {containers containers' : List Container}
    (h : (Schema.mk first span).lower.result = .ok containers)
    (h' : (Schema.mk second span').lower.result = .ok containers')
    (haliases : ∀ a ∈ Item.aliases first, ∀ b ∈ Item.aliases second, a.name.name ≠ b.name.name)
    (hunused : ∀ b ∈ Item.aliases second, ¬Item.Uses first b.name.name)
    (hunused' : ∀ a ∈ Item.aliases first, ¬Item.Uses second a.name.name)
    (hnames : ∀ c ∈ containers, ∀ d ∈ containers', c.name ≠ d.name)
    (hlast : ∀ c, first.getLast? ≠ some (.comment c)) :
    (Schema.mk (first ++ second) span'').lower.result = .ok (containers ++ containers') ∧
      ∀ config, Registry.ofModels [⟨containers⟩, ⟨containers'⟩] config =
        Registry.ofModels [⟨containers ++ containers'⟩] config := by
  refine ⟨?_, fun config => by simp [Registry.ofModels]⟩
  obtain ⟨u, scope, hu, hvalid, hitems, hdistinct, rfl⟩ := lower_result_eq_ok_iff.mp h
  obtain ⟨w, scope', hw, hvalid', hitems', hdistinct', rfl⟩ := lower_result_eq_ok_iff.mp h'
  -- The table of both lists knows what each table knows.
  have hnodup : ((u.entries ++ w.entries).map fun a => a.name.name).Nodup := by
    rw [List.map_append, List.nodup_append]
    refine ⟨u.distinct, w.distinct, ?_⟩
    simp only [List.forall_mem_map]
    exact hu ▸ hw ▸ haliases
  let t : AliasTable := ⟨u.entries ++ w.entries, hnodup⟩
  have hget := AliasTable.get?_of_entries_append (t := t) (u := u) (w := w) rfl
  have hfirst := AliasTable.resolve_of_unused (t := t) (w := w) hu
    (fun name hname => by rw [hget, AliasTable.get?_eq_none_iff.mpr hname, Option.or_none])
    (by simpa [AliasTable.names, hw] using hunused)
  have hsecond := AliasTable.resolve_of_unused (t := t) (w := u) hw
    (fun name hname => by rw [hget, AliasTable.get?_eq_none_iff.mpr hname, Option.none_or])
    (by simpa [AliasTable.names, hu] using hunused')
  refine lower_result_eq_ok_iff.mpr ⟨t, scope.append scope', ?_, ?_, ?_, ?_, ?_⟩
  · rw [Item.aliases_append, ← hu, ← hw]
  · refine Except.forM_eq_ok_iff.mpr (List.forall_mem_append.mpr ⟨?_, ?_⟩)
    · exact AliasTable.check_of_validate hu hvalid hfirst
    · exact AliasTable.check_of_validate hw hvalid' hsecond
  · rw [AliasTable.lowerItems_append hlast fun _ => rfl, AliasTable.lowerItems_congr hfirst,
      AliasTable.lowerItems_congr hsecond, hitems, hitems']
    rfl
  · rw [Scope.append, List.map_append, List.nodup_append]
    refine ⟨hdistinct, hdistinct', ?_⟩
    simp only [List.forall_mem_map] at hnames ⊢
    exact hnames
  · rw [Scope.append, List.map_append]

/-- An alias with the namespace of its use, and after them a container with a comment. -/
theorem lower_append_users :
    let path : TypePath := ⟨[⟨"post", ⟨0, 0⟩⟩], ⟨0, 0⟩⟩
    let posts : Schema := ⟨[.comment ⟨" A post", ⟨0, 0⟩⟩, .declaration ⟨path, path, [], ⟨0, 0⟩⟩], ⟨0, 0⟩⟩
    ∃ c d, users.lower.result = .ok [c] ∧ posts.lower.result = .ok [d] ∧
      (Schema.mk (users.body ++ posts.body) ⟨0, 0⟩).lower.result = .ok [c, d] := by
  intro path posts
  let post : Container := ((Container.make "post" "post").withParams []).withDoc (Docs.collect [] " A post")
  obtain ⟨user, huser, hname⟩ := lower_users
  have hpost : posts.lower.result = .ok [post.assignId] := by
    have haliases : AliasTable.empty.entries = Item.aliases posts.body := by
      simp [posts, AliasTable.empty, Item.aliases, Item.flatten]
    have hitems : AliasTable.empty.lowerItems [] posts.body = .ok ⟨[(post, ⟨0, 0⟩)], []⟩ := by
      simp only [posts, AliasTable.lowerItems]
      rfl
    exact lower_result_eq_ok_iff.mpr ⟨.empty, _, haliases, rfl, hitems, List.nodup_singleton _, rfl⟩
  refine ⟨_, _, huser, hpost, (lower_append huser hpost ?_ ?_ ?_ ?_ ?_).1⟩
  · intro a _ b hb
    simp [Item.aliases, Item.flatten] at hb
  · intro b hb
    simp [Item.aliases, Item.flatten] at hb
  · rintro a _ ⟨item, hitem, type, htype, _⟩
    simp [Item.flatten] at hitem
    rcases hitem with rfl | rfl <;> cases htype
  · intro c hc d hd
    obtain rfl := List.mem_singleton.mp hc
    obtain rfl := List.mem_singleton.mp hd
    rw [hname]
    exact (by decide : "app.user" ≠ "post")
  · intro c hc
    cases hc

end Schema

end SchemaWire
