import SchemaWire.Engine.Config
import SchemaWire.Engine.Index

/-!
# Registries

A registry holds the containers that an engine encodes and decodes, of any number of models together, and finds them
through an index of their positions. There is a registry of a list exactly if no two of its containers share a name or
an id (`Registry.exists_ofContainers_iff`).
-/

namespace SchemaWire

/-- Containers with the index of their positions, and the settings to use them with. -/
structure Registry where
  containers : List Container
  index : Index
  config : Config
  indexed : Index.ofContainers containers = .ok index

namespace Registry

/-- The registry of a list of containers. -/
def ofContainers (containers : List Container) (config : Config) : Except EngineError Registry :=
  match h : Index.ofContainers containers with
  | .error e => .error e
  | .ok index => .ok ⟨containers, index, config, h⟩

/-- The registry of several models together. -/
def ofModels (models : List Model) (config : Config) : Except EngineError Registry :=
  ofContainers (models.flatMap Model.containers) config

/-- The container of a name. -/
def container? (r : Registry) (name : String) : Option Container :=
  (r.index.byName.lookup name).bind (r.containers[·]?)

/-- The container of an id. -/
def containerOfId? (r : Registry) (id : UInt32) : Option Container :=
  (r.index.byId.lookup id).bind (r.containers[·]?)

/-- The containers of a type. -/
def ofType (r : Registry) (typeName : String) : List Container :=
  ((r.index.byType.lookup typeName).getD []).filterMap (r.containers[·]?)

/-- The ids that a reference may lead to: that of the container of this name, or else those of the
containers of this type and then those of the containers with this trait, none of them twice. -/
def possibleIds (r : Registry) (reference : String) : List UInt32 :=
  match r.container? reference with
  | some c => [c.id]
  | none =>
    let positions := (r.index.byType.lookup reference).getD [] ++ (r.index.byTrait.lookup reference).getD []
    ((positions.filterMap (r.containers[·]?)).map Container.id).eraseDups

/-! ## Which lists have a registry -/

variable {r : Registry} {containers : List Container} {config : Config}

theorem ofContainers_eq_ok_iff :
    ofContainers containers config = .ok r ↔ r.containers = containers ∧ r.config = config := by
  obtain ⟨listed, index, settings, hindexed⟩ := r
  unfold ofContainers
  split
  · rename_i h
    refine iff_of_false nofun ?_
    rintro ⟨rfl, -⟩
    rw [h] at hindexed
    cases hindexed
  · rename_i h
    constructor
    · intro heq
      cases heq
      exact ⟨rfl, rfl⟩
    · rintro ⟨rfl, rfl⟩
      rw [h] at hindexed
      cases hindexed
      rfl

/-- The registry of containers that share neither names nor ids. -/
def ofNodup (containers : List Container) (config : Config) (hnames : (containers.map Container.name).Nodup)
    (hids : (containers.map Container.id).Nodup) : Registry :=
  match h : Index.ofContainers containers with
  | .ok index => ⟨containers, index, config, h⟩
  | .error _ => absurd ⟨hnames, hids⟩ (Index.clashes_of_ofContainers h).not_nodup

@[simp] theorem containers_ofNodup (hnames : (containers.map Container.name).Nodup)
    (hids : (containers.map Container.id).Nodup) : (ofNodup containers config hnames hids).containers = containers := by
  unfold ofNodup
  split
  · rfl
  · rename_i h
    exact absurd ⟨hnames, hids⟩ (Index.clashes_of_ofContainers h).not_nodup

@[simp] theorem config_ofNodup (hnames : (containers.map Container.name).Nodup)
    (hids : (containers.map Container.id).Nodup) : (ofNodup containers config hnames hids).config = config := by
  unfold ofNodup
  split
  · rfl
  · rename_i h
    exact absurd ⟨hnames, hids⟩ (Index.clashes_of_ofContainers h).not_nodup

theorem ofContainers_ofNodup (hnames : (containers.map Container.name).Nodup)
    (hids : (containers.map Container.id).Nodup) :
    ofContainers containers config = .ok (ofNodup containers config hnames hids) :=
  ofContainers_eq_ok_iff.mpr ⟨containers_ofNodup hnames hids, config_ofNodup hnames hids⟩

theorem exists_ofContainers_iff :
    (∃ r, ofContainers containers config = .ok r) ↔
      (containers.map Container.name).Nodup ∧ (containers.map Container.id).Nodup := by
  constructor
  · rintro ⟨r, hr⟩
    obtain ⟨rfl, -⟩ := ofContainers_eq_ok_iff.mp hr
    exact Index.exists_ofContainers_iff.mp ⟨r.index, r.indexed⟩
  · rintro ⟨hnames, hids⟩
    exact ⟨_, ofContainers_ofNodup hnames hids⟩

theorem covers (r : Registry) : r.index.Covers r.containers :=
  Index.covers_of_ofContainers r.indexed

theorem names_nodup (r : Registry) : (r.containers.map Container.name).Nodup :=
  r.covers.names_nodup

theorem ids_nodup (r : Registry) : (r.containers.map Container.id).Nodup :=
  r.covers.ids_nodup

end Registry

end SchemaWire
