import SchemaWire.Engine.Error
import SchemaWire.Keyed
import SchemaWire.Model.Container

/-!
# Positions by name, by id, by type and by trait

An index says at which positions of a list there are containers of a name, of an id, of a type and with a trait. It is
made in one pass over the list, which ends at the first container that has the name or the id of an earlier one. A
container that lists a trait more than once is put under it as often.

`Index.Covers` is what the pass keeps: after some of the containers, the maps tell where each of them is, and no two of
them share a name or an id. So the pass ends well exactly if all names are distinct and all ids are
(`Index.exists_ofContainers_iff`).
-/

namespace SchemaWire

/-- The positions of containers in a list. -/
structure Index where
  byName : Keyed String Nat := []
  byId : Keyed UInt32 Nat := []
  byType : Keyed String (List Nat) := []
  byTrait : Keyed String (List Nat) := []

namespace Index

/-- Adds the container `c`, which is at position `i` of the list. -/
def add (containers : List Container) (x : Index) (c : Container) (i : Nat) : Except EngineError Index :=
  match x.byName.lookup c.name with
  | some _ => .error (.duplicateName c.name)
  | none =>
    match x.byId.lookup c.id with
    | some first => .error (.duplicateId c.id (containers[first]?.elim "" Container.name) c.name)
    | none =>
      .ok
        { byName := x.byName.insert c.name i
          byId := x.byId.insert c.id i
          byType := x.byType.push c.typeName i
          byTrait := c.traits.foldl (fun byTrait name => byTrait.push name i) x.byTrait }

/-- Adds the containers from position `i` of the list on, one after the other. -/
def addAll (containers : List Container) (x : Index) (i : Nat) : List Container → Except EngineError Index
  | [] => .ok x
  | c :: rest => do
    let y ← x.add containers c i
    addAll containers y (i + 1) rest

/-- The index of a list of containers. -/
def ofContainers (containers : List Container) : Except EngineError Index :=
  addAll containers {} 0 containers

/-! ## What the maps hold -/

/-- The positions of containers, each as often as `occurs` says. -/
def positions (occurs : Container → Nat) (containers : List Container) : List Nat :=
  containers.zipIdx.flatMap fun (c, i) => List.replicate (occurs c) i

/-- The maps tell where the containers `seen` are, and of these no two share a name or an id. -/
structure Covers (x : Index) (seen : List Container) : Prop where
  names_nodup : (seen.map Container.name).Nodup
  ids_nodup : (seen.map Container.id).Nodup
  byName : ∀ name, x.byName.lookup name = seen.findIdx? (·.name == name)
  byId : ∀ id, x.byId.lookup id = seen.findIdx? (·.id == id)
  byType : ∀ typeName, (x.byType.lookup typeName).getD [] =
    positions (fun c => if c.typeName = typeName then 1 else 0) seen
  byTrait : ∀ name, (x.byTrait.lookup name).getD [] = positions (·.traits.count name) seen

/-- The first container that shares something with an earlier one, as an error. Of both faults at one container the name
counts. -/
def Clashes (containers : List Container) (e : EngineError) : Prop :=
  ∃ seen c rest, containers = seen ++ c :: rest ∧ (seen.map Container.name).Nodup ∧ (seen.map Container.id).Nodup ∧
    (c.name ∈ seen.map Container.name ∧ e = .duplicateName c.name ∨
      c.name ∉ seen.map Container.name ∧ ∃ first ∈ seen, first.id = c.id ∧ e = .duplicateId c.id first.name c.name)

theorem Clashes.not_nodup {containers : List Container} {e : EngineError} (h : Clashes containers e) :
    ¬((containers.map Container.name).Nodup ∧ (containers.map Container.id).Nodup) := by
  obtain ⟨seen, c, rest, rfl, -, -, hclash⟩ := h
  rintro ⟨hnames, hids⟩
  rw [List.map_append, List.map_cons, List.nodup_append] at hnames hids
  rcases hclash with ⟨hname, -⟩ | ⟨-, first, hfirst, hid, -⟩
  · exact hnames.2.2 _ hname _ List.mem_cons_self rfl
  · exact hids.2.2 _ (List.mem_map_of_mem hfirst) _ List.mem_cons_self hid

theorem positions_snoc (occurs : Container → Nat) (seen : List Container) (c : Container) :
    positions occurs (seen ++ [c]) = positions occurs seen ++ List.replicate (occurs c) seen.length := by
  simp [positions, List.zipIdx_append]

/-- Each position in a list of positions is that of its container. -/
theorem filterMap_positions (occurs : Container → Nat) (containers : List Container) :
    (positions occurs containers).filterMap (containers[·]?) =
      containers.flatMap fun c => List.replicate (occurs c) c := by
  have hplace : ∀ p ∈ containers.zipIdx, (List.replicate (occurs p.1) p.2).filterMap (containers[·]?) =
      List.replicate (occurs p.1) p.1 := by
    intro p hp
    rw [List.filterMap_replicate, List.mem_zipIdx_iff_getElem?.mp hp]
  calc (positions occurs containers).filterMap (containers[·]?)
    _ = containers.zipIdx.flatMap fun p => (List.replicate (occurs p.1) p.2).filterMap (containers[·]?) :=
      List.filterMap_flatMap ..
    _ = containers.zipIdx.flatMap fun p => List.replicate (occurs p.1) p.1 := by
      rw [List.flatMap_def, List.flatMap_def, List.map_congr_left hplace]
    _ = (containers.zipIdx.map Prod.fst).flatMap fun c => List.replicate (occurs c) c := by rw [List.flatMap_map]
    _ = containers.flatMap fun c => List.replicate (occurs c) c := by rw [List.zipIdx_map_fst]

/-! ## One container more -/

theorem covers_nil : Covers {} [] where
  names_nodup := List.nodup_nil
  ids_nodup := List.nodup_nil
  byName _ := rfl
  byId _ := rfl
  byType _ := rfl
  byTrait _ := rfl

theorem getD_lookup_foldl_push (traits : List String) (i : Nat) (m : Keyed String (List Nat)) (name : String) :
    ((traits.foldl (fun m name => m.push name i) m).lookup name).getD [] =
      (m.lookup name).getD [] ++ List.replicate (traits.count name) i := by
  induction traits generalizing m with
  | nil => simp
  | cons first rest ih =>
    rw [List.foldl_cons, ih, Keyed.getD_lookup_push, List.append_assoc, List.count_cons]
    by_cases h : name = first
    · subst h
      simp [← List.replicate_succ]
    · simp [h, Ne.symm h]

section Keys

variable {κ : Type} {key : Container → κ} {seen : List Container} {c : Container}

theorem nodup_map_snoc (hnodup : (seen.map key).Nodup) (hfresh : key c ∉ seen.map key) :
    ((seen ++ [c]).map key).Nodup := by
  rw [List.map_append, List.map_singleton, List.nodup_append]
  refine ⟨hnodup, by simp, ?_⟩
  rintro _ hmem _ hlast rfl
  exact hfresh (List.mem_singleton.mp hlast ▸ hmem)

variable [DecidableEq κ]

theorem findIdx?_eq_none_of_fresh (hfresh : key c ∉ seen.map key) : seen.findIdx? (key · == key c) = none := by
  rw [List.findIdx?_eq_none_iff]
  intro d hd
  exact beq_eq_false_iff_ne.mpr fun e => hfresh (e ▸ List.mem_map_of_mem hd)

theorem findIdx?_snoc (hfresh : key c ∉ seen.map key) (k : κ) :
    (seen ++ [c]).findIdx? (key · == k) = if k = key c then some seen.length else seen.findIdx? (key · == k) := by
  rw [List.findIdx?_append]
  split
  · rename_i h
    rw [h, findIdx?_eq_none_of_fresh hfresh]
    simp [List.findIdx?_cons]
  · rename_i h
    simp [List.findIdx?_cons, Ne.symm h]

end Keys

namespace Covers

variable {x : Index} {seen : List Container} {c : Container} (h : x.Covers seen) (containers : List Container)

include h

/-- A container that shares nothing with those before it is added. -/
theorem add_eq_ok (hname : c.name ∉ seen.map Container.name) (hid : c.id ∉ seen.map Container.id) :
    ∃ y, x.add containers c seen.length = .ok y ∧ y.Covers (seen ++ [c]) := by
  have hnoname : x.byName.lookup c.name = none := (h.byName _).trans (findIdx?_eq_none_of_fresh hname)
  have hnoid : x.byId.lookup c.id = none := (h.byId _).trans (findIdx?_eq_none_of_fresh hid)
  rw [add, hnoname, hnoid]
  refine ⟨_, rfl, ?_⟩
  constructor
  case names_nodup => exact nodup_map_snoc h.names_nodup hname
  case ids_nodup => exact nodup_map_snoc h.ids_nodup hid
  case byName =>
    intro name
    rw [Keyed.lookup_insert, findIdx?_snoc hname, h.byName]
  case byId =>
    intro id
    rw [Keyed.lookup_insert, findIdx?_snoc hid, h.byId]
  case byType =>
    intro typeName
    rw [Keyed.getD_lookup_push, h.byType, positions_snoc]
    by_cases hc : typeName = c.typeName
    · simp [hc]
    · simp [hc, Ne.symm hc]
  case byTrait =>
    intro name
    rw [getD_lookup_foldl_push, h.byTrait, positions_snoc]

/-- A container with the name of an earlier one is refused. -/
theorem add_eq_error_of_name (hname : c.name ∈ seen.map Container.name) (i : Nat) :
    x.add containers c i = .error (.duplicateName c.name) := by
  obtain ⟨first, hfirst, heq⟩ := List.mem_map.mp hname
  cases hlookup : x.byName.lookup c.name with
  | none =>
    rw [h.byName, List.findIdx?_eq_none_iff] at hlookup
    exact absurd heq (beq_eq_false_iff_ne.mp (hlookup first hfirst))
  | some _ => rw [add, hlookup]

/-- A container with the id of an earlier one is refused, and the earlier one is named. -/
theorem add_eq_error_of_id (hseen : seen <+: containers) (hname : c.name ∉ seen.map Container.name)
    (hid : c.id ∈ seen.map Container.id) (i : Nat) :
    ∃ first ∈ seen, first.id = c.id ∧ x.add containers c i = .error (.duplicateId c.id first.name c.name) := by
  have hnoname : x.byName.lookup c.name = none := (h.byName _).trans (findIdx?_eq_none_of_fresh hname)
  cases hlookup : x.byId.lookup c.id with
  | none =>
    obtain ⟨first, hfirst, heq⟩ := List.mem_map.mp hid
    rw [h.byId, List.findIdx?_eq_none_iff] at hlookup
    exact absurd heq (beq_eq_false_iff_ne.mp (hlookup first hfirst))
  | some place =>
    obtain ⟨hlt, hfound, -⟩ := List.findIdx?_eq_some_iff_getElem.mp ((h.byId _).symm.trans hlookup)
    have hthere : containers[place]? = some seen[place] :=
      List.getElem?_eq_some_iff.mpr ⟨Nat.lt_of_lt_of_le hlt hseen.length_le, (hseen.getElem hlt).symm⟩
    refine ⟨seen[place], List.getElem_mem hlt, beq_iff_eq.mp hfound, ?_⟩
    simp only [add, hnoname, hlookup, hthere, Option.elim_some]

end Covers

/-! ## The whole list -/

/-- After a part of the list, the pass over the rest ends with maps that cover it all, or at the first clash. -/
theorem addAll_cases {x : Index} {seen rest containers : List Container} (h : x.Covers seen)
    (hall : seen ++ rest = containers) :
    (∃ y, addAll containers x seen.length rest = .ok y ∧ y.Covers containers) ∨
      ∃ e, addAll containers x seen.length rest = .error e ∧ Clashes containers e := by
  induction rest generalizing x seen with
  | nil => exact .inl ⟨x, rfl, by rwa [← hall, List.append_nil]⟩
  | cons c rest ih =>
    rw [addAll]
    by_cases hname : c.name ∈ seen.map Container.name
    · refine .inr ⟨.duplicateName c.name, ?_, seen, c, rest, hall.symm, h.names_nodup, h.ids_nodup, .inl ⟨hname, rfl⟩⟩
      rw [h.add_eq_error_of_name containers hname]
      rfl
    by_cases hid : c.id ∈ seen.map Container.id
    · obtain ⟨first, hfirst, hsame, hadd⟩ :=
        h.add_eq_error_of_id containers ⟨c :: rest, hall⟩ hname hid seen.length
      refine .inr ⟨_, ?_, seen, c, rest, hall.symm, h.names_nodup, h.ids_nodup, .inr ⟨hname, first, hfirst, hsame, rfl⟩⟩
      rw [hadd]
      rfl
    · obtain ⟨y, hadd, hy⟩ := h.add_eq_ok containers hname hid
      rw [hadd]
      have hrest := ih hy (by rw [List.append_assoc, List.singleton_append, hall])
      rwa [List.length_append, List.length_singleton] at hrest

/-- The index of a list covers it. If there is none, the error tells the first clash. -/
theorem ofContainers_cases (containers : List Container) :
    (∃ x, ofContainers containers = .ok x ∧ x.Covers containers) ∨
      ∃ e, ofContainers containers = .error e ∧ Clashes containers e :=
  addAll_cases covers_nil rfl

theorem covers_of_ofContainers {containers : List Container} {x : Index} (h : ofContainers containers = .ok x) :
    x.Covers containers := by
  rcases ofContainers_cases containers with ⟨y, hy, hcovers⟩ | ⟨e, he, -⟩
  · rw [h] at hy
    cases hy
    exact hcovers
  · rw [h] at he
    cases he

theorem clashes_of_ofContainers {containers : List Container} {e : EngineError}
    (h : ofContainers containers = .error e) : Clashes containers e := by
  rcases ofContainers_cases containers with ⟨y, hy, -⟩ | ⟨e', he, hclash⟩
  · rw [h] at hy
    cases hy
  · rw [h] at he
    cases he
    exact hclash

theorem exists_ofContainers_iff {containers : List Container} :
    (∃ x, ofContainers containers = .ok x) ↔
      (containers.map Container.name).Nodup ∧ (containers.map Container.id).Nodup := by
  constructor
  · rintro ⟨x, hx⟩
    have hcovers := covers_of_ofContainers hx
    exact ⟨hcovers.names_nodup, hcovers.ids_nodup⟩
  · intro hnodup
    rcases ofContainers_cases containers with ⟨x, hx, -⟩ | ⟨e, -, hclash⟩
    · exact ⟨x, hx⟩
    · exact absurd hnodup hclash.not_nodup

end Index

end SchemaWire
