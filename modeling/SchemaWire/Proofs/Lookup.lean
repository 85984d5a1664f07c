import SchemaWire.Engine.Registry
import SchemaWire.Proofs.Keys

/-!
# What a registry finds

A registry looks up positions. What it finds is what a search of its containers finds: the one container of a name
(`container?_eq`) or of an id (`containerOfId?_eq`), and the containers of a type in their order (`ofType_eq`). The ids of
a reference are those of the containers of this type and of those that implement this trait, each of them once, however
often a container lists the trait (`possibleIds_eq`).
-/

namespace SchemaWire

/-! ## Lists without repetitions -/

section EraseDups

variable {α β : Type} [BEq β] [LawfulBEq β]

/-- Repetitions may be erased before or after. -/
theorem eraseDups_filter (keep : β → Bool) (items : List β) :
    (items.filter keep).eraseDups = items.eraseDups.filter keep := by
  match items with
  | [] => rfl
  | b :: rest =>
    have ih := eraseDups_filter keep (rest.filter fun d => !d == b)
    rw [List.filter_filter] at ih
    rw [List.eraseDups_cons]
    by_cases hb : keep b = true
    · rw [List.filter_cons_of_pos hb, List.filter_cons_of_pos hb, List.eraseDups_cons, List.filter_filter, ← ih]
      simp only [Bool.and_comm]
    · rw [List.filter_cons_of_neg hb, List.filter_cons_of_neg hb, ← ih]
      refine congrArg _ (List.filter_congr fun d _ => ?_)
      by_cases hd : d = b
      · simp [hd, hb]
      · simp [hd]
termination_by items.length
decreasing_by exact Nat.lt_succ_of_le (List.length_filter_le _ _)

theorem eraseDups_append_congr (front : List β) {items others : List β} (h : items.eraseDups = others.eraseDups) :
    (front ++ items).eraseDups = (front ++ others).eraseDups := by
  simp only [List.eraseDups_append, List.removeAll, eraseDups_filter, h]

/-- It makes no difference how often an item comes that comes at all. -/
theorem eraseDups_flatMap_replicate (occurs : α → Nat) (f : α → β) (items : List α) :
    (items.flatMap fun a => List.replicate (occurs a) (f a)).eraseDups =
      ((items.filter (0 < occurs ·)).map f).eraseDups := by
  induction items with
  | nil => rfl
  | cons a rest ih =>
    rw [List.flatMap_cons]
    cases hoccurs : occurs a with
    | zero => rw [List.filter_cons_of_neg (by simp [hoccurs]), List.replicate_zero, List.nil_append, ih]
    | succ n =>
      rw [List.filter_cons_of_pos (by simp [hoccurs]), List.map_cons, List.replicate_succ, List.cons_append,
        List.eraseDups_cons, List.eraseDups_cons, List.filter_append, List.filter_replicate, if_neg (by simp),
        List.nil_append, eraseDups_filter, eraseDups_filter, ih]

end EraseDups

theorem flatMap_replicate_ite {α : Type} (keep : α → Prop) [DecidablePred keep] (items : List α) :
    (items.flatMap fun a => List.replicate (if keep a then 1 else 0) a) = items.filter (keep ·) := by
  induction items with
  | nil => rfl
  | cons a rest ih =>
    rw [List.flatMap_cons, ih]
    by_cases h : keep a
    · simp [h]
    · simp [h]

namespace Registry

variable {r : Registry} {reference : String}

/-! ## Single containers -/

theorem container?_eq (r : Registry) (name : String) : r.container? name = r.containers.find? (·.name == name) := by
  rw [container?, r.covers.byName, List.find?_eq_bind_findIdx?_getElem?]

theorem containerOfId?_eq (r : Registry) (id : UInt32) : r.containerOfId? id = r.containers.find? (·.id == id) := by
  rw [containerOfId?, r.covers.byId, List.find?_eq_bind_findIdx?_getElem?]

theorem container?_eq_some_iff {name : String} {c : Container} :
    r.container? name = some c ↔ c ∈ r.containers ∧ c.name = name := by
  rw [container?_eq]
  exact find?_eq_some_iff_of_nodup r.names_nodup

theorem containerOfId?_eq_some_iff {id : UInt32} {c : Container} :
    r.containerOfId? id = some c ↔ c ∈ r.containers ∧ c.id = id := by
  rw [containerOfId?_eq]
  exact find?_eq_some_iff_of_nodup r.ids_nodup

theorem container?_eq_none (h : ∀ c ∈ r.containers, c.name ≠ reference) : r.container? reference = none := by
  rw [container?_eq]
  exact List.find?_eq_none.mpr fun c hc => by simpa using h c hc

/-! ## Types and references -/

theorem ofType_eq (r : Registry) (typeName : String) :
    r.ofType typeName = r.containers.filter (·.typeName == typeName) := by
  rw [ofType, r.covers.byType, Index.filterMap_positions, flatMap_replicate_ite]
  rfl

theorem mem_ofType_iff {typeName : String} {c : Container} :
    c ∈ r.ofType typeName ↔ c ∈ r.containers ∧ c.typeName = typeName := by
  simp [ofType_eq]

theorem possibleIds_eq (r : Registry) (reference : String) :
    r.possibleIds reference =
      match r.containers.find? (·.name == reference) with
      | some c => [c.id]
      | none =>
        ((r.containers.filter (·.typeName == reference) ++ r.containers.filter (·.implements reference)).map
          Container.id).eraseDups := by
  rw [possibleIds, container?_eq]
  cases r.containers.find? (·.name == reference) with
  | some c => rfl
  | none =>
    have htype : ((r.index.byType.lookup reference).getD []).filterMap (r.containers[·]?) =
        r.containers.filter (·.typeName == reference) := r.ofType_eq reference
    have htrait : r.containers.filter (·.implements reference) =
        r.containers.filter (0 < ·.traits.count reference) := by
      refine List.filter_congr fun c _ => ?_
      rw [Container.implements, Bool.eq_iff_iff, List.contains_iff_mem, decide_eq_true_iff, List.count_pos_iff]
    simp only [List.filterMap_append, htype, r.covers.byTrait, Index.filterMap_positions, List.map_append, htrait]
    refine eraseDups_append_congr _ ?_
    rw [List.map_flatMap]
    simp only [List.map_replicate]
    exact eraseDups_flatMap_replicate ..

theorem possibleIds_of_name {c : Container} (hc : c ∈ r.containers) (h : c.name = reference) :
    r.possibleIds reference = [c.id] := by
  rw [possibleIds, container?_eq_some_iff.mpr ⟨hc, h⟩]

theorem possibleIds_of_ne (h : ∀ c ∈ r.containers, c.name ≠ reference) :
    r.possibleIds reference =
      ((r.containers.filter (·.typeName == reference) ++ r.containers.filter (·.implements reference)).map
        Container.id).eraseDups := by
  rw [possibleIds_eq, ← container?_eq, container?_eq_none h]

theorem mem_possibleIds_iff (h : ∀ c ∈ r.containers, c.name ≠ reference) {id : UInt32} :
    id ∈ r.possibleIds reference ↔
      ∃ c ∈ r.containers, (c.typeName = reference ∨ reference ∈ c.traits) ∧ c.id = id := by
  simp only [possibleIds_of_ne h, List.mem_eraseDups, List.mem_map, List.mem_append, List.mem_filter,
    Container.implements, List.contains_iff_mem, beq_iff_eq]
  grind

theorem nodup_possibleIds (reference : String) : (r.possibleIds reference).Nodup := by
  unfold possibleIds
  cases r.container? reference with
  | some c => exact List.nodup_singleton c.id
  | none => exact nodup_eraseDups _

end Registry

end SchemaWire
