import Mathlib.Data.List.Nodup
import SchemaWire.Fields

/-!
# Distinct keys

Where keys are distinct, an item is found by its key (`find?_eq_some_iff_of_nodup`). Building fields from entries keeps
the entries as they are exactly if no name comes twice (`ofList_eq_self_iff`).
-/

namespace SchemaWire

/-- Where keys are distinct, the first item of a key is the only one. -/
theorem find?_eq_some_iff_of_nodup {α β : Type} [DecidableEq β] {key : α → β} {items : List α}
    (h : (items.map key).Nodup) {k : β} {item : α} :
    items.find? (fun a => key a == k) = some item ↔ item ∈ items ∧ key item = k := by
  constructor
  · intro hfind
    exact ⟨List.mem_of_find?_eq_some hfind, by simpa using List.find?_some hfind⟩
  · rintro ⟨hmem, rfl⟩
    cases hfind : items.find? (fun a => key a == key item) with
    | none => exact absurd (List.find?_eq_none.mp hfind item hmem) (by simp)
    | some other =>
      have hkey : key other = key item := by simpa using List.find?_some hfind
      rw [List.inj_on_of_nodup_map h (List.mem_of_find?_eq_some hfind) hmem hkey]

/-- Where repetitions are erased, no item is left twice. -/
theorem nodup_eraseDups {α : Type} [BEq α] [LawfulBEq α] (items : List α) : items.eraseDups.Nodup := by
  match items with
  | [] => exact List.nodup_nil
  | a :: rest =>
    rw [List.eraseDups_cons, List.nodup_cons]
    exact ⟨by simp [List.mem_eraseDups], nodup_eraseDups _⟩
termination_by items.length
decreasing_by exact Nat.lt_succ_of_le (List.length_filter_le _ _)

end SchemaWire

namespace SchemaWire.Fields

variable {α : Type} {fields entries : Fields α} {name : String} {value : α}

theorem insert_of_not_mem (h : name ∉ fields.names) : fields.insert name value = fields ++ [(name, value)] := by
  induction fields with
  | nil => rfl
  | cons entry rest ih =>
    simp only [names_cons, List.mem_cons, not_or] at h
    rw [Keyed.insert, if_neg (Ne.symm h.1), ih h.2, List.cons_append]

/-- Inserting entries one after the other appends them, as long as their names are new. -/
theorem foldl_insert_of_nodup (h : names (fields ++ entries) |>.Nodup) :
    entries.foldl (fun fields entry => fields.insert entry.1 entry.2) fields = fields ++ entries := by
  induction entries generalizing fields with
  | nil => simp
  | cons entry rest ih =>
    have hnew : entry.1 ∉ fields.names := by
      intro hmem
      rw [names, List.map_append, List.nodup_append] at h
      exact h.2.2 _ hmem _ (by simp) rfl
    rw [List.foldl_cons, insert_of_not_mem hnew, ih (by simpa using h), List.append_assoc, List.singleton_append]

theorem mem_insert {entry : String × α} (h : entry ∈ fields.insert name value) :
    entry = (name, value) ∨ entry ∈ fields := by
  induction fields with
  | nil => exact .inl (List.mem_singleton.mp h)
  | cons first rest ih =>
    obtain ⟨n, v⟩ := first
    rw [Keyed.insert] at h
    split at h
    · rename_i hname
      rw [hname] at h
      rcases List.mem_cons.mp h with rfl | h
      · exact .inl rfl
      · exact .inr (List.mem_cons_of_mem _ h)
    · rcases List.mem_cons.mp h with rfl | h
      · exact .inr List.mem_cons_self
      · exact (ih h).imp_right (List.mem_cons_of_mem _)

theorem mem_foldl_insert {entry : String × α}
    (h : entry ∈ entries.foldl (fun fields entry => fields.insert entry.1 entry.2) fields) :
    entry ∈ fields ∨ entry ∈ entries := by
  induction entries generalizing fields with
  | nil => exact .inl h
  | cons first rest ih =>
    rcases ih h with h | h
    · rcases mem_insert h with rfl | h
      · exact .inr List.mem_cons_self
      · exact .inl h
    · exact .inr (List.mem_cons_of_mem _ h)

/-- Fields are built of nothing but the entries. -/
theorem mem_of_mem_ofList {entry : String × α} (h : entry ∈ ofList entries) : entry ∈ entries :=
  (mem_foldl_insert h).resolve_left List.not_mem_nil

theorem nodup_names_foldl_insert (h : fields.names.Nodup) :
    (entries.foldl (fun fields entry => fields.insert entry.1 entry.2) fields).names.Nodup := by
  induction entries generalizing fields with
  | nil => exact h
  | cons entry rest ih => exact ih (nodup_names_insert h)

theorem nodup_names_ofList (entries : Fields α) : (ofList entries).names.Nodup :=
  nodup_names_foldl_insert List.nodup_nil

theorem ofList_eq_self_iff : ofList entries = entries ↔ entries.names.Nodup := by
  constructor
  · intro h
    rw [← h]
    exact nodup_names_ofList entries
  · intro h
    exact foldl_insert_of_nodup (by simpa using h)

theorem get?_of_mem (h : fields.names.Nodup) (hmem : (name, value) ∈ fields) : fields.get? name = some value := by
  induction fields with
  | nil => cases hmem
  | cons entry rest ih =>
    simp only [names_cons, List.nodup_cons] at h
    rw [get?, List.lookup_cons]
    rcases List.mem_cons.mp hmem with rfl | hmem
    · simp
    · have hne : name ≠ entry.1 := by
        rintro rfl
        exact h.1 (List.mem_map.mpr ⟨_, hmem, rfl⟩)
      rw [beq_false_of_ne hne]
      exact ih h.2 hmem

theorem get?_of_not_mem (h : name ∉ fields.names) : fields.get? name = none := by
  rw [get?, List.lookup_eq_none_iff]
  intro entry hmem
  simp only [bne_iff_ne]
  rintro rfl
  exact h (List.mem_map_of_mem hmem)

theorem get?_eq_some_iff (h : fields.names.Nodup) : fields.get? name = some value ↔ (name, value) ∈ fields := by
  constructor
  · intro hget
    obtain ⟨before, after, rfl, _⟩ := List.lookup_eq_some_iff.mp hget
    exact List.mem_append_right before List.mem_cons_self
  · exact get?_of_mem h

theorem get?_eq_of_perm {others : Fields α} (hnames : fields.names.Nodup) (h : fields.Perm others) (name : String) :
    fields.get? name = others.get? name := by
  have hothers : others.names.Nodup := (h.map Prod.fst).nodup_iff.mp hnames
  refine Option.ext fun value => ?_
  rw [get?_eq_some_iff hnames, get?_eq_some_iff hothers]
  exact h.mem_iff

theorem get?_cons (n : String) (a : α) (rest : Fields α) (name : String) :
    get? ((n, a) :: rest) name = if name = n then some a else rest.get? name := by
  rw [get?, List.lookup_cons]
  split <;> simp_all [get?]

theorem get?_append (first second : Fields α) (name : String) :
    get? (first ++ second) name = (first.get? name).or (second.get? name) :=
  List.lookup_append

end SchemaWire.Fields
