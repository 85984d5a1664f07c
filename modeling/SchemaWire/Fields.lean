import SchemaWire.Keyed

/-!
# Ordered fields

A list of named entries in the order in which their names were first given. Giving a name again replaces
the entry and keeps its place, so a list built by `Keyed.insert` names nothing twice (`nodup_names_insert`).
-/

namespace SchemaWire

/-- Named entries, in order. -/
abbrev Fields (α : Type) := Keyed String α

namespace Fields

variable {α : Type}

/-- The names, in order. -/
def names (fields : Fields α) : List String :=
  fields.map Prod.fst

/-- The entry of a name. -/
def get? (fields : Fields α) (name : String) : Option α :=
  fields.lookup name

/-- The fields of a list of entries: each name at its first place, with its last entry. -/
def ofList (entries : List (String × α)) : Fields α :=
  entries.foldl (fun fields entry => fields.insert entry.1 entry.2) []

@[simp] theorem names_nil : names ([] : Fields α) = [] := rfl

@[simp] theorem names_cons (entry : String × α) (rest : Fields α) :
    names (entry :: rest) = entry.1 :: names rest := rfl

theorem mem_names_insert {name : String} {value : α} {fields : Fields α} {n : String} :
    n ∈ names (fields.insert name value) ↔ n = name ∨ n ∈ names fields := by
  induction fields with
  | nil => simp [Keyed.insert]
  | cons entry rest ih =>
    obtain ⟨m, v⟩ := entry
    simp only [Keyed.insert]
    split
    · rename_i h
      subst h
      simp
    · simp only [names_cons, List.mem_cons, ih]
      grind

theorem nodup_names_insert {name : String} {value : α} {fields : Fields α} (h : fields.names.Nodup) :
    (names (fields.insert name value)).Nodup := by
  induction fields with
  | nil => simp [Keyed.insert]
  | cons entry rest ih =>
    obtain ⟨m, v⟩ := entry
    simp only [names_cons, List.nodup_cons] at h
    simp only [Keyed.insert]
    split
    · simpa using h
    · rename_i hne
      simp only [names_cons, List.nodup_cons, mem_names_insert]
      exact ⟨by simp [h.1, hne], ih h.2⟩

end Fields

end SchemaWire
