import SchemaWire.Json

/-!
# Reading typed data from JSON

A record is an object with its fields in any order, others being ignored, or an array of its fields in
their own order, of which the last may be missing. A variant is an object with one field, named for the
variant, or its bare name.
-/

namespace SchemaWire.Json

/-- The text of a string. -/
def string? : Json → Option String
  | .string s => some s
  | _ => none

/-- The value of a truth value. -/
def bool? : Json → Option Bool
  | .bool b => some b
  | _ => none

/-- A natural number, whatever its size. -/
def nat? : Json → Option Nat
  | .number (.int (.ofNat n)) => some n
  | _ => none

/-- A natural number of 32 bits. -/
def uint32? (j : Json) : Option UInt32 :=
  j.nat?.bind fun n => if n < UInt32.size then some (UInt32.ofNat n) else none

/-- A natural number of 64 bits. -/
def uint64? (j : Json) : Option UInt64 :=
  j.nat?.bind fun n => if n < UInt64.size then some (UInt64.ofNat n) else none

/-- The items of an array, each read by `f`. -/
def listOf? {α : Type} (f : Json → Option α) : Json → Option (List α)
  | .array items => items.mapM f
  | _ => none

/-- The strings of an array. -/
def strings? : Json → Option (List String) :=
  listOf? string?

/-- The fields of a record, in the order of `names`. A missing one is `none`. -/
def record? (names : List String) : Json → Option (List (Option Json))
  | .object fields => some (names.map (Fields.get? fields))
  | .array items =>
    if items.length ≤ names.length then
      some (items.map some ++ List.replicate (names.length - items.length) none)
    else none
  | _ => none

/-- The name of a variant and what it holds. -/
def variant? : Json → Option (String × Option Json)
  | .string name => some (name, none)
  | .object [(name, value)] => some (name, some value)
  | _ => none

/-- A field that has to be there. -/
def required? {α : Type} (f : Json → Option α) : Option Json → Option α
  | some j => f j
  | none => none

/-- A field that is `default` when it is missing. -/
def orDefault? {α : Type} (default : α) (f : Json → Option α) : Option Json → Option α
  | some j => f j
  | none => some default

/-- A field that may be missing or `null`. -/
def nullable? {α : Type} (f : Json → Option α) : Option Json → Option (Option α)
  | none => some none
  | some .null => some none
  | some j => (f j).map some

/-! ## Forms that are read back -/

section Forms

variable {α : Type} {f : Json → Option α} {g : α → Json}

@[simp] theorem record?_object (names : List String) (fields : Fields Json) :
    (object fields).record? names = some (names.map fields.get?) := rfl

@[simp] theorem variant?_object (name : String) (value : Json) :
    (object [(name, value)]).variant? = some (name, some value) := rfl

@[simp] theorem required?_some (j : Json) : required? f (some j) = f j := rfl

@[simp] theorem orDefault?_some (default : α) (j : Json) : orDefault? default f (some j) = f j := rfl

@[simp] theorem string?_string (s : String) : (Json.string s).string? = some s := rfl

@[simp] theorem nat?_ofNat (n : Nat) : (ofNat n).nat? = some n := rfl

@[simp] theorem uint32?_ofNat (n : UInt32) : (ofNat n.toNat).uint32? = some n := by
  have hlt : n.toNat < UInt32.size := n.toNat_lt
  simp [uint32?, hlt]

@[simp] theorem uint64?_ofNat (n : UInt64) : (ofNat n.toNat).uint64? = some n := by
  have hlt : n.toNat < UInt64.size := n.toNat_lt
  simp [uint64?, hlt]

theorem mapM_map_eq_some {β γ : Type} {f : β → Option γ} {g : α → β} {k : α → γ} {items : List α}
    (h : ∀ a ∈ items, f (g a) = some (k a)) : (items.map g).mapM f = some (items.map k) := by
  induction items with
  | nil => rfl
  | cons a rest ih =>
    rw [List.forall_mem_cons] at h
    rw [List.map_cons, List.mapM_cons, h.1, ih h.2]
    rfl

theorem listOf?_map (items : List α) (h : ∀ a ∈ items, f (g a) = some a) :
    listOf? f (.array (items.map g)) = some items := by
  rw [listOf?, mapM_map_eq_some h, List.map_id']

@[simp] theorem strings?_ofStrings (texts : List String) : (ofStrings texts).strings? = some texts :=
  listOf?_map texts fun _ _ => rfl

/-- A field that is left out where it is missing is read back, unless its form is `null`. -/
theorem nullable?_map (h : ∀ a, f (g a) = some a) (hnull : ∀ a, g a ≠ .null) (field : Option α) :
    nullable? f (field.map g) = some field := by
  cases field with
  | none => rfl
  | some a => simp [nullable?, h, hnull]

end Forms

/-! ## Height -/

mutual

/-- How deep arrays and objects nest in a value. -/
def height : Json → Nat
  | .array items => heightItems items + 1
  | .object fields => heightFields fields + 1
  | _ => 0

/-- The greatest height among items. -/
def heightItems : List Json → Nat
  | [] => 0
  | item :: items => max item.height (heightItems items)

/-- The greatest height among the values of fields. -/
def heightFields : List (String × Json) → Nat
  | [] => 0
  | (_, value) :: fields => max value.height (heightFields fields)

end

theorem heightItems_le_iff {items : List Json} {n : Nat} : heightItems items ≤ n ↔ ∀ j ∈ items, j.height ≤ n := by
  induction items with
  | nil => simp [heightItems]
  | cons j rest ih => rw [heightItems, Nat.max_le, ih, List.forall_mem_cons]

theorem heightFields_le_iff {fields : List (String × Json)} {n : Nat} :
    heightFields fields ≤ n ↔ ∀ field ∈ fields, field.2.height ≤ n := by
  induction fields with
  | nil => simp [heightFields]
  | cons field rest ih => rw [heightFields, Nat.max_le, ih, List.forall_mem_cons]

end SchemaWire.Json
