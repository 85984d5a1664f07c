import SchemaWire.Lowering.Error
import SchemaWire.Syntax

/-!
# Aliases

Aliases are known under one name each in the whole schema, wherever they are declared. A type name is
resolved by following aliases until a primitive type or the name of something else is reached. An alias
whose chain comes back to a name on it is a cycle, so the following ends: no name is entered twice.
-/

namespace SchemaWire

/-- What a type name stands for. -/
inductive Resolved
  | primitive (type : Primitive)
  | strict (type : Primitive) (size : UInt32)
  /-- A container, a type or a trait, by the name that was written. -/
  | reference (name : String)
  deriving DecidableEq, Repr

/-- The aliases of a schema, in the order of their declarations. -/
structure AliasTable where
  entries : List Alias
  distinct : (entries.map fun a => a.name.name).Nodup := by simp
  deriving DecidableEq, Repr

namespace AliasTable

/-- The table without aliases. -/
def empty : AliasTable := ⟨[], by simp⟩

/-- The names of the aliases, in order. -/
def names (t : AliasTable) : List String :=
  t.entries.map fun a => a.name.name

/-- The alias of a name. -/
def get? (t : AliasTable) (name : String) : Option Alias :=
  t.entries.find? fun a => a.name.name == name

theorem name_of_get? {t : AliasTable} {name : String} {a : Alias} (h : t.get? name = some a) :
    a.name.name = name := by
  simpa using List.find?_some h

theorem mem_entries_of_get? {t : AliasTable} {name : String} {a : Alias} (h : t.get? name = some a) :
    a ∈ t.entries :=
  List.mem_of_find?_eq_some h

theorem mem_names_of_get? {t : AliasTable} {name : String} {a : Alias} (h : t.get? name = some a) :
    name ∈ t.names :=
  List.mem_map.mpr ⟨a, mem_entries_of_get? h, name_of_get? h⟩

theorem get?_eq_none_iff {t : AliasTable} {name : String} : t.get? name = none ↔ name ∉ t.names := by
  simp [get?, names]

/-- The table with one more alias, or the repetition of a name. -/
def register (t : AliasTable) (a : Alias) : Except LoweringError AliasTable :=
  match h : t.get? a.name.name with
  | some first => .error (.duplicateAlias a.name.name a.name.span first.name.span)
  | none =>
    .ok ⟨t.entries ++ [a], by
      have := get?_eq_none_iff.mp h
      have := t.distinct
      simp only [names] at *
      simp only [List.map_append, List.map_cons, List.map_nil]
      exact List.nodup_append.mpr ⟨this, by simp, by simp_all⟩⟩

/-- The table with more aliases, up to the first repetition of a name. -/
def registerAll (t : AliasTable) : List Alias → AliasTable × Except LoweringError Unit
  | [] => (t, .ok ())
  | a :: rest =>
    match t.register a with
    | .ok t => registerAll t rest
    | .error e => (t, .error e)

/-- A resolved name with a size. -/
def applySize (sized : SizedType) : Resolved → Except LoweringError Resolved
  | .primitive type =>
    if !type.allowsSize then .error (.sizeNotAllowed type sized.span)
    else if UInt32.size ≤ sized.size.value.toNat then .error (.sizeTooLarge sized.size.value sized.size.span)
    else .ok (.strict type (UInt32.ofNat sized.size.value.toNat))
  | _ => .error (.sizeWithoutPrimitive sized.name.name sized.name.span)

/-- The names of the table that are not on a chain. -/
def unvisited (t : AliasTable) (chain : List String) : List String :=
  t.names.filter fun name => !chain.contains name

theorem length_unvisited_lt {t : AliasTable} {chain : List String} {name : String} (hmem : name ∈ t.names)
    (hnew : name ∉ chain) : (t.unvisited (chain ++ [name])).length < (t.unvisited chain).length := by
  have hfilter : t.unvisited (chain ++ [name]) = (t.unvisited chain).filter (· != name) := by
    simp only [unvisited, List.filter_filter]
    congr 1
    funext n
    by_cases h : n = name <;> simp_all
  rw [hfilter]
  exact List.length_filter_lt_length_iff_exists.mpr ⟨name, by simp [unvisited, hmem, hnew], by simp⟩

/-- What a name without dots stands for, if it was reached through the aliases of `chain`. A primitive
type's name cannot be given another meaning. -/
def resolveName (t : AliasTable) (chain : List String) (name : String) (place : Span) :
    Except LoweringError Resolved :=
  match Primitive.ofName? name with
  | some type => .ok (.primitive type)
  | none =>
    match h : t.get? name with
    | none => .ok (.reference name)
    | some a =>
      if hchain : name ∈ chain then .error (.aliasCycle name chain place)
      else
        have := length_unvisited_lt (mem_names_of_get? h) hchain
        match a.target with
        | .path path =>
          if path.isSimple then resolveName t (chain ++ [name]) path.dotted path.span
          else .ok (.reference path.dotted)
        | .sized sized => do applySize sized (← resolveName t (chain ++ [name]) sized.name.name sized.name.span)
termination_by (t.unvisited chain).length

/-- What a type name stands for. -/
def resolve (t : AliasTable) : TypeName → Except LoweringError Resolved
  | .path path => if path.isSimple then t.resolveName [] path.dotted path.span else .ok (.reference path.dotted)
  | .sized sized => do applySize sized (← t.resolveName [] sized.name.name sized.name.span)

/-- Whether an alias stands for a primitive type, with or without a size. -/
def check (t : AliasTable) (a : Alias) : Except LoweringError Unit := do
  match ← t.resolve a.target with
  | .reference target => throw (.aliasOfContainer a.name.name target a.target.span)
  | _ => return ()

/-- Whether all aliases stand for primitive types. -/
def validate (t : AliasTable) : Except LoweringError Unit :=
  t.entries.forM t.check

end AliasTable

end SchemaWire
