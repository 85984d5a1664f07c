import SchemaWire.Model.Container
import SchemaWire.Source
import SchemaWire.Stateful

/-!
# Sessions

A session compiles one source after the other. It keeps the aliases and traits of the last schema that it
lowered: both are recorded while the schema is lowered, so that one without a model leaves behind what was
recorded before the failure. Every schema finds the session empty, and leaves in it what `Schema.lower` says
(`lower_eq`).
-/

namespace SchemaWire

/-- The aliases and traits of the schema that was lowered last. -/
structure Session where
  aliases : AliasTable
  traits : List Trait
  deriving Repr

namespace Session

/-- The session that has lowered nothing. -/
def initial : Session := ⟨.empty, []⟩

/-- A step of lowering in a session. What it records stays recorded if a later step fails. -/
abbrev Step (α : Type) := ExceptT LoweringError (StateM Session) α

/-- Records an alias, unless one of its name is recorded. -/
def recordAlias (a : Alias) : Step Unit := do
  let aliases ← (← get).aliases.register a
  modify ({ · with aliases })

/-- Records a trait, unless one of its name is recorded. -/
def recordTrait (t : Trait) : Step Unit :=
  modify fun s => { s with traits := Trait.record s.traits t }

/-- The steps of lowering a tree. The first one forgets the tree before. -/
def steps (tree : Schema) : Step Model := do
  set initial
  (Item.aliases tree.body).forM recordAlias
  let scope ← tree.scope (← get).aliases
  scope.traits.forM recordTrait
  return ⟨← Scope.identify [] scope.containers⟩

/-- Lowers a tree. -/
def lower (s : Session) (tree : Schema) : Except LoweringError Model × Session :=
  (steps tree).run.run s

/-- Compiles a source. One that is no schema leaves the session as it was. -/
def compile (s : Session) (source : List Char) : Except SourceError Model × Session :=
  match Schema.ofSource source with
  | .error e => (.error e, s)
  | .ok tree =>
    let (result, next) := s.lower tree
    (result.mapError .lowering, next)

/-- Compiles a source given by its bytes. -/
def compileBytes (s : Session) (bytes : Bytes) : Except SourceError Model × Session :=
  match Utf8.decode bytes with
  | .error fault => (.error (.encoding fault), s)
  | .ok source => s.compile source

/-! ## What steps do -/

open Stateful

section Steps

variable (s : Session)

theorem run_recordAlias (a : Alias) :
    (recordAlias a).run.run s =
      match s.aliases.register a with
      | .ok aliases => (.ok (), { s with aliases })
      | .error e => (.error e, s) := by
  simp only [recordAlias, run_bind, run_get, run_lift]
  cases s.aliases.register a <;> rfl

theorem run_recordAliases (aliases : List Alias) :
    (aliases.forM recordAlias).run.run s =
      ((s.aliases.registerAll aliases).2, { s with aliases := (s.aliases.registerAll aliases).1 }) := by
  induction aliases generalizing s with
  | nil => rfl
  | cons a rest ih =>
    rw [List.forM_eq_forM] at ih ⊢
    rw [List.forM_cons, run_bind, run_recordAlias, AliasTable.registerAll]
    cases s.aliases.register a with
    | error e => rfl
    | ok aliases => exact ih _

theorem run_recordTraits (traits : List Trait) :
    (traits.forM recordTrait).run.run s = (.ok (), { s with traits := traits.foldl Trait.record s.traits }) := by
  induction traits generalizing s with
  | nil => rfl
  | cons t rest ih =>
    have ht : (recordTrait t).run.run s = (.ok (), { s with traits := Trait.record s.traits t }) := rfl
    rw [List.forM_eq_forM] at ih ⊢
    rw [List.forM_cons, run_bind, ht, List.foldl_cons]
    exact ih _

end Steps

/-- Whatever a session holds, a tree has the model that it has on its own, and its aliases and traits are what
the session holds afterwards. -/
theorem lower_eq (s : Session) (tree : Schema) :
    s.lower tree = (tree.lower.result.map Model.mk, ⟨tree.lower.aliases, tree.lower.traits⟩) := by
  simp only [lower, steps, run_bind, run_set, run_recordAliases, run_get, run_lift, run_pure, initial]
  unfold Schema.lower
  cases AliasTable.registerAll .empty (Item.aliases tree.body) with
  | mk aliases registered =>
    cases registered with
    | error e => rfl
    | ok _ =>
      simp only
      cases tree.scope aliases with
      | error e => rfl
      | ok scope =>
        simp only [run_recordTraits, Trait.firsts]
        cases Scope.identify [] scope.containers <;> rfl

end Session

/-- The model of a source on its own. -/
def Model.ofSource (source : List Char) : Except SourceError Model :=
  (Session.initial.compile source).1

end SchemaWire
