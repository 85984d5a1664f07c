import SchemaWire.Report
import SchemaWire.Wire.Primitive

/-!
# Why a schema has no model

A schema that parses may still contradict itself: in its names, in its aliases, or in its sizes. Each
cause knows the place to show, and a repeated name also the place where it was given first.
-/

namespace SchemaWire

/-- A contradiction in a schema. -/
inductive LoweringError
  /-- Two aliases of one name. -/
  | duplicateAlias (name : String) (place first : Span)
  /-- Two constructors of one full name. -/
  | duplicateContainer (name : String) (place first : Span)
  /-- A size on a primitive type that takes none. -/
  | sizeNotAllowed (type : Primitive) (place : Span)
  /-- A size beyond 32 bits. -/
  | sizeTooLarge (size : UInt64) (place : Span)
  /-- A size on a name that does not stand for an unsized primitive type. -/
  | sizeWithoutPrimitive (name : String) (place : Span)
  /-- An alias for something else than a primitive type. -/
  | aliasOfContainer (name target : String) (place : Span)
  /-- An alias that leads back to itself through the names of `chain`. -/
  | aliasCycle (name : String) (chain : List String) (place : Span)
  /-- A vector whose items have a size. -/
  | sizedItem (type : Primitive) (size : UInt32) (place : Span)
  deriving DecidableEq, Repr

namespace LoweringError

/-- The sorts of contradictions. -/
inductive Kind
  | duplicateAlias
  | duplicateContainerName
  | invalidStrictSize
  | invalidAliasTarget
  | aliasCycle
  | unresolvedPrimitive
  | invalidVectorItem
  deriving DecidableEq, Repr

/-- The name of a sort. -/
def Kind.title : Kind → String
  | .duplicateAlias => "duplicate alias"
  | .duplicateContainerName => "duplicate container name"
  | .invalidStrictSize => "invalid strict size"
  | .invalidAliasTarget => "invalid alias target"
  | .aliasCycle => "alias cycle"
  | .unresolvedPrimitive => "unresolved generic type"
  | .invalidVectorItem => "invalid vector item"

/-- The sort of a contradiction. -/
def kind : LoweringError → Kind
  | .duplicateAlias .. => .duplicateAlias
  | .duplicateContainer .. => .duplicateContainerName
  | .sizeNotAllowed .. => .invalidStrictSize
  | .sizeTooLarge .. => .invalidStrictSize
  | .sizeWithoutPrimitive .. => .unresolvedPrimitive
  | .aliasOfContainer .. => .invalidAliasTarget
  | .aliasCycle .. => .aliasCycle
  | .sizedItem .. => .invalidVectorItem

/-- The place to show. -/
def place : LoweringError → Span
  | .duplicateAlias _ place _ => place
  | .duplicateContainer _ place _ => place
  | .sizeNotAllowed _ place => place
  | .sizeTooLarge _ place => place
  | .sizeWithoutPrimitive _ place => place
  | .aliasOfContainer _ _ place => place
  | .aliasCycle _ _ place => place
  | .sizedItem _ _ place => place

/-- The other places to show, and what to say of them. -/
def notes : LoweringError → List (Span × String)
  | .duplicateAlias _ _ first => [(first, "first declared here")]
  | .duplicateContainer _ _ first => [(first, "first declared here")]
  | _ => []

/-- The wording without the sort. -/
def summary : LoweringError → String
  | .duplicateAlias name _ _ => "alias \"" ++ name ++ "\" is already declared"
  | .duplicateContainer name _ _ => "container \"" ++ name ++ "\" is already declared"
  | .sizeNotAllowed type _ => "only string and bytes accept a size, found " ++ type.name
  | .sizeTooLarge size _ => s!"size {size.toNat} is out of range"
  | .sizeWithoutPrimitive name _ => "size specification requires a generic type, \"" ++ name ++ "\" is not one"
  | .aliasOfContainer name target _ =>
    "alias \"" ++ name ++ "\" must name a generic type, found \"" ++ target ++ "\""
  | .aliasCycle name chain _ =>
    "alias \"" ++ name ++ "\" refers to itself through " ++ " -> ".intercalate chain
  | .sizedItem type size _ => s!"vector items cannot carry a size, found {type.name}[{size.toNat}]"

/-- The wording. -/
def message (e : LoweringError) : String :=
  e.kind.title ++ ": " ++ e.summary

/-- The error as a report. -/
def report (e : LoweringError) : Report :=
  ⟨e.message, some e.place, e.notes⟩

end LoweringError

end SchemaWire
