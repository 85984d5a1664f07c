import SchemaWire.Json.Read

/-!
# Configuration

What the engine checks beyond what the bytes need. No setting changes the bytes themselves.
-/

namespace SchemaWire

/-- The settings of an engine. -/
structure Config where
  /-- Whether the header of a nested container is held against what its param refers to, before the
  container is decoded. -/
  structuralValidation : Bool := true
  /-- How many levels of containers may lie below the outermost one. -/
  maxDepth : Nat := 128
  deriving DecidableEq, Repr

namespace Config

/-- The settings of a named environment: production does without structural validation. -/
def ofEnvironment : Option String → Config
  | some "production" => ⟨false, 128⟩
  | _ => ⟨true, 128⟩

/-- The settings of a JSON form. A missing one has its default. -/
def ofJson? (j : Json) : Option Config :=
  match j.record? ["structural_validation", "max_depth"] with
  | some [validation, depth] =>
    return ⟨← Json.orDefault? true Json.bool? validation,
      ← Json.orDefault? 128 (fun d => d.uint64?.map UInt64.toNat) depth⟩
  | _ => none

end Config

end SchemaWire
