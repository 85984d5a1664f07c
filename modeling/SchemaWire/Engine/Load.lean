import SchemaWire.Engine.Registry
import SchemaWire.Session

/-!
# Loading

From the sources of schemas to the registry of all that they declare. Each source is compiled on its own.
-/

namespace SchemaWire

/-- Why sources give no registry. -/
inductive LoadError
  /-- One of them, whose text is given, is no schema. -/
  | source (text : List Char) (error : SourceError)
  /-- What they declare does not go together. -/
  | engine (error : EngineError)
  deriving DecidableEq, Repr

/-- The registry of sources. -/
def Registry.ofSources (sources : List (List Char)) (config : Config) : Except LoadError Registry := do
  let models ← sources.mapM fun text => (Model.ofSource text).mapError (.source text)
  (Registry.ofModels models config).mapError .engine

end SchemaWire
