import SchemaWire.Text.Blank
import SchemaWire.Text.Lines
import SchemaWire.Text.Utf8
import SchemaWire.Span
import SchemaWire.Text.Quoted
import SchemaWire.Number.Shortest
import SchemaWire.Token.Lexer
import SchemaWire.Json.Parser
import SchemaWire.Syntax.Descent
import SchemaWire.Syntax.Json
import SchemaWire.Report
import SchemaWire.Model.Container
import SchemaWire.Lowering
import SchemaWire.Model.Json
import SchemaWire.Session
import SchemaWire.Wire.Cursor
import SchemaWire.Engine.Decode
import SchemaWire.Engine.Encode
import SchemaWire.Engine.Load
import SchemaWire.Plan
import SchemaWire.Proofs.Tags
import SchemaWire.Proofs.Binding
import SchemaWire.Proofs.Locality
import SchemaWire.Proofs.Conformance
import SchemaWire.Proofs.Settings
import SchemaWire.Proofs.Validation
import SchemaWire.Proofs.Stream
import SchemaWire.Proofs.Naming
import SchemaWire.Proofs.Spelling
import SchemaWire.Proofs.Resolution
import SchemaWire.Proofs.Dependence
import SchemaWire.Proofs.Placement
import SchemaWire.Proofs.Separation
import SchemaWire.Proofs.WellFormed
import SchemaWire.Proofs.Blame
import SchemaWire.Proofs.History
import SchemaWire.Proofs.Documentation
import SchemaWire.Proofs.Rearrangement
import SchemaWire.Proofs.Comments
import SchemaWire.Proofs.Concatenation
import SchemaWire.Proofs.Diagnostics
import SchemaWire.Proofs.JsonText
import SchemaWire.Proofs.StoredTrees
import SchemaWire.Proofs.StoredModels
import SchemaWire.Proofs.StoredValues
import SchemaWire.Proofs.Rewriting
import SchemaWire.Proofs.Cursor
import SchemaWire.Proofs.Synonyms
import SchemaWire.Proofs.Amplification
import SchemaWire.Proofs.Plans
import SchemaWire.Proofs.Places
import SchemaWire.Proofs.Declarations
import SchemaWire.Proofs.DocEntries
import SchemaWire.Proofs.Written
import SchemaWire.Proofs.Attachment
import SchemaWire.Proofs.Nesting
import SchemaWire.Proofs.KeywordNames
import SchemaWire.Proofs.Snippets
import SchemaWire.Proofs.Identifiers
import SchemaWire.Proofs.Progress
import SchemaWire.Proofs.Coordinates
