import SchemaWire.Lowering
import SchemaWire.Syntax.Descent
import SchemaWire.Token.Lexer

/-!
# Sources

From the text of a schema, or its bytes, to its tree, and everything that may be wrong on the way to a
model.
-/

namespace SchemaWire

/-- Why a source gives no model. -/
inductive SourceError
  | encoding (fault : Utf8.Fault)
  | lexical (error : LexError)
  | grammatical (error : ParseError)
  | lowering (error : LoweringError)
  deriving DecidableEq, Repr

namespace SourceError

/-- The wording of an error. -/
def message : SourceError → String
  | .encoding fault => "schema source is not valid UTF-8: " ++ fault.message
  | .lexical e => e.message
  | .grammatical e => e.message
  | .lowering e => e.message

/-- The place of an error. Bytes that are no text have no places. -/
def place : SourceError → Option Span
  | .encoding _ => none
  | .lexical e => some e.span
  | .grammatical e => some e.span
  | .lowering e => some e.place

/-- The other places that concern an error. -/
def notes : SourceError → List (Span × String)
  | .lowering e => e.notes
  | _ => []

/-- The error as a report. -/
def report (e : SourceError) : Report :=
  ⟨e.message, e.place, e.notes⟩

end SourceError

/-- The tree of a source. -/
def Schema.ofSource (source : List Char) : Except SourceError Schema := do
  let tokens ← (lex source).mapError .lexical
  (Schema.ofTokens tokens).mapError .grammatical

end SchemaWire
