import SchemaWire.Syntax
import SchemaWire.Token

/-!
# Why tokens are no schema

The parser stops at the first token that fits no rule. `Rejection` holds what was wanted there and the
tokens from there on; `ParseError` is the same as a report, with the token's place.
-/

namespace SchemaWire

/-- Where in the grammar a token was refused. -/
inductive ParseError.Context
  | declaration
  | namespaceName
  | typeName
  | aliasName
  | traitName
  | afterTraitName
  | pathSegment
  | size
  | propertyName
  deriving DecidableEq, Repr

/-- The wording of a place in the grammar. -/
def ParseError.Context.text : ParseError.Context → String
  | .declaration => "at declaration"
  | .namespaceName => "at namespace name"
  | .typeName => "at type name"
  | .aliasName => "at alias name"
  | .traitName => "at trait name"
  | .afterTraitName => "after trait name, expected \"\x7b\" or \";\""
  | .pathSegment => "in type name"
  | .size => "in size specification, expected integer"
  | .propertyName => "at property name"

/-- What the grammar wanted where it refused a token. -/
inductive ParseError.Wanted
  /-- This mark. -/
  | mark (mark : Mark)
  /-- Anything that may stand at this place. -/
  | context (context : ParseError.Context)
  /-- No size, as the type before it is dotted. -/
  | noSize (path : TypePath)
  deriving DecidableEq, Repr

/-- The point where parsing stopped: what was wanted, and the tokens that were not read. -/
structure Rejection where
  wanted : ParseError.Wanted
  rest : List Located
  deriving Repr

/-- A refused token, or the end of the source, and its place. -/
structure ParseError where
  wanted : ParseError.Wanted
  found : Option Token
  span : Span
  deriving DecidableEq, Repr

namespace ParseError

/-- The sorts of parse errors. -/
inductive Kind
  | unexpectedToken
  | unexpectedEof
  | invalidSyntax
  deriving DecidableEq, Repr

/-- The sort of an error. -/
def kind (e : ParseError) : Kind :=
  match e.wanted, e.found with
  | .noSize _, _ => .invalidSyntax
  | _, some _ => .unexpectedToken
  | _, none => .unexpectedEof

/-- What was found, as messages say it. -/
def foundText : Option Token → String
  | some token => "unexpected token \"" ++ token.display ++ "\""
  | none => "unexpected end of input"

/-- The wording of an error without its place. -/
def summary (e : ParseError) : String :=
  match e.wanted with
  | .mark mark => foundText e.found ++ ", expected \"" ++ mark.text ++ "\""
  | .context context => foundText e.found ++ " " ++ context.text
  | .noSize path => "size specification is not allowed on dotted type \"" ++ path.dotted ++ "\""

/-- The wording of an error. -/
def message (e : ParseError) : String :=
  e.summary ++ s!" at offset {e.span.start}"

/-- The report of a rejection, in a source whose end is at `stop`. -/
def ofRejection (stop : Span) (r : Rejection) : ParseError :=
  match r.rest with
  | [] => ⟨r.wanted, none, stop⟩
  | t :: _ => ⟨r.wanted, some t.token, t.span⟩

end ParseError

end SchemaWire
