import SchemaWire.Number.Shortest
import SchemaWire.Span
import SchemaWire.Text.Quoted

/-!
# Tokens of the schema language

Comments are tokens like any other, as the syntax keeps them. Keywords may stand wherever a name may
(`Token.name?`). `Token.display` is the form that messages quote, and `Token.spelling` the text that a
token contributes to a `--- … ---` block.
-/

namespace SchemaWire

/-- A reserved word that opens or joins declarations. -/
inductive Keyword
  | namespaceWord
  | typeWord
  | aliasWord
  | traitWord
  | implementsWord
  deriving DecidableEq, Repr

/-- The text of a keyword. -/
def Keyword.text : Keyword → String
  | .namespaceWord => "namespace"
  | .typeWord => "type"
  | .aliasWord => "alias"
  | .traitWord => "trait"
  | .implementsWord => "implements"

/-- A punctuation mark. -/
inductive Mark
  | leftBrace
  | rightBrace
  | less
  | greater
  | leftBracket
  | rightBracket
  | colon
  | dot
  | equals
  | semicolon
  | comma
  | question
  | arrow
  /-- The end of a block comment that was never opened. -/
  | commentEnd
  /-- The delimiter of `--- … ---` blocks. -/
  | tripleDash
  deriving DecidableEq, Repr

/-- The text of a mark. -/
def Mark.text : Mark → String
  | .leftBrace => "\x7b"
  | .rightBrace => "\x7d"
  | .less => "<"
  | .greater => ">"
  | .leftBracket => "["
  | .rightBracket => "]"
  | .colon => ":"
  | .dot => "."
  | .equals => "="
  | .semicolon => ";"
  | .comma => ","
  | .question => "?"
  | .arrow => "->"
  | .commentEnd => "*/"
  | .tripleDash => "---"

/-- A token of the schema language. -/
inductive Token
  | keyword (word : Keyword)
  | boolean (value : Bool)
  | null
  | integer (value : UInt64)
  | float (value : Double)
  /-- A string literal, by the text between its quotes. -/
  | string (text : String)
  | ident (text : String)
  /-- A comment, by the text between its delimiters. -/
  | comment (text : String)
  | mark (mark : Mark)
  /-- The end of the source. -/
  | eof
  deriving DecidableEq, Repr

/-- A token and where it stands. -/
structure Located where
  token : Token
  span : Span
  deriving DecidableEq, Repr

namespace Token

/-- What sort of thing a token is. -/
inductive Kind
  | boolean
  | numeric
  | string
  | null
  | identifier
  | punctuator
  | keyword
  | comment
  | eof
  deriving DecidableEq, Repr

/-- The sort of a token. -/
def kind : Token → Kind
  | .keyword _ => .keyword
  | .boolean _ => .boolean
  | .null => .null
  | .integer _ => .numeric
  | .float _ => .numeric
  | .string _ => .string
  | .ident _ => .identifier
  | .comment _ => .comment
  | .mark _ => .punctuator
  | .eof => .eof

/-- The text of a keyword token. -/
def keywordText? : Token → Option String
  | .keyword word => some word.text
  | _ => none

/-- The name that a token stands for: an identifier, or a keyword used as one. -/
def name? : Token → Option String
  | .ident text => some text
  | .keyword word => some word.text
  | _ => none

/-- The token as messages show it. -/
def display : Token → String
  | .keyword word => word.text
  | .boolean value => if value then "true" else "false"
  | .null => "null"
  | .integer value => toString value.toNat
  | .float value => String.ofList value.plain
  | .string text => "\"" ++ text ++ "\""
  | .ident text => text
  | .comment text => "comment " ++ String.ofList (Text.quote text.toList)
  | .mark m => m.text
  | .eof => "end of input"

/-- The text of a token inside a `--- … ---` block. Literals and comments count by their contents. -/
def spelling : Token → String
  | .string text => text
  | .comment text => text
  | token => token.display

end Token

end SchemaWire
