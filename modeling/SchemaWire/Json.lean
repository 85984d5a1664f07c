import SchemaWire.Fields
import SchemaWire.Number.Shortest

/-!
# JSON

Values keep the order of their fields, and tell integers from numbers with a point or an exponent. An
integer that does not fit 64 bits, signed or unsigned, is such a number too when it is read. `Json.text`
is the compact text; a number that JSON cannot write is `null` there.
-/

namespace SchemaWire

/-- A JSON number: an integer, or any other number by its nearest double. -/
inductive Json.Number
  | int (value : Int)
  | float (value : Double)
  deriving DecidableEq, Repr

/-- A JSON value. -/
inductive Json
  | null
  | bool (value : Bool)
  | number (value : Json.Number)
  | string (value : String)
  | array (items : List Json)
  | object (fields : List (String × Json))
  deriving Repr

namespace Json

/-- A natural number. -/
def ofNat (n : Nat) : Json :=
  .number (.int n)

/-- A list of strings. -/
def ofStrings (texts : List String) : Json :=
  .array (texts.map .string)

/-- A finite number, or `null`. -/
def ofDouble (x : Double) : Json :=
  if x.isFinite then .number (.float x) else .null

/-- A character inside a string. -/
def escapeChar (c : Char) : List Char :=
  if c = '"' ∨ c = '\\' then ['\\', c]
  else if c = '\x08' then ['\\', 'b']
  else if c = '\t' then ['\\', 't']
  else if c = '\n' then ['\\', 'n']
  else if c = '\x0c' then ['\\', 'f']
  else if c = '\r' then ['\\', 'r']
  else if c.toNat < 0x20 then
    ['\\', 'u', '0', '0', (c.toNat / 16).digitChar, (c.toNat % 16).digitChar]
  else [c]

/-- A string with its quotes. -/
def stringText (s : String) : List Char :=
  '"' :: s.toList.flatMap escapeChar ++ ['"']

/-- The text of a number. -/
def Number.text : Number → List Char
  | .int value => (toString value).toList
  | .float value => if value.isFinite then value.exponential else "null".toList

mutual

/-- The compact text of a value. -/
def text : Json → List Char
  | .null => "null".toList
  | .bool value => if value then "true".toList else "false".toList
  | .number value => value.text
  | .string value => stringText value
  | .array items => '[' :: itemsText items ++ [']']
  | .object fields => '\x7b' :: fieldsText fields ++ ['\x7d']

/-- The texts of items, with commas between them. -/
def itemsText : List Json → List Char
  | [] => []
  | [item] => item.text
  | item :: next :: items => item.text ++ ',' :: itemsText (next :: items)

/-- The texts of fields, with commas between them. -/
def fieldsText : Fields Json → List Char
  | [] => []
  | [(name, value)] => stringText name ++ ':' :: value.text
  | (name, value) :: next :: fields => stringText name ++ ':' :: value.text ++ ',' :: fieldsText (next :: fields)

end

/-- The compact text of a value, as a string. -/
def toText (j : Json) : String :=
  String.ofList j.text

end Json

end SchemaWire
