import SchemaWire.Model.Param
import SchemaWire.Text.Blank
import SchemaWire.Text.Numeral

/-!
# Flags as text

Flags are written as their names in the order of their bits, with a bar between them, and bits without a
name after those as one hexadecimal number. Any such parts in any order are read.
-/

namespace SchemaWire.ParamFlags

/-- The bits that have no name. -/
def unnamed (f : ParamFlags) : ParamFlags :=
  named.foldl (fun rest flag => rest.remove flag.2) f

/-- The parts of the text of flags. -/
def parts (f : ParamFlags) : List String :=
  (named.filter fun flag => f.contains flag.2).map Prod.fst ++
    if f.unnamed.bits = 0 then [] else ["0x" ++ String.ofList (Nat.toDigits 16 f.unnamed.bits.toNat)]

/-- The text of flags. -/
def text (f : ParamFlags) : String :=
  " | ".intercalate f.parts

/-- The pieces of a text between bars. -/
def pieces : List Char → List (List Char)
  | [] => [[]]
  | '|' :: cs => [] :: pieces cs
  | c :: cs =>
    match pieces cs with
    | [] => [[c]]
    | piece :: rest => (c :: piece) :: rest

/-- The flags of a part: a name, or a number of eight bits. -/
def ofPart? : List Char → Option ParamFlags
  | '0' :: 'x' :: digits =>
    (Text.hexadecimal? (Text.dropOne '+' digits)).bind fun n => if n < UInt8.size then some ⟨UInt8.ofNat n⟩ else none
  | part => named.lookup (String.ofList part)

/-- The flags of a text. A blank text has none, but a blank part among others is refused. -/
def ofText? (text : String) : Option ParamFlags :=
  if text.toList.all Text.isBlank then some ⟨0⟩
  else ((pieces text.toList).mapM fun piece => ofPart? (Text.trim piece)).map fun all => all.foldl union ⟨0⟩

end SchemaWire.ParamFlags
