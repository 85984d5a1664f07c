import SchemaWire.Text.Unprintable

/-!
# Quotations

A text between double quotes, as messages show it. The quote and the backslash are escaped, and what has
no mark of its own is named: a tab, a line feed, a carriage return and a null by a letter, any other
unprintable character by its code point in hexadecimal.
-/

namespace SchemaWire.Text

/-- A character inside a quotation. -/
def quoteChar (c : Char) : List Char :=
  if c = '"' ∨ c = '\\' then ['\\', c]
  else if c = '\t' then ['\\', 't']
  else if c = '\n' then ['\\', 'n']
  else if c = '\r' then ['\\', 'r']
  else if c = '\x00' then ['\\', '0']
  else if isUnprintable c then "\\u\x7b".toList ++ Nat.toDigits 16 c.toNat ++ ['\x7d']
  else [c]

/-- A text as a quotation. -/
def quote (cs : List Char) : List Char :=
  '"' :: cs.flatMap quoteChar ++ ['"']

end SchemaWire.Text
