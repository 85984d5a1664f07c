import SchemaWire.Text.Blank
import SchemaWire.Text.Lines

/-!
# Documentation

Comments become documentation of the declaration that they stand before. A comment of one line is an entry
as it is. One of several lines gives an entry for each line that is not blank, without the indentation and
the star that such comments begin their lines with.
-/

namespace SchemaWire.Docs

/-- A line without its indentation, one star after that, and one space after that. -/
def stripMargin (line : List Char) : List Char :=
  Text.dropOne ' ' (Text.dropOne '*' (Text.trimStart line))

/-- The entries of a comment with more than one line. -/
def lineEntries (comment : List Char) : List (List Char) :=
  ((Text.lines comment).map stripMargin).filter fun line => !line.all Text.isBlank

/-- Whether the comment has a line break. -/
def hasBreak (comment : List Char) : Bool :=
  comment.contains '\n' || comment.contains '\r'

/-- The entries of a comment. -/
def entries (comment : String) : List String :=
  if hasBreak comment.toList then (lineEntries comment.toList).map String.ofList else [comment]

/-- The entries that wait for a declaration, after one more comment. -/
def collect (pending : List String) (comment : String) : List String :=
  pending ++ entries comment

example : entries "*\n   * Post record\n   *\n   * Holds comments\n " = ["Post record", "Holds comments"] := by
  decide +kernel

end SchemaWire.Docs
