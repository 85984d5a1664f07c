import SchemaWire.Span
import SchemaWire.Text.Lines

/-!
# Reports

How a problem is shown next to the source it was found in: the message, the line and column, the source
line, and carets under the text in question, followed by the notes on other places in the same form.
-/

namespace SchemaWire

/-- A problem: what to say, where, and what to say of other places. -/
structure Report where
  message : String
  place : Option Span
  notes : List (Span × String)
  deriving DecidableEq, Repr

namespace Report

/-- `n` spaces. -/
def blanks (n : Nat) : List Char :=
  List.replicate n ' '

/-- The number of carets under a span: as many as its first line has characters, and at least one. -/
def caretCount (source : List Char) (s : Span) : Nat :=
  match s.snippet? source with
  | none => 1
  | some text =>
    match Text.lines text with
    | [] => 1
    | line :: _ => max line.length 1

/-- A place in the source: its line and column, and the source line with carets below, if the source has
that line. -/
def placeText (source : List Char) (s : Span) : List Char :=
  let line := (toString (s.line source)).toList
  let gutter := blanks line.length
  let head :=
    gutter ++ " --> ".toList ++ line ++ [':'] ++ (toString (s.column source)).toList ++ ['\n']
  match (Text.lines source)[s.line source - 1]? with
  | none => head
  | some text =>
    head ++ gutter ++ " |\n".toList ++ line ++ " | ".toList ++ text ++ ['\n'] ++
      gutter ++ " | ".toList ++ blanks (s.column source - 1) ++
      List.replicate (caretCount source s) '^' ++ ['\n']

/-- A note on another place. -/
def noteText (source : List Char) (note : Span × String) : List Char :=
  "note: ".toList ++ note.2.toList ++ ['\n'] ++ placeText source note.1

/-- The whole report. One without a place is its message alone. -/
def render (source : List Char) (r : Report) : List Char :=
  "error: ".toList ++ r.message.toList ++ ['\n'] ++
    match r.place with
    | none => []
    | some s => placeText source s ++ r.notes.flatMap (noteText source)

end Report

end SchemaWire
