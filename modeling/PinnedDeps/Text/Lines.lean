import PinnedDeps.Text.Cut

/-! The lines of a document. A line ends with a line feed, before which one carriage return is part
of the ending; what follows the last line feed is a line only if it is not empty, and keeps its
carriage returns. -/

namespace PinnedDeps.Text

/-- A line without the carriage return of its ending. -/
def withoutReturn (line : List Char) : List Char :=
  if line.getLast? = some '\r' then line.dropLast else line

/-- The lines of which the pieces between line feeds consist. -/
def linesOfPieces : List (List Char) → List (List Char)
  | [] => []
  | [last] => if last = [] then [] else [last]
  | line :: rest => withoutReturn line :: linesOfPieces rest

def lines (cs : List Char) : List (List Char) := linesOfPieces (pieces '\n' cs)

end PinnedDeps.Text
