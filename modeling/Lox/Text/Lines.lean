import Lox.Text

/-!
# Lox.Text.Lines

Texts as lines.

A line ends at a line feed, or at a carriage return with a line feed after
it.  What follows the last line end is a line if it is not empty.
-/

namespace Lox.Text

/-- The lines of a text, without what ends them. -/
def lines : Text → List Text
  | [] => []
  | u :: rest =>
    if u == newline then [] :: lines rest
    else if u == unit '\r' && rest.head? == some newline then lines rest
    else
      match lines rest with
      | [] => [[u]]
      | line :: more => (u :: line) :: more

end Lox.Text
