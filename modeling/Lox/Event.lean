import Lox.Text

/-!
# Lox.Event

What a run writes.

Each piece of text that is written is an event: printed values and traced
steps go to the output, diagnostics to the error output.  Events keep the
order in which the texts were written.
-/

namespace Lox

/-- Why a text is written. -/
inductive Stream where
  | printed | diagnosed | traced
  deriving DecidableEq, Repr

/-- A text that is written, with any line separator that ends it. -/
structure Event where
  stream : Stream
  text : Text
  deriving DecidableEq, Repr

end Lox
