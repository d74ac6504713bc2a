import Lox.Run

/-!
# Lox.Session

Sessions at a prompt.

A session runs its inputs on one store and remembers the last of them,
whether or not they were accepted.
-/

namespace Lox

/-- How many inputs a session remembers. -/
def historyLength : Nat := 100

/-- A session: whether it traces, the store its inputs share, and the inputs
it remembers, the latest first. -/
structure Session where
  tracing : Bool
  store : Store
  history : List Text
  deriving DecidableEq

namespace Session

/-- A session without inputs. -/
def start (tracing : Bool) : Session := ⟨tracing, .empty, []⟩

/-- Remember an input and run it. -/
def submit (session : Session) (input : Text) : Run × Session :=
  let run := runProgram session.tracing input session.store
  let history := (input :: session.history).take historyLength
  (run, { session with store := run.store, history := history })

/-- The input `back` inputs before the latest one, if it is remembered. -/
def earlier? (session : Session) (back : Int) : Option Text :=
  match back with
  | .ofNat n => session.history[n]?
  | .negSucc _ => none

/-- Forget every variable and string; the inputs are still remembered. -/
def forget (session : Session) : Session := { session with store := .empty }

end Session

end Lox
