import Lox.Chunk.Lowering
import Lox.Machine.Run

/-!
# Lox.Run

Compiling and running sources.

`runProgram` runs a program on a store and leaves the store for the next one.
Nothing runs unless the whole source is accepted; the strings that a refused
source asked for are stored all the same.  `runQuery` runs a lone expression
on a store of its own.
-/

namespace Lox

/-- How the run of a source ended. -/
inductive Status where
  | finished
  | refused (diagnostics : List Diagnostic)
  | failed (error : RuntimeError)
  | broken (defect : Defect)
  deriving DecidableEq

/-- The run of a source: how it ended, what was written, and the store after
it. -/
structure Run where
  status : Status
  events : List Event
  store : Store
  deriving DecidableEq

/-- How a run ended whose machine stopped. -/
def Status.ofStop : Stop → Status
  | .returned _ => .finished
  | .failed error => .failed error
  | .broken defect => .broken defect

/-- The event that tells a diagnostic. -/
def Diagnostic.event (d : Diagnostic) : Event := ⟨.diagnosed, d.report.render ++ [newline]⟩

/-- Compile a program and run it on a store. -/
def runProgram (tracing : Bool) (source : Text) (store : Store) : Run :=
  match Program.compile source store.heap with
  | (.error diagnostics, heap) =>
    ⟨.refused diagnostics, diagnostics.map Diagnostic.event, { store with heap := heap }⟩
  | (.ok chunk, heap) =>
    let (stop, m) := (Machine.start { store with heap := heap }).run chunk tracing
    ⟨.ofStop stop, m.written, m.store⟩

/-- Run programs one after the other on one store, which each leaves to the
next. -/
def runPrograms (tracing : Bool) : List Text → Store → List Run
  | [], _ => []
  | source :: rest, store =>
    let run := runProgram tracing source store
    run :: runPrograms tracing rest run.store

/-- Compile a lone expression and run it on a store of its own. -/
def runQuery (tracing : Bool) (source : Text) : Except (List Diagnostic) (Stop × Machine) :=
  match Query.compile source .empty with
  | (.error diagnostics, _) => .error diagnostics
  | (.ok chunk, heap) => .ok ((Machine.start ⟨heap, .empty⟩).run chunk tracing)

end Lox
