import Lox.Command

/-!
# Lox.Main

The command line.

Runs a script, or a prompt that answers each line as it is typed.  What is
written, and the exit code, are those of `runScript` and `runPrompt`.
-/

namespace Lox

/-- Why the system did not read a file; the system numbers a directory that is
read like a file 21. -/
def FileError.ofSystem : IO.Error → FileError
  | .noFileOrDirectory .. => .notFound
  | .inappropriateType _ code _ => if code = 21 then .isDirectory else .notDirectory
  | error => .other (text error.toString)

/-- Write what a command tells. -/
def Transcript.put (told : Transcript) : IO Unit := do
  (← IO.getStdout).putStr (Text.toString told.output)
  (← IO.getStdout).flush
  (← IO.getStderr).putStr (Text.toString told.errors)

/-- The bytes up to a line feed, latest first; none at the end of the input. -/
partial def readLine (input : IO.FS.Stream) (line : List UInt8) : IO (List UInt8) := do
  let bytes ← input.read 1
  match bytes.toList with
  | [] => pure line
  | byte :: _ => if byte = 10 then pure (byte :: line) else readLine input (byte :: line)

/-- Answer lines until the input ends or a run breaks off. -/
partial def serve (input : IO.FS.Stream) (session : Session) : IO ExitCode := do
  Transcript.put ⟨.success, promptMark, []⟩
  match Text.lines (Text.ofUtf8 (← readLine input []).reverse) with
  | [] => pure .success
  | line :: _ =>
    let (run, session) := session.submit line
    let told := Transcript.ofRun run
    told.put
    if told.exit = .broken then pure .broken else serve input session

/-- Run a script file. -/
def serveScript (tracing : Bool) (path : String) : IO Transcript := do
  let bytes ← (IO.FS.readBinFile path).toBaseIO
  pure (runScript tracing (text path) (match bytes with
    | .ok bytes => .ok bytes.toList
    | .error error => .error (.ofSystem error)))

end Lox

open Lox in
/-- Run the command that the arguments ask for. -/
def main (arguments : List String) : IO UInt32 := do
  let environment := (← IO.getEnv (Text.toString traceVariable)).toList.map fun value =>
    (traceVariable, text value)
  let invocation :=
    Invocation.ofArguments (.ofEnvironment environment) (arguments.map text)
  let told ← match invocation.plan with
    | .usage => pure Transcript.usage
    | .script path => serveScript invocation.tracing (Text.toString path)
    | .prompt => do
      let exit ← serve (← IO.getStdin) (.start invocation.tracing)
      pure ⟨exit, [], []⟩
  told.put
  pure (UInt32.ofNat told.exit.number)
