import Lox.Command.Directory
import Lox.Session
import Lox.Text.Lines
import Lox.Text.Utf8

/-!
# Lox.Command

The command line, up to input and output.

Arguments and environment are read into an invocation, which says what to do
and whether to trace.  What a script or a prompt writes, and the exit code,
form a transcript.
-/

namespace Lox

/-! ## invocations -/

/-- What the environment decides. -/
structure Settings where
  tracing : Bool
  deriving DecidableEq, Repr

/-- The variable that turns tracing on, whatever its value. -/
def traceVariable : Text := text "LOX_TRACE_EXECUTION"

/-- Read the settings from the environment. -/
def Settings.ofEnvironment (environment : List (Text × Text)) : Settings :=
  ⟨(environment.lookup traceVariable).isSome⟩

/-- What a command line asks for. -/
inductive Plan where
  | prompt
  | script (path : Text)
  | usage
  deriving DecidableEq, Repr

/-- A plan, and whether to trace. -/
structure Invocation where
  plan : Plan
  tracing : Bool
  deriving DecidableEq, Repr

/-- The argument that turns tracing on, wherever it stands. -/
def traceArgument : Text := text "--trace"

/-- Read an invocation from the arguments: the prompt without a path, a script
with one path. -/
def Invocation.ofArguments (settings : Settings) (arguments : List Text) : Invocation :=
  let tracing := settings.tracing || arguments.contains traceArgument
  match arguments.filter (· != traceArgument) with
  | [] => ⟨.prompt, tracing⟩
  | [path] => ⟨.script path, tracing⟩
  | _ => ⟨.usage, tracing⟩

/-! ## transcripts -/

/-- How a command ends; it breaks off where a run does. -/
inductive ExitCode where
  | success | broken | usage | refused | failed | unreadable
  deriving DecidableEq, Repr

/-- The number of an exit code. -/
def ExitCode.number : ExitCode → Nat
  | success => 0
  | broken => 1
  | usage => 64
  | refused => 65
  | failed => 70
  | unreadable => 74

/-- What a command writes, and how it ends. -/
structure Transcript where
  exit : ExitCode
  output : Text
  errors : Text
  deriving DecidableEq, Repr

/-- The output of a run: what it printed and traced. -/
def Run.output (run : Run) : Text :=
  (run.events.filter (·.stream ≠ .diagnosed)).flatMap Event.text

/-- The diagnostics of a run, as they are written. -/
def Run.diagnoses (run : Run) : Text :=
  (run.events.filter (·.stream = .diagnosed)).flatMap Event.text

/-- What is written about an error that a program stopped with. -/
def RuntimeError.render (error : RuntimeError) : Text :=
  error.cause.message ++ text "\n[line " ++ Text.ofInt error.line ++ text "] in script\n"

/-- The transcript of a run; an error that stopped it is told last. -/
def Transcript.ofRun (run : Run) : Transcript :=
  match run.status with
  | .finished => ⟨.success, run.output, run.diagnoses⟩
  | .refused _ => ⟨.refused, run.output, run.diagnoses⟩
  | .failed error => ⟨.failed, run.output, run.diagnoses ++ error.render⟩
  | .broken defect => ⟨.broken, run.output, run.diagnoses ++ defect.message ++ [newline]⟩

/-- What is written when the command line asks for nothing known. -/
def Transcript.usage : Transcript :=
  ⟨.usage, [], text "Usage: loxvm [--trace] [path]\n"⟩

/-- The transcript of a script that cannot be read. -/
def Transcript.unreadable (path : Text) (error : FileError) : Transcript :=
  ⟨.unreadable, [],
    text "Could not open file \"" ++ path ++ text "\": " ++ error.message path ++ [newline]⟩

/-- Run a script whose file was read, or not. -/
def runScript (tracing : Bool) (path : Text) : Except FileError (List UInt8) → Transcript
  | .error error => .unreadable path error
  | .ok bytes => .ofRun (runProgram tracing (Text.ofUtf8 bytes) .empty)

/-- What is written before each line is read. -/
def promptMark : Text := text "> "

/-- Run lines at a prompt; a prompt is written before each line and once more
at the end.  A line that is refused or that fails does not end the session, but
a run that breaks off does. -/
def promptLines (session : Session) : List Text → Transcript
  | [] => ⟨.success, promptMark, []⟩
  | line :: rest =>
    let (run, session) := session.submit line
    let told := Transcript.ofRun run
    if told.exit = .broken then ⟨.broken, promptMark ++ told.output, told.errors⟩
    else
      let later := promptLines session rest
      ⟨later.exit, promptMark ++ told.output ++ later.output, told.errors ++ later.errors⟩

/-- Run everything that is typed at a prompt. -/
def runPrompt (tracing : Bool) (input : Text) : Transcript :=
  promptLines (.start tracing) (Text.lines input)

/-- Run a command: its arguments, its environment, the files it finds, and
what is typed. -/
def runCommand (arguments : List Text) (environment : List (Text × Text))
    (files : Directory) (input : Text) : Transcript :=
  let invocation := Invocation.ofArguments (.ofEnvironment environment) arguments
  match invocation.plan with
  | .usage => .usage
  | .script path => runScript invocation.tracing path (files.read path)
  | .prompt => runPrompt invocation.tracing input

end Lox
