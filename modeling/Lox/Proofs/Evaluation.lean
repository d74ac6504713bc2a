import Lox.Machine
import Lox.Proofs.Content

/-!
# Lox.Proofs.Evaluation

A reference evaluator.

Programs are run on their trees, with contents for values: no handles, no
stack, no code.  An evaluation sees a memory, that is the variables and what
was printed so far, and stops at the first error with the memory as it is
then.  An error carries the line of the last token of what could not be
evaluated.
-/

namespace Lox

/-- The variables by content, and the texts printed so far. -/
structure Memory where
  environment : Text → Option Content
  printed : List Text

namespace Memory

/-- Define a variable, or give it a new content. -/
def define (memory : Memory) (name : Text) (content : Content) : Memory :=
  { memory with
    environment := fun other => if other = name then some content else memory.environment other }

/-- Print a content on a line of its own. -/
def print (memory : Memory) (content : Content) : Memory :=
  { memory with printed := memory.printed ++ [content.display ++ [newline]] }

end Memory

/-- What may change a memory, and may fail. -/
abbrev Evaluation (α : Type) := EStateM RuntimeError Memory α

namespace Evaluation

/-- The content of a variable. -/
def lookUp (name : Text) (line : Nat) : Evaluation Content := fun memory =>
  match memory.environment name with
  | some content => .ok content memory
  | none => .error ⟨.undefinedVariable name, line⟩ memory

/-- The result of an operator. -/
def operate (result : Except OperatorError Content) (line : Nat) : Evaluation Content :=
  fun memory => match result with
  | .ok content => .ok content memory
  | .error error => .error ⟨.operator error, line⟩ memory

end Evaluation

open Evaluation

/-- Evaluate an expression, operands from left to right.  The target of an
assignment has to be defined once its right side has been evaluated. -/
def Expr.eval : Expr → Evaluation Content
  | literal value _ => pure value.content
  | global name line => lookUp name line
  | assign name value => do
    let content ← value.eval
    let _ ← lookUp name value.lastLine
    modify fun memory => memory.define name content
    pure content
  | group inner _ => inner.eval
  | unary op operand => do
    let content ← operand.eval
    operate (op.apply content) operand.lastLine
  | binary op left right => do
    let a ← left.eval
    let b ← right.eval
    operate (op.apply a b) right.lastLine

/-- Execute a statement.  A variable is defined once its initial value is
known, which is `nil` if there is none. -/
def Stmt.exec : Stmt → Evaluation Unit
  | var name _ none _ => modify fun memory => memory.define name .nil
  | var name _ (some initial) _ => do
    let content ← initial.eval
    modify fun memory => memory.define name content
  | print value _ => do
    let content ← value.eval
    modify fun memory => memory.print content
  | expression value _ => do
    let _ ← value.eval

/-- Execute the statements of a program one after the other. -/
def Stmt.execAll : List Stmt → Evaluation Unit
  | [] => pure ()
  | statement :: rest => do
    statement.exec
    execAll rest

/-- Execute a program. -/
def Program.exec (program : Program) : Evaluation Unit := Stmt.execAll program.statements

/-! ## errors -/

namespace Evaluation

theorem lookUp_error {name : Text} {line : Nat} {memory memory' : Memory} {error : RuntimeError}
    (h : lookUp name line memory = .error error memory') :
    memory.environment name = none ∧ error = ⟨.undefinedVariable name, line⟩ ∧
      memory' = memory := by
  unfold lookUp at h
  split at h
  · cases h
  · next hname =>
    cases h
    exact ⟨hname, rfl, rfl⟩

theorem operate_error {result : Except OperatorError Content} {line : Nat}
    {memory memory' : Memory} {error : RuntimeError}
    (h : operate result line memory = .error error memory') :
    ∃ cause, result = .error cause ∧ error = ⟨.operator cause, line⟩ ∧ memory' = memory := by
  unfold operate at h
  split at h
  · cases h
  · next cause =>
    cases h
    exact ⟨cause, rfl, rfl, rfl⟩

/-- An evaluation that fails for the sake of the program only, never because a
stack is full. -/
def Sensible {α : Type} (evaluation : Evaluation α) : Prop :=
  ∀ memory error memory', evaluation memory = .error error memory' →
    error.cause.kind ≠ .stackOverflow

variable {α β : Type} {evaluation : Evaluation α} {next : α → Evaluation β}

namespace Sensible

theorem bind (h : evaluation.Sensible) (hnext : ∀ a, (next a).Sensible) :
    (evaluation >>= next).Sensible := by
  intro memory error memory' herror
  obtain hfirst | ⟨a, between, -, hrest⟩ := bind_error_cases herror
  · exact h _ _ _ hfirst
  · exact hnext a _ _ _ hrest

theorem pure (a : α) : Sensible (Pure.pure a) := by
  rintro memory error memory' ⟨⟩

theorem change (f : Memory → Memory) : Sensible (modify f : Evaluation Unit) := by
  rintro memory error memory' ⟨⟩

theorem lookUp (name : Text) (line : Nat) : Sensible (Evaluation.lookUp name line) := by
  intro memory error memory' herror
  obtain ⟨-, rfl, -⟩ := lookUp_error herror
  simp [Cause.kind]

theorem operate (result : Except OperatorError Content) (line : Nat) :
    Sensible (Evaluation.operate result line) := by
  intro memory error memory' herror
  obtain ⟨cause, -, rfl, -⟩ := operate_error herror
  cases cause <;> simp [Cause.kind]

end Sensible

end Evaluation

theorem Expr.sensible_eval (e : Expr) : e.eval.Sensible := by
  induction e with
  | literal value line => exact .pure _
  | global name line => exact .lookUp name line
  | assign name value ih =>
    exact ih.bind fun _ => (Sensible.lookUp _ _).bind fun _ => (Sensible.change _).bind fun _ =>
      .pure _
  | group inner line ih => exact ih
  | unary op operand ih => exact ih.bind fun _ => .operate _ _
  | binary op left right ihleft ihright =>
    exact ihleft.bind fun _ => ihright.bind fun _ => .operate _ _

theorem Stmt.sensible_exec (statement : Stmt) : statement.exec.Sensible := by
  cases statement with
  | var name nameLine initial line =>
    cases initial with
    | none => exact .change _
    | some e => exact e.sensible_eval.bind fun _ => .change _
  | print e line => exact e.sensible_eval.bind fun _ => .change _
  | expression e line => exact e.sensible_eval.bind fun _ => .pure _

theorem Program.sensible_exec (program : Program) : program.exec.Sensible := by
  rw [exec]
  induction program.statements with
  | nil => exact .pure _
  | cons statement rest ih => exact statement.sensible_exec.bind fun _ => ih

end Lox
