import Lox.Proofs.Acceptance
import Lox.Proofs.Evaluation
import Lox.Proofs.Joining
import Lox.Proofs.Parser.Naturality

/-!
# Lox.Proofs.Relocation

Programs further down in a source.

Tokens that stand some lines further down derive the same tree further down,
which asks for the same constants and is nested as deep.  It does the same, but
for the lines of its errors (`Stmt.execAll_moved`), and it does so whatever was
printed before (`Stmt.oblivious_execAll`).
-/

namespace Lox

/-! ## trees -/

/-- An expression, some lines further down. -/
def Expr.moved (lines : Nat) : Expr → Expr
  | literal value line => literal value (line + lines)
  | global name line => global name (line + lines)
  | assign name value => assign name (value.moved lines)
  | group inner line => group (inner.moved lines) (line + lines)
  | unary op operand => unary op (operand.moved lines)
  | binary op left right => binary op (left.moved lines) (right.moved lines)

/-- A statement, some lines further down. -/
def Stmt.moved (lines : Nat) : Stmt → Stmt
  | var name nameLine initial line =>
    var name (nameLine + lines) (initial.map (Expr.moved lines)) (line + lines)
  | print value line => print (value.moved lines) (line + lines)
  | expression value line => expression (value.moved lines) (line + lines)

section

variable {lines : Nat} {level : Level} {tokens : List Token} {e : Expr} {statement : Stmt}
  {statements : List Stmt}

theorem Expr.moved_eq_mapLines (lines : Nat) : Expr.moved lines = Expr.mapLines (· + lines) := by
  funext e
  induction e with
  | assign name value ih => rw [moved, mapLines, ih]
  | group inner line ih => rw [moved, mapLines, ih]
  | unary op operand ih => rw [moved, mapLines, ih]
  | binary op left right ihleft ihright => rw [moved, mapLines, ihleft, ihright]
  | _ => rfl

theorem Stmt.moved_eq_mapLines (lines : Nat) : Stmt.moved lines = Stmt.mapLines (· + lines) := by
  funext statement
  cases statement <;> simp only [moved, mapLines, Expr.moved_eq_mapLines]

theorem Expr.lastLine_moved (lines : Nat) (e : Expr) :
    (e.moved lines).lastLine = e.lastLine + lines := by
  rw [moved_eq_mapLines, lastLine_mapLines]

theorem Expr.nesting_moved (lines : Nat) (e : Expr) : (e.moved lines).nesting = e.nesting := by
  induction e with
  | assign name value ih => rw [moved, nesting, nesting, ih]
  | group inner line ih => rw [moved, nesting, nesting, ih]
  | unary op operand ih => rw [moved, nesting, nesting, ih]
  | binary op left right ihleft ihright => rw [moved, nesting, nesting, ihleft, ihright]
  | _ => rfl

theorem Expr.constants_moved (lines : Nat) (e : Expr) :
    (e.moved lines).constants = e.constants := by
  rw [moved_eq_mapLines, constants_mapLines]

theorem Stmt.constants_moved (lines : Nat) (statement : Stmt) :
    (statement.moved lines).constants = statement.constants := by
  rw [moved_eq_mapLines, constants_mapLines]

theorem Stmt.Shallow.moved (h : statement.Shallow) (lines : Nat) :
    (statement.moved lines).Shallow := by
  intro e he
  obtain ⟨inner, hinner, rfl⟩ : ∃ inner, statement.expression? = some inner ∧
      inner.moved lines = e := by
    cases statement with
    | var name nameLine initial line => exact Option.map_eq_some_iff.1 he
    | print value line => exact ⟨value, rfl, Option.some.inj he⟩
    | expression value line => exact ⟨value, rfl, Option.some.inj he⟩
  rw [inner.nesting_moved]
  exact h inner hinner

/-! ## derivations -/

theorem Level.Derives.moved (h : level.Derives tokens e) (lines : Nat) :
    level.Derives (tokens.map (Token.moved lines)) (e.moved lines) := by
  induction h with
  | tighter _ ih => exact .tighter ih
  | assign hname hsign _ ih => exact .assign hname hsign ih
  | binary hsign _ _ ihleft ihright =>
    rw [List.map_append, List.map_cons]
    exact .binary hsign ihleft ihright
  | unary hsign _ ih => exact .unary hsign ih
  | literal h => exact .literal h
  | global h => exact .global h
  | group hopening hclosing _ ih =>
    rw [List.map_append, List.map_cons]
    exact .group hopening hclosing ih

theorem Stmt.Derives.moved (h : statement.Derives tokens) (lines : Nat) :
    Stmt.Derives (tokens.map (Token.moved lines)) (statement.moved lines) := by
  cases h with
  | declare hintro hname hsemicolon => exact .declare hintro hname hsemicolon
  | define hintro hname hsign hinitial hsemicolon =>
    rw [List.map_append]
    exact .define hintro hname hsign (hinitial.moved lines) hsemicolon
  | print hintro hvalue hsemicolon =>
    rw [List.map_append]
    exact .print hintro (hvalue.moved lines) hsemicolon
  | expression hvalue hsemicolon =>
    rw [List.map_append]
    exact .expression (hvalue.moved lines) hsemicolon

theorem Stmt.DerivesAll.moved (h : Stmt.DerivesAll tokens statements) (lines : Nat) :
    Stmt.DerivesAll (tokens.map (Token.moved lines)) (statements.map (Stmt.moved lines)) := by
  induction h with
  | nil => exact .nil
  | cons hhead _ ih =>
    rw [List.map_append, List.map_cons]
    exact .cons (hhead.moved lines) ih

/-- Declarations that follow others. -/
theorem Stmt.DerivesAll.append {more : List Token} {rest : List Stmt}
    (h : Stmt.DerivesAll tokens statements) (hmore : Stmt.DerivesAll more rest) :
    Stmt.DerivesAll (tokens ++ more) (statements ++ rest) := by
  induction h with
  | nil => exact hmore
  | cons hhead _ ih =>
    rw [List.append_assoc, List.cons_append]
    exact .cons hhead ih

end

/-! ## errors further down -/

/-- An error, some lines further down. -/
def RuntimeError.moved (lines : Nat) (error : RuntimeError) : RuntimeError :=
  { error with line := error.line + lines }

namespace Evaluation

/-- A result whose error, if it is one, is some lines further down. -/
def below {α : Type} (lines : Nat) :
    EStateM.Result RuntimeError Memory α → EStateM.Result RuntimeError Memory α
  | .ok value memory => .ok value memory
  | .error error memory => .error (error.moved lines) memory

/-- An evaluation that fails as another one does, some lines further down. -/
def moved {α : Type} (lines : Nat) (evaluation : Evaluation α) : Evaluation α := fun memory =>
  below lines (evaluation memory)

variable {α β : Type}

theorem moved_bind (lines : Nat) (evaluation : Evaluation α) (next : α → Evaluation β) :
    (evaluation >>= next).moved lines =
      evaluation.moved lines >>= fun value => (next value).moved lines := by
  funext memory
  show below lines ((evaluation >>= next) memory) = _
  cases h : evaluation memory with
  | ok value memory' =>
    have hmoved : evaluation.moved lines memory = .ok value memory' := by rw [moved, h, below]
    rw [bind_ok h, bind_ok hmoved, moved]
  | error error memory' =>
    have hmoved : evaluation.moved lines memory = .error (error.moved lines) memory' := by
      rw [moved, h, below]
    rw [bind_error h, bind_error hmoved, below]

theorem lookUp_moved (name : Text) (line lines : Nat) :
    lookUp name (line + lines) = (lookUp name line).moved lines := by
  funext memory
  unfold moved lookUp
  cases memory.environment name <;> rfl

theorem operate_moved (result : Except OperatorError Content) (line lines : Nat) :
    operate result (line + lines) = (operate result line).moved lines := by
  funext memory
  cases result <;> rfl

end Evaluation

open Evaluation

/-- An expression further down has the same value, or fails in the same way
further down. -/
theorem Expr.eval_moved (lines : Nat) (e : Expr) :
    (e.moved lines).eval = e.eval.moved lines := by
  induction e with
  | literal value line => rfl
  | global name line => exact lookUp_moved name line lines
  | assign name value ih =>
    rw [moved, eval, eval, ih, value.lastLine_moved]
    simp only [lookUp_moved, moved_bind]
    rfl
  | group inner line ih => exact ih
  | unary op operand ih =>
    rw [moved, eval, eval, ih, operand.lastLine_moved]
    simp only [operate_moved, moved_bind]
  | binary op left right ihleft ihright =>
    rw [moved, eval, eval, ihleft, ihright, right.lastLine_moved]
    simp only [operate_moved, moved_bind]

theorem Stmt.exec_moved (lines : Nat) (statement : Stmt) :
    (statement.moved lines).exec = statement.exec.moved lines := by
  cases statement with
  | var name nameLine initial line =>
    cases initial with
    | none => rfl
    | some e =>
      show ((e.moved lines).eval >>= _) = _
      rw [e.eval_moved, exec, moved_bind]
      rfl
  | print e line =>
    rw [moved, exec, exec, e.eval_moved, moved_bind]
    rfl
  | expression e line =>
    rw [moved, exec, exec, e.eval_moved, moved_bind]
    rfl

/-- Statements further down do the same, and fail in the same way further
down. -/
theorem Stmt.execAll_moved (lines : Nat) (statements : List Stmt) :
    Stmt.execAll (statements.map (Stmt.moved lines)) = (Stmt.execAll statements).moved lines := by
  induction statements with
  | nil => rfl
  | cons statement rest ih =>
    rw [List.map_cons, execAll, execAll, statement.exec_moved, ih, moved_bind]

/-- Statements that follow others are executed after them. -/
theorem Stmt.execAll_append (statements rest : List Stmt) :
    Stmt.execAll (statements ++ rest) =
      Stmt.execAll statements >>= fun _ => Stmt.execAll rest := by
  induction statements with
  | nil => rfl
  | cons statement statements ih =>
    rw [List.cons_append, execAll, execAll, ih, bind_assoc]

/-! ## what was printed before -/

/-- The memory of a program before which some texts were printed. -/
def Memory.after (texts : List Text) (memory : Memory) : Memory :=
  { memory with printed := texts ++ memory.printed }

namespace Evaluation

/-- A result before which some texts were printed. -/
def printing {α : Type} (texts : List Text) :
    EStateM.Result RuntimeError Memory α → EStateM.Result RuntimeError Memory α
  | .ok value memory => .ok value (memory.after texts)
  | .error error memory => .error error (memory.after texts)

/-- An evaluation that does the same whatever was printed before. -/
def Oblivious {α : Type} (evaluation : Evaluation α) : Prop :=
  ∀ texts memory, evaluation (memory.after texts) = printing texts (evaluation memory)

namespace Oblivious

variable {α β : Type} {evaluation : Evaluation α} {next : α → Evaluation β}

theorem bind (h : evaluation.Oblivious) (hnext : ∀ value, (next value).Oblivious) :
    (evaluation >>= next).Oblivious := by
  intro texts memory
  have hfirst := h texts memory
  cases hresult : evaluation memory with
  | ok value memory' =>
    rw [hresult] at hfirst
    rw [bind_ok hfirst, bind_ok hresult, hnext]
  | error error memory' =>
    rw [hresult] at hfirst
    rw [bind_error hfirst, bind_error hresult]
    rfl

theorem pure (value : α) : Oblivious (Pure.pure value) := fun _ _ => rfl

theorem define (name : Text) (content : Content) :
    Oblivious (modify fun memory => memory.define name content) := fun _ _ => rfl

theorem print (content : Content) : Oblivious (modify fun memory => memory.print content) := by
  intro texts memory
  have hprint : (memory.after texts).print content = (memory.print content).after texts := by
    rw [Memory.print, Memory.print, Memory.after, Memory.after, List.append_assoc]
  exact congrArg (EStateM.Result.ok ()) hprint

theorem lookUp (name : Text) (line : Nat) : Oblivious (Evaluation.lookUp name line) := by
  intro texts memory
  have henvironment : (memory.after texts).environment name = memory.environment name := rfl
  unfold Evaluation.lookUp
  rw [henvironment]
  cases memory.environment name <;> rfl

theorem operate (result : Except OperatorError Content) (line : Nat) :
    Oblivious (Evaluation.operate result line) := by
  intro texts memory
  cases result <;> rfl

end Oblivious

end Evaluation

theorem Expr.oblivious_eval (e : Expr) : e.eval.Oblivious := by
  induction e with
  | literal value line => exact .pure _
  | global name line => exact .lookUp name line
  | assign name value ih =>
    exact ih.bind fun _ => (Oblivious.lookUp _ _).bind fun _ => (Oblivious.define _ _).bind fun _ =>
      .pure _
  | group inner line ih => exact ih
  | unary op operand ih => exact ih.bind fun _ => .operate _ _
  | binary op left right ihleft ihright =>
    exact ihleft.bind fun _ => ihright.bind fun _ => .operate _ _

theorem Stmt.oblivious_exec (statement : Stmt) : statement.exec.Oblivious := by
  cases statement with
  | var name nameLine initial line =>
    cases initial with
    | none => exact .define _ _
    | some e => exact e.oblivious_eval.bind fun _ => .define _ _
  | print e line => exact e.oblivious_eval.bind fun _ => .print _
  | expression e line => exact e.oblivious_eval.bind fun _ => .pure _

/-- Statements do the same whatever was printed before. -/
theorem Stmt.oblivious_execAll (statements : List Stmt) : (Stmt.execAll statements).Oblivious := by
  induction statements with
  | nil => exact .pure _
  | cons statement rest ih => exact statement.oblivious_exec.bind fun _ => ih

theorem Program.oblivious_exec (program : Program) : program.exec.Oblivious :=
  Stmt.oblivious_execAll program.statements

end Lox
