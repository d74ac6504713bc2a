import Lox.Decimal

/-!
# Lox.Syntax

Programs as trees.

A program is a list of statements over expressions.  Trees keep what the
listing of the compiled program and its error messages need of the layout:
the line of the token that ends each construct.  `Expr.lastLine` is the line
of the last token of an expression, and `Expr.constants` lists, in the order
of the source, what the expression asks the constant pool to hold.
-/

namespace Lox

/-! ## limits -/

/-- How many constants a pool holds. -/
def poolCapacity : Nat := 256

/-- How deep expressions may be nested. -/
def nestingLimit : Nat := 256

/-! ## operators and literals -/

/-- The operators written before their operand. -/
inductive UnaryOp where
  | negate | not
  deriving DecidableEq, Repr

/-- The operators written between their operands. -/
inductive BinaryOp where
  | add | subtract | multiply | divide
  | equal | notEqual | greater | greaterEqual | less | lessEqual
  deriving DecidableEq, Repr

/-- Values written directly in a source. -/
inductive Literal where
  | nil
  | bool (value : Bool)
  | number (value : Float)
  | string (content : Text)
  deriving DecidableEq

/-- What a constant pool holds: the numbers and strings of a source, and the
names of its variables. -/
inductive Constant where
  | number (value : Float)
  | text (content : Text)
  deriving DecidableEq

/-- The pool entry that a literal needs, if it needs one. -/
def Literal.constant? : Literal → Option Constant
  | .nil => none
  | .bool _ => none
  | .number value => some (.number value)
  | .string content => some (.text content)

/-! ## expressions -/

/-- Expressions.  The line of a leaf is that of its token, the line of a group
that of its closing parenthesis. -/
inductive Expr where
  | literal (value : Literal) (line : Nat)
  | global (name : Text) (line : Nat)
  | assign (name : Text) (value : Expr)
  | group (inner : Expr) (line : Nat)
  | unary (op : UnaryOp) (operand : Expr)
  | binary (op : BinaryOp) (left right : Expr)
  deriving DecidableEq

namespace Expr

/-- The line of the last token of an expression. -/
def lastLine : Expr → Nat
  | literal _ line => line
  | global _ line => line
  | assign _ value => value.lastLine
  | group _ line => line
  | unary _ operand => operand.lastLine
  | binary _ _ right => right.lastLine

/-- The pool entries of an expression, in the order of the source. -/
def constants : Expr → List Constant
  | literal value _ => value.constant?.toList
  | global name _ => [.text name]
  | assign name value => .text name :: value.constants
  | group inner _ => inner.constants
  | unary _ operand => operand.constants
  | binary _ left right => left.constants ++ right.constants

end Expr

/-! ## statements and programs -/

/-- Statements.  `line` is that of the closing semicolon, `nameLine` that of
the declared name. -/
inductive Stmt where
  | var (name : Text) (nameLine : Nat) (initial : Option Expr) (line : Nat)
  | print (value : Expr) (line : Nat)
  | expression (value : Expr) (line : Nat)
  deriving DecidableEq

/-- The pool entries of a statement, in the order of the source. -/
def Stmt.constants : Stmt → List Constant
  | var name _ none _ => [.text name]
  | var name _ (some initial) _ => .text name :: initial.constants
  | print value _ => value.constants
  | expression value _ => value.constants

/-- A program: its statements, and the line on which the source ends. -/
structure Program where
  statements : List Stmt
  endLine : Nat
  deriving DecidableEq

/-- The pool entries of a program, in the order of the source. -/
def Program.constants (program : Program) : List Constant :=
  program.statements.flatMap Stmt.constants

/-- An expression that stands alone, and the line on which the source ends. -/
structure Query where
  expression : Expr
  endLine : Nat
  deriving DecidableEq

end Lox
