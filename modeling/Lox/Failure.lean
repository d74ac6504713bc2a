import Lox.Value

/-!
# Lox.Failure

What can go wrong when values are computed.

A program may be at fault: an operator meets operands it is not defined on, a
variable is not defined, the stack is full.  Each such cause has a kind and a
wording.  Or a promise may be broken that compiled code and the handles in it
keep: a defect.  Defects have a wording too, but no line and no kind.
-/

namespace Lox

/-! ## operators on the wrong types -/

/-- The arithmetic operators on two operands. -/
inductive Arithmetic where
  | addition | subtraction | multiplication | division
  deriving DecidableEq, Repr

/-- How an arithmetic operator is called. -/
def Arithmetic.name : Arithmetic → Text
  | .addition => text "addition"
  | .subtraction => text "subtraction"
  | .multiplication => text "multiplication"
  | .division => text "division"

/-- How an arithmetic operator is written. -/
def Arithmetic.symbol : Arithmetic → Text
  | .addition => text "+"
  | .subtraction => text "-"
  | .multiplication => text "*"
  | .division => text "/"

/-- The operators that compare numbers. -/
inductive NumberOrder where
  | greater | less
  deriving DecidableEq, Repr

/-- How a comparison is written. -/
def NumberOrder.symbol : NumberOrder → Text
  | .greater => text ">"
  | .less => text "<"

/-- An operator applied to operands of types it is not defined on. -/
inductive OperatorError where
  | arithmetic (operator : Arithmetic) (left right : ValueType)
  | negation (operand : ValueType)
  | comparison (operator : NumberOrder) (left right : ValueType)
  deriving DecidableEq, Repr

/-- The wording of an operator error. -/
def OperatorError.message : OperatorError → Text
  | .arithmetic operator left right =>
    text "Cannot perform " ++ operator.name ++ text " (" ++ operator.symbol
      ++ text ") between types " ++ left.name ++ text " and " ++ right.name
  | .negation operand => text "Cannot perform unary negation (-) on type " ++ operand.name
  | .comparison operator left right =>
    text "Operands of comparison (" ++ operator.symbol ++ text ") must be numbers, got "
      ++ left.name ++ text " and " ++ right.name

/-! ## causes -/

/-- Why a program stops with an error. -/
inductive Cause where
  | operator (error : OperatorError)
  | undefinedVariable (name : Text)
  | stackOverflow
  deriving DecidableEq, Repr

/-- The kinds of error that a program can stop with. -/
inductive CauseKind where
  | arithmetic | negation | comparison | undefinedVariable | stackOverflow
  deriving DecidableEq, Repr

namespace Cause

/-- The kind of a cause. -/
def kind : Cause → CauseKind
  | operator (.arithmetic ..) => .arithmetic
  | operator (.negation ..) => .negation
  | operator (.comparison ..) => .comparison
  | undefinedVariable _ => .undefinedVariable
  | stackOverflow => .stackOverflow

/-- The wording of a cause. -/
def message : Cause → Text
  | operator error => error.message
  | undefinedVariable name => text "Undefined variable '" ++ name ++ text "'."
  | stackOverflow => text "Maximum stack size exceeded"

end Cause

/-! ## defects -/

/-- A broken promise of compiled code, or of a handle in it. -/
inductive Defect where
  /-- A handle that no stored string answers to. -/
  | danglingHandle (handle : Handle)
  /-- A value is taken from an empty stack. -/
  | popFromEmptyStack
  /-- A value is looked at on an empty stack. -/
  | peekAtEmptyStack
  /-- A pool index, or a missing one, that no constant answers to. -/
  | constantOutOfRange (index : Option Int)
  /-- A global is named by a constant that is no string. -/
  | nameNotString
  /-- A byte that is no instruction stands where one should begin. -/
  | unknownOpcode (byte : Int)
  /-- The code ends before it returns. -/
  | missingReturn
  deriving DecidableEq, Repr

/-- How a number that may be missing is shown. -/
def Text.ofInt? : Option Int → Text
  | some n => Text.ofInt n
  | none => text "undefined"

/-- The wording of a defect. -/
def Defect.message : Defect → Text
  | .danglingHandle handle =>
    text "Dangling heap handle " ++ Text.ofInt handle.index ++ text "@"
      ++ Text.ofInt handle.generation
  | .popFromEmptyStack =>
    text "Attempting to pop an empty stack. This is an error in the compiler."
  | .peekAtEmptyStack =>
    text "Attempting to read an empty stack. This is an error in the compiler."
  | .constantOutOfRange index =>
    text "Constant " ++ Text.ofInt? index ++
      text " is out of range. This is an error in the compiler."
  | .nameNotString => text "Global name operand is not a string constant"
  | .unknownOpcode byte =>
    text "Unknown opcode " ++ Text.ofInt byte ++ text ". The chunk is corrupt."
  | .missingReturn => text "Chunk ended without a return instruction"

/-- Why an operation has no result. -/
inductive Failure where
  | cause (cause : Cause)
  | defect (defect : Defect)
  deriving DecidableEq, Repr

end Lox
