import Lox.Failure
import Lox.Field

/-!
# Lox.Opcode

The instruction set.

An instruction is one byte that says what to do, followed by its operands in
fields of fixed width.  The numbering of the operations is part of the format
of compiled code: `Opcode.ofCode?` finds an operation by its number, and
`Opcode.encode` writes an instruction.
-/

namespace Lox

/-- What an instruction does. -/
inductive Opcode where
  | ret
  | constant
  | negate
  | add
  | subtract
  | multiply
  | divide
  | pushNil
  | pushTrue
  | pushFalse
  | not
  | equal
  | greater
  | less
  | print
  | pop
  | defineGlobal
  | getGlobal
  | setGlobal
  deriving DecidableEq, Repr

namespace Opcode

/-- Every operation, in the order of their numbers. -/
def all : List Opcode :=
  [ret, constant, negate, add, subtract, multiply, divide, pushNil, pushTrue, pushFalse, not,
   equal, greater, less, print, pop, defineGlobal, getGlobal, setGlobal]

/-- The number of an operation. -/
def code : Opcode → Nat
  | ret => 0
  | constant => 1
  | negate => 2
  | add => 3
  | subtract => 4
  | multiply => 5
  | divide => 6
  | pushNil => 7
  | pushTrue => 8
  | pushFalse => 9
  | not => 10
  | equal => 11
  | greater => 12
  | less => 13
  | print => 14
  | pop => 15
  | defineGlobal => 16
  | getGlobal => 17
  | setGlobal => 18

/-- The name of an operation in listings. -/
def name : Opcode → Text
  | ret => text "OP_RETURN"
  | constant => text "OP_CONSTANT"
  | negate => text "OP_NEGATE"
  | add => text "OP_ADD"
  | subtract => text "OP_SUBTRACT"
  | multiply => text "OP_MULTIPLY"
  | divide => text "OP_DIVIDE"
  | pushNil => text "OP_NIL"
  | pushTrue => text "OP_TRUE"
  | pushFalse => text "OP_FALSE"
  | not => text "OP_NOT"
  | equal => text "OP_EQUAL"
  | greater => text "OP_GREATER"
  | less => text "OP_LESS"
  | print => text "OP_PRINT"
  | pop => text "OP_POP"
  | defineGlobal => text "OP_DEFINE_GLOBAL"
  | getGlobal => text "OP_GET_GLOBAL"
  | setGlobal => text "OP_SET_GLOBAL"

/-- The widths of the operands of an operation, in bytes: a pool index is one
byte wide. -/
def operandWidths : Opcode → List Nat
  | constant | defineGlobal | getGlobal | setGlobal => [1]
  | _ => []

/-- How many bytes the operands of an operation take. -/
def operandSize (op : Opcode) : Nat := op.operandWidths.foldr (fun width size => width + size) 0

/-- How many bytes an instruction takes. -/
def size (op : Opcode) : Nat := 1 + op.operandSize

theorem size_pos (op : Opcode) : 0 < op.size := by unfold size; omega

/-! ## decoding -/

/-- The operation with the given number, if there is one. -/
def ofCode? (code : Int) : Option Opcode := all.find? fun op => (op.code : Int) == code

/-- The operation with the given number; any other number is a defect. -/
def decode (code : Int) : Except Defect Opcode :=
  match ofCode? code with
  | some op => .ok op
  | none => .error (.unknownOpcode code)

/-- Every operation is found by its number. -/
@[simp] theorem ofCode?_code (op : Opcode) : ofCode? op.code = some op := by
  cases op <;> decide

/-- Only the number of an operation is found. -/
theorem code_of_ofCode? {code : Int} {op : Opcode} (h : ofCode? code = some op) :
    (op.code : Int) = code := by
  simpa using List.find?_some h

/-- Only the number of an operation is decoded. -/
theorem code_of_decode {code : Int} {op : Opcode} (h : decode code = .ok op) :
    (op.code : Int) = code := by
  unfold decode at h
  split at h
  · next hfound =>
    cases h
    exact code_of_ofCode? hfound
  · cases h

/-! ## encoding -/

/-- Operands in consecutive fields; a missing operand is zero. -/
def encodeOperands : List Nat → List Int → List UInt8
  | [], _ => []
  | width :: widths, operands =>
    Field.write (List.replicate width 0) 0 width (operands.headD 0)
      ++ encodeOperands widths operands.tail

/-- The bytes of an instruction; operands beyond those of the operation are
left out. -/
def encode (op : Opcode) (operands : List Int) : List UInt8 :=
  UInt8.ofNat op.code :: encodeOperands op.operandWidths operands

end Opcode

/-- The bytes of the instruction whose operation has the given number; none if
there is no such operation. -/
def encodeInstruction (code : Int) (operands : List Int) : List UInt8 :=
  match Opcode.ofCode? code with
  | some op => op.encode operands
  | none => []

end Lox
