import Lox.Chunk
import Lox.Parser.Program

/-!
# Lox.Chunk.Lowering

Compiling: trees as code.

An expression becomes code that leaves its value on the stack: the code of
its operands from left to right, then the operation.  Pool entries are
numbered in the order of the source, so the code of a tree depends only on
the tree and on how many entries come before it.  The bytes of an instruction
carry the line of the last token of the construct that it completes.

The strings that a source asks for are stored in the heap in the order of the
source, whether or not the source is accepted.
-/

namespace Lox

/-- An instruction to be written: operation, operands, line. -/
structure Instruction where
  opcode : Opcode
  operands : List Int
  line : Nat
  deriving DecidableEq, Repr

/-! ## expressions -/

/-- The code of a literal whose pool entry, if it needs one, is the next. -/
def Literal.code (entry line : Nat) : Literal → Instruction
  | .nil => ⟨.pushNil, [], line⟩
  | .bool true => ⟨.pushTrue, [], line⟩
  | .bool false => ⟨.pushFalse, [], line⟩
  | .number _ => ⟨.constant, [entry], line⟩
  | .string _ => ⟨.constant, [entry], line⟩

/-- The operation of a unary operator. -/
def UnaryOp.opcode : UnaryOp → Opcode
  | negate => .negate
  | not => .not

/-- The operations of a binary operator: the negated comparisons are a
comparison and a negation. -/
def BinaryOp.opcodes : BinaryOp → List Opcode
  | add => [.add]
  | subtract => [.subtract]
  | multiply => [.multiply]
  | divide => [.divide]
  | equal => [.equal]
  | notEqual => [.equal, .not]
  | greater => [.greater]
  | greaterEqual => [.less, .not]
  | less => [.less]
  | lessEqual => [.greater, .not]

/-- The code of an expression before which the pool has `entry` entries. -/
def Expr.code (entry : Nat) : Expr → List Instruction
  | .literal value line => [value.code entry line]
  | .global _ line => [⟨.getGlobal, [entry], line⟩]
  | .assign _ value => value.code (entry + 1) ++ [⟨.setGlobal, [entry], value.lastLine⟩]
  | .group inner _ => inner.code entry
  | .unary op operand => operand.code entry ++ [⟨op.opcode, [], operand.lastLine⟩]
  | .binary op left right =>
    left.code entry ++ right.code (entry + left.constants.length)
      ++ op.opcodes.map fun opcode => ⟨opcode, [], right.lastLine⟩

/-! ## statements and programs -/

/-- The code of a statement before which the pool has `entry` entries. -/
def Stmt.code (entry : Nat) : Stmt → List Instruction
  | .var _ nameLine none line =>
    [⟨.pushNil, [], nameLine⟩, ⟨.defineGlobal, [entry], line⟩]
  | .var _ _ (some initial) line =>
    initial.code (entry + 1) ++ [⟨.defineGlobal, [entry], line⟩]
  | .print value line => value.code entry ++ [⟨.print, [], line⟩]
  | .expression value line => value.code entry ++ [⟨.pop, [], line⟩]

/-- The code of consecutive statements. -/
def Stmt.codeAll (entry : Nat) : List Stmt → List Instruction
  | [] => []
  | statement :: rest =>
    statement.code entry ++ codeAll (entry + statement.constants.length) rest

/-- The code of a program, which ends by returning nothing. -/
def Program.code (program : Program) : List Instruction :=
  Stmt.codeAll 0 program.statements ++ [⟨.ret, [], program.endLine⟩]

/-- The code of a lone expression, which ends by returning its value. -/
def Query.code (query : Query) : List Instruction :=
  query.expression.code 0 ++ [⟨.ret, [], query.endLine⟩]

/-! ## constants -/

/-- The value of a constant; a text is stored as a new string. -/
def Constant.place (heap : Heap) : Constant → Value × Heap
  | .number value => (.number value, heap)
  | .text content =>
    let (handle, heap) := heap.allocate content
    (.string handle, heap)

/-- The values of consecutive constants. -/
def Constant.placeAll (heap : Heap) : List Constant → List Value × Heap
  | [] => ([], heap)
  | constant :: rest =>
    let (value, heap) := constant.place heap
    let (values, heap) := placeAll heap rest
    (value :: values, heap)

/-! ## chunks -/

/-- The unit with the given code and pool. -/
def Chunk.ofCode (code : List Instruction) (constants : List Value) : Chunk :=
  code.foldl
    (fun chunk instruction =>
      (chunk.append (instruction.opcode.encode instruction.operands)
        instruction.line).2)
    ⟨#[], constants.toArray⟩

/-- Compile what a source was found to be: place its constants, and lower its
tree if it has one. -/
def Parsed.compile {α : Type} (parsed : Parsed α) (code : α → List Instruction) (heap : Heap) :
    Except (List Diagnostic) Chunk × Heap :=
  let (values, heap) := Constant.placeAll heap parsed.constants
  (parsed.result.map fun tree => Chunk.ofCode (code tree) values, heap)

/-- Compile a program. -/
def Program.compile (source : Text) (heap : Heap) : Except (List Diagnostic) Chunk × Heap :=
  (Program.parse source).compile Program.code heap

/-- Compile a lone expression. -/
def Query.compile (source : Text) (heap : Heap) : Except (List Diagnostic) Chunk × Heap :=
  (Query.parse source).compile Query.code heap

end Lox
