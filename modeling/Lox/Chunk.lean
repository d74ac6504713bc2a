import Lox.Opcode
import Lox.Syntax

/-!
# Lox.Chunk

Compiled units: code, the line of every byte of it, and a constant pool.

Each byte of the code is kept with its line, so that there is exactly one
line for each byte.  A pool holds at most `poolCapacity` values;
`Chunk.pushConstant?` refuses one more.
-/

namespace Lox

/-- A byte of code and the line of the source it was made for. -/
structure CodeByte where
  byte : UInt8
  line : Int
  deriving DecidableEq, Repr

/-- A compiled unit. -/
structure Chunk where
  code : Array CodeByte
  constants : Array Value
  deriving DecidableEq

namespace Chunk

/-- The unit without code. -/
def empty : Chunk := ⟨#[], #[]⟩

/-- How many bytes of code there are. -/
def length (chunk : Chunk) : Nat := chunk.code.size

/-- The bytes of the code. -/
def bytes (chunk : Chunk) : List UInt8 := chunk.code.toList.map CodeByte.byte

/-- The lines of the bytes of the code. -/
def lines (chunk : Chunk) : List Int := chunk.code.toList.map CodeByte.line

/-! ## writing -/

/-- Append a byte; of an integer outside the range of bytes, only the
remainder modulo 256 counts. -/
def write (chunk : Chunk) (byte line : Int) : Chunk :=
  { chunk with code := chunk.code.push ⟨UInt8.ofInt byte, line⟩ }

/-- Append bytes that share a line. -/
def writeAll (chunk : Chunk) (bytes : List Int) (line : Int) : Chunk :=
  bytes.foldl (fun chunk byte => chunk.write byte line) chunk

/-- Append the bytes of an instruction; the answer begins with the offset of
the first one. -/
def append (chunk : Chunk) (bytes : List UInt8) (line : Int) : Nat × Chunk :=
  (chunk.length, chunk.writeAll (bytes.map fun byte => byte.toNat) line)

/-! ## the pool -/

/-- Append a constant to the pool, with its index, unless the pool is full. -/
def pushConstant? (chunk : Chunk) (value : Value) : Option (Nat × Chunk) :=
  if chunk.constants.size < poolCapacity then
    some (chunk.constants.size, { chunk with constants := chunk.constants.push value })
  else
    none

/-- What is said when a constant does not fit. -/
def poolFullMessage : Text :=
  text "A chunk cannot hold more than " ++ Text.ofNat poolCapacity ++ text " constants"

/-- The constant with the given index, if there is one. -/
def constant? (chunk : Chunk) : Option Int → Option Value
  | some (.ofNat index) => chunk.constants[index]?
  | _ => none

/-- The constant with the given index; an index without a constant is a
defect. -/
def constant (chunk : Chunk) (index : Option Int) : Except Defect Value :=
  match chunk.constant? index with
  | some value => .ok value
  | none => .error (.constantOutOfRange index)

/-! ## reading the code -/

/-- The byte at an offset, if there is one. -/
def byte? (chunk : Chunk) (offset : Int) : Option Int :=
  match offset with
  | .ofNat index => chunk.code[index]?.map fun entry => (entry.byte.toNat : Int)
  | .negSucc _ => none

theorem byte?_eq {chunk : Chunk} {offset : Nat} (h : offset < chunk.code.size) :
    chunk.byte? offset = some (chunk.code[offset].byte.toNat : Int) := by
  show (chunk.code[offset]?).map _ = _
  rw [Array.getElem?_eq_getElem h, Option.map_some]

/-- The line of the byte at an offset, if there is one. -/
def line? (chunk : Chunk) (offset : Int) : Option Int :=
  match offset with
  | .ofNat index => chunk.code[index]?.map CodeByte.line
  | .negSucc _ => none

end Chunk

end Lox
