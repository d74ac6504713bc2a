import Lox.Chunk
import Lox.Value.Operators

/-!
# Lox.Chunk.Listing

Compiled units as text, one line for each instruction.

A line shows the offset, the line of the source (or a bar where it is that of
the byte before), the name of the operation, and for an operand the constant
it refers to.  Any offset may be asked for: bytes and lines that do not exist
are shown as such.
-/

namespace Lox

namespace Chunk

/-- An offset, in its last four digits. -/
def address (offset : Int) : Text := Text.takeLast 4 (text "0000" ++ Text.ofInt offset)

/-- The column for the line of the source. -/
def lineColumn (chunk : Chunk) (offset : Int) : Text :=
  if 0 < offset ∧ chunk.line? offset = chunk.line? (offset - 1) then text "   |"
  else Text.alignRight 4 (Text.ofInt? (chunk.line? offset))

/-- How the constant with the given index is shown. -/
def displayConstant (chunk : Chunk) (heap : Heap) (index : Option Int) : Except Defect Text :=
  match chunk.constant? index with
  | some value => value.display heap
  | none => .ok (text "<undef>")

/-- The line for the instruction at an offset, after the offset of the next
instruction. -/
def listInstruction (chunk : Chunk) (heap : Heap) (offset : Int) : Except Defect (Int × Text) :=
  let start := address offset ++ text " " ++ chunk.lineColumn offset ++ text " "
  let byte := chunk.byte? offset
  match byte.bind Opcode.ofCode? with
  | none => .ok (offset + 1, start ++ text "Unknown opcode " ++ Text.ofInt? byte)
  | some op =>
    match op.operandWidths with
    | [] => .ok (offset + op.size, start ++ op.name)
    | _ => do
      let index := chunk.byte? (offset + 1)
      let constant ← chunk.displayConstant heap index
      pure (offset + op.size,
        start ++ Text.alignLeft 16 op.name ++ text " "
          ++ Text.alignRight 4 (Text.ofInt? index) ++ text " '" ++ constant ++ text "'")

/-- The next instruction is always further on. -/
theorem lt_of_listInstruction {chunk : Chunk} {heap : Heap} {offset next : Int} {line : Text}
    (h : chunk.listInstruction heap offset = .ok (next, line)) : offset < next := by
  simp only [listInstruction] at h
  split at h
  · simp only [Except.ok.injEq, Prod.mk.injEq] at h
    omega
  · next op _ =>
    have hpos := op.size_pos
    split at h
    · simp only [Except.ok.injEq, Prod.mk.injEq] at h
      omega
    · cases hd : chunk.displayConstant heap (chunk.byte? (offset + 1)) with
      | error defect => simp [hd, bind, Except.bind] at h
      | ok constant =>
        simp only [hd, bind, Except.bind, pure, Except.pure, Except.ok.injEq,
          Prod.mk.injEq] at h
        omega

/-- The lines for the instructions from an offset to the end of the code. -/
def listFrom (chunk : Chunk) (heap : Heap) (offset : Int) : Except Defect Text :=
  if offset < chunk.length then
    match _h : chunk.listInstruction heap offset with
    | .error defect => .error defect
    | .ok (next, line) => do
      let rest ← listFrom chunk heap next
      pure (line ++ newline :: rest)
  else
    .ok []
termination_by (chunk.length - offset).toNat
decreasing_by
  have := lt_of_listInstruction _h
  omega

/-- The listing of a unit, under a heading with its name. -/
def listing (chunk : Chunk) (heap : Heap) (name : Text) : Except Defect Text := do
  let lines ← chunk.listFrom heap 0
  pure (text "== " ++ name ++ text " ==\n" ++ lines)

end Chunk

end Lox
