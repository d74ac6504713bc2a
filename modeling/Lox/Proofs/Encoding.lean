import Lox.Chunk.Lowering
import Lox.Proofs.Field

/-!
# Lox.Proofs.Encoding

Code as bytes.

The bytes of a compiled unit are the bytes of its instructions one after the
other, each with the line of its instruction (`Chunk.code_ofCode`).  So where
the code of a unit goes on with an instruction, its first byte is the number of
the operation and the next one the operand (`Chunk.GoesOn`).
-/

namespace Lox

/-! ## bytes of instructions -/

/-- The bytes of an instruction with their line. -/
def Instruction.bytes (instruction : Instruction) : List CodeByte :=
  (instruction.opcode.encode instruction.operands).map fun byte => ⟨byte, instruction.line⟩

/-- How many bytes some code takes. -/
def byteCount : List Instruction → Nat
  | [] => 0
  | instruction :: code => instruction.opcode.size + byteCount code

@[simp] theorem byteCount_nil : byteCount [] = 0 := rfl

@[simp] theorem byteCount_cons (instruction : Instruction) (code : List Instruction) :
    byteCount (instruction :: code) = instruction.opcode.size + byteCount code := rfl

@[simp] theorem byteCount_append (code code' : List Instruction) :
    byteCount (code ++ code') = byteCount code + byteCount code' := by
  induction code with
  | nil => simp
  | cons instruction code ih =>
    rw [List.cons_append, byteCount_cons, byteCount_cons, ih, Nat.add_assoc]

/-- Of two fronts of some code, the one with fewer bytes is a front of the
other. -/
theorem prefix_of_byteCount_le {before before' code : List Instruction} (h : before <+: code)
    (h' : before' <+: code) (hle : byteCount before ≤ byteCount before') : before <+: before' := by
  rcases List.prefix_or_prefix_of_prefix h h' with hfront | ⟨rest, rfl⟩
  · exact hfront
  · cases rest with
    | nil => simp
    | cons instruction rest =>
      have hpos := instruction.opcode.size_pos
      rw [byteCount_append, byteCount_cons] at hle
      omega

theorem eq_of_byteCount_eq {before before' code : List Instruction} (h : before <+: code)
    (h' : before' <+: code) (heq : byteCount before = byteCount before') : before = before' :=
  (prefix_of_byteCount_le h h' (Nat.le_of_eq heq)).eq_of_length_le
    (prefix_of_byteCount_le h' h (Nat.le_of_eq heq.symm)).length_le

namespace Opcode

/-- The number of an operation as a byte. -/
def byte (op : Opcode) : UInt8 := UInt8.ofNat op.code

theorem encode_of_one {op : Opcode} (h : op.operandWidths = [1]) (entry : Nat) :
    op.encode [(entry : Int)] = [op.byte, UInt8.ofNat entry] := by
  rw [encode, h, encodeOperands, encodeOperands]
  simp only [List.replicate, List.headD_cons, Field.write_one, UInt8.ofInt_natCast]
  rfl

theorem operandWidths_cases (op : Opcode) : op.operandWidths = [] ∨ op.operandWidths = [1] := by
  cases op <;> simp [operandWidths]

theorem length_encode (op : Opcode) (operands : List Int) :
    (op.encode operands).length = op.size := by
  rcases op.operandWidths_cases with h | h <;>
    simp [encode, size, operandSize, h, encodeOperands, Field.write_one]

theorem toNat_byte (op : Opcode) : op.byte.toNat = op.code := by cases op <;> rfl

end Opcode

theorem Instruction.length_bytes (instruction : Instruction) :
    instruction.bytes.length = instruction.opcode.size := by
  rw [bytes, List.length_map, Opcode.length_encode]

/-! ## units of code -/

namespace Chunk

theorem code_writeAll (chunk : Chunk) (bytes : List UInt8) (line : Int) :
    (chunk.writeAll (bytes.map fun byte => byte.toNat) line).code.toList =
        chunk.code.toList ++ bytes.map (fun byte => ⟨byte, line⟩) ∧
      (chunk.writeAll (bytes.map fun byte => byte.toNat) line).constants = chunk.constants := by
  induction bytes generalizing chunk with
  | nil => simp [writeAll]
  | cons byte bytes ih =>
    have hwrite : (chunk.write byte.toNat line).code.toList =
        chunk.code.toList ++ [⟨byte, line⟩] := by
      simp [write, UInt8.ofInt_natCast]
    obtain ⟨hcode, hconstants⟩ := ih (chunk.write byte.toNat line)
    constructor
    · rw [List.map_cons]
      show ((chunk.write byte.toNat line).writeAll _ line).code.toList = _
      rw [hcode, hwrite, List.map_cons, List.append_assoc, List.singleton_append]
    · exact hconstants

/-- The unit with some code has its bytes, and the pool it was given. -/
theorem code_ofCode (code : List Instruction) (constants : List Value) :
    (ofCode code constants).code.toList = code.flatMap Instruction.bytes ∧
      (ofCode code constants).constants = constants.toArray := by
  have hfold (chunk : Chunk) :
      let built := code.foldl (fun chunk instruction =>
        (chunk.append (instruction.opcode.encode instruction.operands) instruction.line).2) chunk
      built.code.toList = chunk.code.toList ++ code.flatMap Instruction.bytes ∧
        built.constants = chunk.constants := by
    induction code generalizing chunk with
    | nil => simp
    | cons instruction code ih =>
      obtain ⟨hcode, hconstants⟩ := chunk.code_writeAll
        (instruction.opcode.encode instruction.operands) instruction.line
      obtain ⟨hcode', hconstants'⟩ := ih (chunk.append
        (instruction.opcode.encode instruction.operands) instruction.line).2
      refine ⟨?_, hconstants'.trans hconstants⟩
      rw [List.foldl_cons, hcode', append, hcode, List.flatMap_cons, List.append_assoc]
      rfl
  exact hfold ⟨#[], constants.toArray⟩

/-- Lines do not show in bytes. -/
theorem bytes_ofCode (code : List Instruction) (constants : List Value) :
    (ofCode code constants).bytes =
      code.flatMap fun i => i.opcode.encode i.operands := by
  rw [bytes, (code_ofCode code constants).1, List.map_flatMap]
  simp only [Instruction.bytes, List.map_map, Function.comp_def, List.map_id']

theorem length_ofCode (code : List Instruction) (constants : List Value) :
    (ofCode code constants).length = byteCount code := by
  rw [length, ← Array.length_toList, (code_ofCode code constants).1]
  induction code with
  | nil => rfl
  | cons instruction code ih =>
    rw [List.flatMap_cons, List.length_append, ih, instruction.length_bytes, byteCount_cons]

/-- From an offset on, the code of a unit is some code. -/
def GoesOn (chunk : Chunk) (offset : Nat) (code : List Instruction) : Prop :=
  chunk.code.toList.drop offset = code.flatMap Instruction.bytes

theorem goesOn_ofCode (code : List Instruction) (constants : List Value) :
    (ofCode code constants).GoesOn 0 code := (code_ofCode code constants).1

namespace GoesOn

variable {chunk : Chunk} {offset : Nat} {instruction : Instruction} {code : List Instruction}

theorem drop (h : chunk.GoesOn offset (instruction :: code)) :
    chunk.code.toList.drop offset =
      ⟨instruction.opcode.byte, instruction.line⟩ ::
        ((Opcode.encodeOperands instruction.opcode.operandWidths instruction.operands).map
          (fun byte => ⟨byte, instruction.line⟩) ++ code.flatMap Instruction.bytes) := by
  rw [h, List.flatMap_cons]
  rfl

theorem getElem? (chunk : Chunk) (offset index : Nat) :
    chunk.code[offset + index]? = (chunk.code.toList.drop offset)[index]? := by
  rw [List.getElem?_drop, Array.getElem?_toList]

theorem lt_length (h : chunk.GoesOn offset (instruction :: code)) : offset < chunk.length := by
  have hlength := congrArg List.length h.drop
  simp only [List.length_drop, Array.length_toList, List.length_cons] at hlength
  rw [Chunk.length]
  omega

theorem byte? (h : chunk.GoesOn offset (instruction :: code)) :
    chunk.byte? offset = some (instruction.opcode.code : Int) := by
  have hentry := getElem? chunk offset 0
  rw [h.drop] at hentry
  simp only [Nat.add_zero, List.getElem?_cons_zero] at hentry
  show chunk.code[offset]?.map _ = _
  rw [hentry, Option.map_some, Opcode.toNat_byte]

/-- Every byte of an instruction has its line. -/
theorem line?_of_lt (h : chunk.GoesOn offset (instruction :: code)) {index : Nat}
    (hlt : index < instruction.opcode.size) :
    chunk.line? ↑(offset + index) = some (instruction.line : Int) := by
  have hbytes : index < (instruction.opcode.encode instruction.operands).length := by
    rwa [Opcode.length_encode]
  show chunk.code[offset + index]?.map _ = _
  rw [getElem? chunk offset index, h, List.flatMap_cons, Instruction.bytes,
    List.getElem?_append_left (by rwa [List.length_map]), List.getElem?_map,
    List.getElem?_eq_getElem hbytes]
  rfl

theorem line? (h : chunk.GoesOn offset (instruction :: code)) :
    chunk.line? offset = some (instruction.line : Int) :=
  h.line?_of_lt instruction.opcode.size_pos

theorem line?_operand (h : chunk.GoesOn offset (instruction :: code))
    (hwidths : instruction.opcode.operandWidths = [1]) :
    chunk.line? ↑(offset + 1) = some (instruction.line : Int) := by
  refine h.line?_of_lt ?_
  rw [Opcode.size, Opcode.operandSize, hwidths]
  decide

/-- The byte after an operation with an operand. -/
theorem getElem?_field (h : chunk.GoesOn offset (instruction :: code))
    (hwidths : instruction.opcode.operandWidths = [1]) :
    chunk.code[offset + 1]? =
      some ⟨UInt8.ofInt (instruction.operands.headD 0), instruction.line⟩ := by
  rw [getElem? chunk offset 1, h.drop, hwidths, Opcode.encodeOperands, List.replicate_one,
    Field.write_one]
  rfl

theorem getElem?_operand (h : chunk.GoesOn offset (instruction :: code)) {entry : Nat}
    (hwidths : instruction.opcode.operandWidths = [1])
    (hoperands : instruction.operands = [(entry : Int)]) :
    chunk.code[offset + 1]? = some ⟨UInt8.ofNat entry, instruction.line⟩ := by
  rw [h.getElem?_field hwidths, hoperands, List.headD_cons, UInt8.ofInt_natCast]

theorem byte?_operand (h : chunk.GoesOn offset (instruction :: code)) {entry : Nat}
    (hwidths : instruction.opcode.operandWidths = [1])
    (hoperands : instruction.operands = [(entry : Int)]) (hlt : entry < 256) :
    chunk.byte? ↑(offset + 1) = some (entry : Int) := by
  show chunk.code[offset + 1]?.map _ = _
  rw [h.getElem?_operand hwidths hoperands, Option.map_some, UInt8.toNat_ofNat',
    Nat.mod_eq_of_lt hlt]

theorem tail (h : chunk.GoesOn offset (instruction :: code)) :
    chunk.GoesOn (offset + instruction.opcode.size) code := by
  rw [GoesOn, List.flatMap_cons] at h
  rw [GoesOn, ← List.drop_drop, h, List.drop_left' instruction.length_bytes]

/-- Behind some code comes what follows it. -/
theorem append {code' : List Instruction} (h : chunk.GoesOn offset (code ++ code')) :
    chunk.GoesOn (offset + byteCount code) code' := by
  induction code generalizing offset with
  | nil => exact h
  | cons instruction code ih =>
    rw [byteCount_cons, ← Nat.add_assoc]
    exact ih h.tail

/-- Where no code is left, the unit ends. -/
theorem length_le (h : chunk.GoesOn offset []) : chunk.length ≤ offset := by
  simpa [GoesOn, Chunk.length] using h

end GoesOn

end Chunk

end Lox
