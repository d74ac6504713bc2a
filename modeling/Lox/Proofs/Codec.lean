import Lox.Proofs.Encoding

/-!
# Lox.Proofs.Codec

Instructions written as bytes, and bytes read as instructions.

An operand may have the same byte as an operation, so code is read from its first
byte on: the operation found there says how many bytes its operands take, and the
next instruction begins behind them (`decodeFrom`).  What is written by appending
instructions is read back instruction by instruction, up to the last byte
(`decode_appendAll`).  Of an operand only the remainder modulo 256 comes back.
-/

namespace Lox

/-! ## writing -/

/-- An instruction to be appended to a unit, with any operands and any line. -/
structure Emission where
  opcode : Opcode
  operands : List Int
  line : Int
  deriving DecidableEq, Repr

/-- The bytes that are appended for an instruction. -/
def Emission.bytes (e : Emission) : List CodeByte :=
  (encodeInstruction e.opcode.code e.operands).map fun byte => ⟨byte, e.line⟩

/-- Append instructions one after the other; the answer begins with the offsets of
their first bytes. -/
def Chunk.appendAll (chunk : Chunk) : List Emission → List Nat × Chunk
  | [] => ([], chunk)
  | e :: rest =>
    let (position, chunk) := chunk.append (encodeInstruction e.opcode.code e.operands) e.line
    let (positions, chunk) := chunk.appendAll rest
    (position :: positions, chunk)

/-- The running sums of the sizes of some operations: where their instructions
begin if the first one begins at `offset`, and where the last one ends. -/
def boundsFrom (offset : Nat) (opcodes : List Opcode) : List Nat :=
  (opcodes.map Opcode.size).scanl (· + ·) offset

@[simp] theorem boundsFrom_nil (offset : Nat) : boundsFrom offset [] = [offset] := rfl

@[simp] theorem boundsFrom_cons (offset : Nat) (op : Opcode) (opcodes : List Opcode) :
    boundsFrom offset (op :: opcodes) = offset :: boundsFrom (offset + op.size) opcodes := by
  simp [boundsFrom]

@[simp] theorem length_boundsFrom (offset : Nat) (opcodes : List Opcode) :
    (boundsFrom offset opcodes).length = opcodes.length + 1 := by
  rw [boundsFrom, List.length_scanl, List.length_map]

theorem boundsFrom_ne_nil (offset : Nat) (opcodes : List Opcode) :
    boundsFrom offset opcodes ≠ [] := by
  cases opcodes <;> simp

/-! ## reading -/

/-- An instruction as it is read: where it begins, its operation, its operands, and
the lines of all its bytes. -/
structure Decoded where
  offset : Nat
  opcode : Opcode
  operands : List Int
  lines : List Int
  deriving DecidableEq, Repr

/-- Read code from its first byte on, which stands at `offset`, as far as there are
operations; the answer ends with the offset behind the last one. -/
def decodeFrom (offset : Nat) : List CodeByte → List Decoded × Nat
  | [] => ([], offset)
  | first :: rest =>
    match Opcode.ofCode? first.byte.toNat with
    | none => ([], offset)
    | some op =>
      let fields := rest.take op.operandSize
      let (decoded, stop) := decodeFrom (offset + op.size) (rest.drop op.operandSize)
      (⟨offset, op, fields.map fun field => field.byte.toNat,
        (first :: fields).map CodeByte.line⟩ :: decoded, stop)
termination_by code => code.length
decreasing_by
  rw [List.length_drop, List.length_cons]
  omega

/-- What is kept of the operands of an operation: one for each field, of which a
missing one is zero, each modulo 256. -/
def Opcode.fields (op : Opcode) (operands : List Int) : List Int :=
  op.operandWidths.mapIdx fun index _ => operands.getD index 0 % 256

/-- What is read where an instruction was written. -/
def Emission.decoded (e : Emission) (offset : Nat) : Decoded :=
  ⟨offset, e.opcode, e.opcode.fields e.operands, List.replicate e.opcode.size e.line⟩

/-! ## bytes of one instruction -/

section

variable {op : Opcode} {operands : List Int} {offset stop : Nat} {emissions : List Emission}

/-- An instruction is the byte of its operation and a byte for each field. -/
theorem Opcode.encode_eq (op : Opcode) (operands : List Int) :
    op.encode operands = op.byte :: (op.fields operands).map UInt8.ofInt := by
  rcases op.operandWidths_cases with h | h
  · simp [encode, encodeOperands, fields, h, byte]
  · simp [encode, encodeOperands, fields, h, byte, Field.write_one, UInt8.ofInt_emod,
      List.head?_eq_getElem?]

theorem Opcode.length_fields (op : Opcode) (operands : List Int) :
    (op.fields operands).length = op.operandSize := by
  rcases op.operandWidths_cases with h | h <;> simp [fields, operandSize, h]

theorem Emission.bytes_eq (e : Emission) :
    e.bytes = ⟨e.opcode.byte, e.line⟩ ::
      (e.opcode.fields e.operands).map fun field => ⟨UInt8.ofInt field, e.line⟩ := by
  simp [bytes, encodeInstruction, Opcode.encode_eq]

theorem Opcode.map_toNat_fields (op : Opcode) (operands : List Int) :
    (op.fields operands).map (fun field => ((UInt8.ofInt field).toNat : Int)) =
      op.fields operands := by
  refine (List.map_congr_left fun field hfield => ?_).trans (List.map_id _)
  obtain ⟨index, hlt, rfl⟩ := List.mem_mapIdx.1 hfield
  exact (UInt8.toNat_ofInt _).trans (Int.emod_emod_of_dvd _ (by decide))

/-- An instruction is read back from the front of any code. -/
theorem decodeFrom_bytes_append (offset : Nat) (e : Emission) (code : List CodeByte) :
    decodeFrom offset (e.bytes ++ code) =
      (e.decoded offset :: (decodeFrom (offset + e.opcode.size) code).1,
        (decodeFrom (offset + e.opcode.size) code).2) := by
  let fields : List CodeByte :=
    (e.opcode.fields e.operands).map fun field => ⟨UInt8.ofInt field, e.line⟩
  have hcode : e.bytes ++ code = ⟨e.opcode.byte, e.line⟩ :: (fields ++ code) := by
    rw [e.bytes_eq, List.cons_append]
  have hlength : fields.length = e.opcode.operandSize := by
    rw [List.length_map, Opcode.length_fields]
  have htake : (fields ++ code).take e.opcode.operandSize = fields := List.take_left' hlength
  have hdrop : (fields ++ code).drop e.opcode.operandSize = code := List.drop_left' hlength
  have hoperands : fields.map (fun field => (field.byte.toNat : Int)) =
      e.opcode.fields e.operands := by
    rw [List.map_map]
    exact e.opcode.map_toNat_fields e.operands
  have hlines : e.line :: fields.map CodeByte.line = List.replicate e.opcode.size e.line := by
    rw [List.map_map, Opcode.size, Nat.add_comm, List.replicate_succ, ← hlength, List.length_map]
    exact congrArg _ (List.map_const' ..)
  rw [hcode, decodeFrom]
  simp only [Opcode.toNat_byte, Opcode.ofCode?_code, htake, hdrop, hoperands, List.map_cons,
    hlines]
  rfl

/-- Written instructions are read back, each from where it begins, up to where the
last one ends. -/
theorem decodeFrom_flatMap {positions : List Nat}
    (h : positions ++ [stop] = boundsFrom offset (emissions.map Emission.opcode)) :
    decodeFrom offset (emissions.flatMap Emission.bytes) =
      (List.zipWith Emission.decoded emissions positions, stop) := by
  induction emissions generalizing offset positions with
  | nil =>
    obtain ⟨rfl, hstop⟩ := List.append_eq_singleton_iff.1 h |>.resolve_right (by simp)
    obtain rfl := List.singleton_inj.1 hstop
    simp [decodeFrom]
  | cons e emissions ih =>
    rw [List.map_cons, boundsFrom_cons] at h
    cases positions with
    | nil => exact absurd (List.cons.inj h).2.symm (boundsFrom_ne_nil _ _)
    | cons position positions =>
      obtain ⟨rfl, hrest⟩ := List.cons.inj h
      rw [List.flatMap_cons, decodeFrom_bytes_append, ih hrest, List.zipWith_cons_cons]

end

/-! ## units -/

namespace Chunk

/-- Appending instructions appends their bytes, and answers where each begins. -/
theorem appendAll_spec (chunk : Chunk) (emissions : List Emission) :
    (chunk.appendAll emissions).2.code.toList =
        chunk.code.toList ++ emissions.flatMap Emission.bytes ∧
      (chunk.appendAll emissions).1 ++ [(chunk.appendAll emissions).2.length] =
        boundsFrom chunk.length (emissions.map Emission.opcode) := by
  induction emissions generalizing chunk with
  | nil => simp [appendAll]
  | cons e emissions ih =>
    let after := (chunk.append (encodeInstruction e.opcode.code e.operands) e.line).2
    have hcode : after.code.toList = chunk.code.toList ++ e.bytes :=
      (chunk.code_writeAll (encodeInstruction e.opcode.code e.operands) e.line).1
    have hlength : after.length = chunk.length + e.opcode.size := by
      have hbytes : e.bytes.length = e.opcode.size := by
        simp [Emission.bytes, encodeInstruction, Opcode.length_encode]
      simpa [Chunk.length, hbytes] using congrArg List.length hcode
    obtain ⟨hall, hbounds⟩ := ih after
    constructor
    · rw [List.flatMap_cons, ← List.append_assoc, ← hcode]
      exact hall
    · rw [List.map_cons, boundsFrom_cons, ← hlength, ← hbounds]
      rfl

end Chunk

/-- Whatever instructions are appended to an empty unit, with any operands and
lines, the code decodes to what was encoded.  They are answered to begin at the
running sums of their sizes; reading the code from its first byte finds the same
operations at the same offsets, their operands modulo 256, and the line of each
instruction at all its bytes; and it ends with the last byte of the code. -/
theorem decode_appendAll (emissions : List Emission) :
    let written := Chunk.empty.appendAll emissions
    written.1 ++ [written.2.length] = boundsFrom 0 (emissions.map Emission.opcode) ∧
      decodeFrom 0 written.2.code.toList =
        (List.zipWith Emission.decoded emissions written.1, written.2.length) := by
  intro written
  obtain ⟨hcode, hbounds⟩ := Chunk.empty.appendAll_spec emissions
  refine ⟨hbounds, ?_⟩
  rw [hcode]
  exact decodeFrom_flatMap hbounds

/-- An operand with the byte of an operation, a negative one, and one that is
missing. -/
example :
    let written := Chunk.empty.appendAll
      [⟨.constant, [17], 1⟩, ⟨.setGlobal, [-255], -2⟩, ⟨.not, [], 3⟩, ⟨.getGlobal, [], 4⟩]
    written.1 = [0, 2, 4, 5] ∧ written.2.bytes = [1, 17, 18, 1, 10, 17, 0] := by decide

end Lox
