import Lox.Proofs.Tracing

/-!
# Lox.Proofs.Listing

The instructions that a listing lists.

The offsets of the instructions depend on the code alone
(`Chunk.offsetsFrom`): each is where the one before it ends.  Where the strings
of the pool are still stored, the listing has a line for each of them, in order,
and nothing else (`Chunk.listing_of_live`).
-/

namespace Lox

namespace Chunk

variable {chunk chunk' : Chunk} {heap : Heap} {offset : Nat}

/-! ## offsets -/

/-- Where the instruction at an offset ends; a byte that is no operation stands
alone. -/
def nextOffset (chunk : Chunk) (offset : Nat) : Nat :=
  offset + ((chunk.byte? offset).bind Opcode.ofCode?).elim 1 Opcode.size

theorem lt_nextOffset (chunk : Chunk) (offset : Nat) : offset < chunk.nextOffset offset := by
  unfold nextOffset
  cases (chunk.byte? offset).bind Opcode.ofCode? with
  | none => simp
  | some op => simp [op.size_pos]

/-- The offsets of the instructions from a place in the code to its end. -/
def offsetsFrom (chunk : Chunk) (offset : Nat) : List Nat :=
  if offset < chunk.length then offset :: chunk.offsetsFrom (chunk.nextOffset offset) else []
termination_by chunk.length - offset
decreasing_by
  have := chunk.lt_nextOffset offset
  omega

theorem offsetsFrom_of_lt (h : offset < chunk.length) :
    chunk.offsetsFrom offset = offset :: chunk.offsetsFrom (chunk.nextOffset offset) := by
  rw [offsetsFrom, if_pos h]

theorem offsetsFrom_of_le (h : ¬ offset < chunk.length) : chunk.offsetsFrom offset = [] := by
  rw [offsetsFrom, if_neg h]

/-- What is listed after an instruction is the next one. -/
theorem GoesOn.nextOffset {instruction : Instruction} {code : List Instruction}
    (h : chunk.GoesOn offset (instruction :: code)) :
    chunk.nextOffset offset = offset + instruction.opcode.size := by
  rw [Chunk.nextOffset, h.byte?]
  simp

theorem nextOffset_congr (h : chunk.bytes = chunk'.bytes) (offset : Nat) :
    chunk.nextOffset offset = chunk'.nextOffset offset := by
  have hbyte (chunk : Chunk) :
      chunk.byte? offset = chunk.bytes[offset]?.map fun byte => (byte.toNat : Int) := by
    show chunk.code[offset]?.map _ = _
    rw [bytes, List.getElem?_map, Array.getElem?_toList, Option.map_map]
    rfl
  rw [nextOffset, nextOffset, hbyte, hbyte, h]

/-- Where instructions begin is seen from the bytes alone. -/
theorem offsetsFrom_congr (h : chunk.bytes = chunk'.bytes) (offset : Nat) :
    chunk.offsetsFrom offset = chunk'.offsetsFrom offset := by
  have hlength : chunk.length = chunk'.length := by
    simpa [bytes, Chunk.length] using congrArg List.length h
  induction offset using offsetsFrom.induct chunk with
  | case1 offset hlt ih =>
    have hlt' : offset < chunk'.length := hlength ▸ hlt
    rw [offsetsFrom_of_lt hlt, offsetsFrom_of_lt hlt', ← nextOffset_congr h, ih]
  | case2 offset hle => rw [offsetsFrom_of_le hle, offsetsFrom_of_le (hlength ▸ hle)]

/-! ## lines -/

/-- The line for the instruction at an offset. -/
def lineAt (chunk : Chunk) (heap : Heap) (offset : Nat) : Text :=
  match chunk.listInstruction heap offset with
  | .ok (_, line) => line
  | .error _ => []

/-- The listing goes on where the instruction ends. -/
theorem eq_nextOffset_of_listInstruction {next : Int} {line : Text}
    (h : chunk.listInstruction heap offset = .ok (next, line)) :
    next = chunk.nextOffset offset := by
  simp only [listInstruction] at h
  unfold nextOffset
  split at h
  · next hnone =>
    obtain ⟨rfl, -⟩ := Prod.mk.inj (Except.ok.inj h)
    simp [hnone]
  · next op hop =>
    split at h
    · obtain ⟨rfl, -⟩ := Prod.mk.inj (Except.ok.inj h)
      simp [hop]
    · cases hshown : chunk.displayConstant heap (chunk.byte? (offset + 1)) with
      | error defect => simp [hshown, bind, Except.bind] at h
      | ok shown =>
        rw [hshown] at h
        obtain ⟨rfl, -⟩ := Prod.mk.inj (Except.ok.inj h)
        simp [hop]

theorem listInstruction_eq_of_live (h : ∀ value ∈ chunk.constants, heap.Live value)
    (offset : Nat) :
    chunk.listInstruction heap offset =
      .ok (chunk.nextOffset offset, chunk.lineAt heap offset) := by
  obtain ⟨next, line, hlisted⟩ := listInstruction_of_live h offset
  have hnext := eq_nextOffset_of_listInstruction hlisted
  have hline : chunk.lineAt heap offset = line := by simp [lineAt, hlisted]
  rw [hlisted, hnext, hline]

theorem listFrom_of_live (h : ∀ value ∈ chunk.constants, heap.Live value) (offset : Nat) :
    chunk.listFrom heap offset =
      .ok ((chunk.offsetsFrom offset).flatMap fun place =>
        chunk.lineAt heap place ++ [newline]) := by
  induction offset using offsetsFrom.induct chunk with
  | case1 offset hlt ih =>
    have hinside : (offset : Int) < chunk.length := by omega
    rw [listFrom, if_pos hinside, offsetsFrom_of_lt hlt]
    split
    · next defect hlisted =>
      rw [listInstruction_eq_of_live h] at hlisted
      cases hlisted
    · next next line hlisted =>
      rw [listInstruction_eq_of_live h] at hlisted
      obtain ⟨rfl, rfl⟩ := Prod.mk.inj (Except.ok.inj hlisted)
      rw [ih]
      simp [bind, Except.bind, pure, Except.pure]
  | case2 offset hle =>
    have houtside : ¬ (offset : Int) < chunk.length := by omega
    rw [listFrom, if_neg houtside, offsetsFrom_of_le hle]
    rfl

/-- A listing is its heading and then a line for each instruction. -/
theorem listing_of_live (h : ∀ value ∈ chunk.constants, heap.Live value) (name : Text) :
    chunk.listing heap name = .ok (text "== " ++ name ++ text " ==\n" ++
      (chunk.offsetsFrom 0).flatMap fun place => chunk.lineAt heap place ++ [newline]) := by
  have hlines := listFrom_of_live h 0
  unfold listing
  rw [Int.natCast_zero] at hlines
  rw [hlines]
  rfl

end Chunk

end Lox
