import Lox.Proofs.Decoding

/-!
# Lox.Proofs.Blame

The line of an error.

Whatever a move fails for, it names the line of the byte before the place where
it stops (`Move.Made.blames`).  A step stops behind its instruction, so on well-formed
code the line is that of the instruction (`Machine.line_of_goesOn`).
-/

namespace Lox

namespace Move

variable {α β : Type} {chunk : Chunk}

/-! ## moves -/

/-- A move that fails names the line of the byte before its place. -/
def Blames (chunk : Chunk) (move : Move α) : Prop :=
  ∀ m error m', move m = .error (.failed error) m' →
    error.line = (chunk.line? ↑(m'.offset - 1)).getD 0

namespace Blames

theorem bind {move : Move α} {next : α → Move β} (hmove : Blames chunk move)
    (hnext : ∀ value, Blames chunk (next value)) : Blames chunk (move >>= next) := by
  intro m error m' h
  cases hresult : move m with
  | ok value between =>
    rw [bind_ok hresult] at h
    exact hnext value between error m' h
  | error stop between =>
    rw [bind_error hresult] at h
    cases h
    exact hmove m error m' hresult

end Blames

variable {bytes operands : Nat} {move : Move α}

theorem Reads.blames (h : Reads chunk bytes operands move) : Blames chunk move := by
  induction h with
  | fail =>
    rintro m error m' ⟨⟩
    rfl
  | pop =>
    intro m error m' h
    unfold Move.pop at h
    split at h <;> cases h
  | peek =>
    intro m error m' h
    unfold Move.peek at h
    split at h <;> cases h
  | bind _ _ ihfirst ihsecond => exact ihfirst.bind ihsecond
  | _ => rintro m error m' ⟨⟩

theorem Made.blames (h : Made chunk bytes move) : Blames chunk move := by
  induction h with
  | reads h => exact h.blames
  | push =>
    intro m error m' h
    unfold Move.push at h
    split at h
    · cases h
    · exact (@Reads.fail chunk _ .stackOverflow).blames m error m' h
  | bind _ _ ihfirst ihsecond => exact ihfirst.bind ihsecond
  | _ => rintro m error m' ⟨⟩

theorem Blames.step (chunk : Chunk) : Blames chunk (Move.step chunk) :=
  (@Reads.fetch chunk).blames.bind fun _ => (Reads.ofDefect _).blames.bind fun op =>
    (Made.execute chunk op).blames

end Move

/-! ## instructions -/

namespace Machine

open Move

variable {chunk : Chunk} {tracing : Bool} {m m' : Machine} {instruction : Instruction}
  {code : List Instruction} {error : RuntimeError}

/-- A step that fails stops behind its instruction and names its line. -/
theorem line_of_goesOn (hcode : chunk.GoesOn m.offset (instruction :: code))
    (hstep : tracedStep chunk tracing m = .error (.failed error) m') :
    m'.offset = m.offset + instruction.opcode.size ∧ error.line = instruction.line := by
  cases hproceeds : m.proceeds chunk tracing with
  | false =>
    obtain ⟨defect, traces, -, hbroken⟩ := tracedStep_of_not_proceeds hproceeds
    rw [hstep] at hbroken
    cases hbroken
  | true =>
    have hoffset := offset_tracedStep hcode.lt_length hproceeds
    rw [hstep, hcode.nextOffset] at hoffset
    have hend : m'.offset = m.offset + instruction.opcode.size := hoffset
    refine ⟨hend, ?_⟩
    obtain ⟨traces, -, htraced⟩ := tracedStep_of_proceeds hproceeds
    have hblamed := Blames.step chunk _ error m' (htraced.symm.trans hstep)
    have hsize := instruction.opcode.size_pos
    have hlast : m'.offset - 1 = m.offset + (instruction.opcode.size - 1) := by omega
    rw [hblamed, hlast, hcode.line?_of_lt (Nat.sub_one_lt (Nat.ne_of_gt hsize)), Option.getD_some]

/-! ## runs -/

/-- A machine has gone through a front of some code. -/
def Along (code : List Instruction) (m : Machine) : Prop :=
  ∃ before after, code = before ++ after ∧ m.offset = byteCount before

/-- Inside the code there is an instruction to go on with. -/
theorem Along.exists_instruction (hcode : chunk.GoesOn 0 code) (h : m.Along code)
    (hlt : m.offset < chunk.length) :
    ∃ before instruction after, code = before ++ instruction :: after ∧
      m.offset = byteCount before ∧ chunk.GoesOn m.offset (instruction :: after) := by
  obtain ⟨before, after, rfl, hoffset⟩ := h
  have hgoes := hcode.append
  rw [Nat.zero_add, ← hoffset] at hgoes
  cases after with
  | nil => exact absurd hlt (Nat.not_lt.2 hgoes.length_le)
  | cons instruction after => exact ⟨before, instruction, after, rfl, hoffset, hgoes⟩

/-- Runs go along the code, instruction by instruction. -/
theorem along_kept (hcode : chunk.GoesOn 0 code) : Kept chunk tracing (Along code) := by
  intro m hlt hm
  obtain ⟨before, instruction, after, rfl, hoffset, hgoes⟩ := hm.exists_instruction hcode hlt
  cases hproceeds : m.proceeds chunk tracing with
  | false =>
    obtain ⟨defect, traces, -, hbroken⟩ := tracedStep_of_not_proceeds hproceeds
    rw [hbroken]
    exact ⟨before, instruction :: after, rfl, hoffset⟩
  | true =>
    refine ⟨before ++ [instruction], after, by simp, ?_⟩
    rw [offset_tracedStep hlt hproceeds, hgoes.nextOffset, hoffset, byteCount_append]
    rfl

/-- A run that fails stops behind an instruction of the code, and names its
line. -/
theorem line_of_run (hcode : chunk.GoesOn 0 code) (hm : m.Along code)
    (hrun : m.run chunk tracing = (.failed error, m')) :
    ∃ before instruction after, code = before ++ instruction :: after ∧
      m'.offset = byteCount (before ++ [instruction]) ∧ error.line = instruction.line := by
  induction m using run.induct chunk tracing with
  | case1 m hlt next hstep ih =>
    have hkept : Kept chunk tracing (Along code) := along_kept hcode
    have hnext := hkept m hlt hm
    rw [hstep] at hnext
    rw [run_ok hlt hstep] at hrun
    exact ih hnext hrun
  | case2 m hlt stop last hstep =>
    rw [run_error hlt hstep] at hrun
    cases hrun
    obtain ⟨before, instruction, after, rfl, hoffset, hgoes⟩ := hm.exists_instruction hcode hlt
    obtain ⟨hend, hline⟩ := line_of_goesOn hgoes hstep
    refine ⟨before, instruction, after, rfl, ?_, hline⟩
    rw [hend, hoffset, byteCount_append]
    rfl
  | case3 m hle =>
    rw [run_of_le hle] at hrun
    cases hrun

/-- The same holds however often the machine was run before. -/
theorem line_of_runTimes (hcode : chunk.GoesOn 0 code) {store : Store} {count : Nat}
    (hrun : ((start store).runTimes chunk tracing count).run chunk tracing =
      (.failed error, m')) :
    ∃ before instruction after, code = before ++ instruction :: after ∧
      m'.offset = byteCount (before ++ [instruction]) ∧ error.line = instruction.line := by
  have hstart : (start store).Along code := ⟨[], code, rfl, rfl⟩
  have hkept : Kept chunk tracing (Along code) := along_kept hcode
  exact line_of_run hcode (hkept.runTimes count hstart) hrun

end Machine

end Lox
