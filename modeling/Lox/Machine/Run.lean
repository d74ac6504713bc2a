import Lox.Machine.Step

/-!
# Lox.Machine.Run

Running code to its end.

A run takes steps until one stops it.  Every step goes forward in the code,
so a run ends; code that ends before it returns is a defect.  A run that is
traced writes the stack and the next instruction before each step.
-/

namespace Lox

namespace Move

/-- Write the stack and the instruction at the machine's place. -/
def trace (chunk : Chunk) : Move Unit := do
  let m ← get
  let stack ← ofDefect (Value.displayStack m.store.heap m.stack)
  write .traced (Text.blanks 10 ++ stack ++ [newline])
  let (_, line) ← ofDefect (chunk.listInstruction m.store.heap m.offset)
  write .traced (line ++ [newline])

/-- One step, with its trace if tracing is on. -/
def tracedStep (chunk : Chunk) (tracing : Bool) : Move Unit := do
  if tracing then trace chunk
  step chunk

theorem passes_trace (chunk : Chunk) : Passes 0 (trace chunk) := by
  have hget : Passes 0 (MonadState.get : Move Machine) := fun _ => rfl
  refine hget.bind fun m => @Made.passes _ chunk _ _ ?_
  exact (Reads.ofDefect _).bind_made fun _ => (Made.write _ _).bind fun _ =>
    (Reads.ofDefect (chunk.listInstruction m.store.heap m.offset)).bind_made fun _ => .write _ _

/-- A step that goes on goes forward. -/
theorem offset_lt_of_step {chunk : Chunk} {m m' : Machine}
    (h : step chunk m = .ok () m') : m.offset < m'.offset := by
  have hoffset := offset_step chunk m
  rw [h] at hoffset
  simp only [left] at hoffset
  cases hop : Opcode.ofCode? ((chunk.byte? m.offset).getD 0) with
  | none => simp only [hop, Option.elim] at hoffset; omega
  | some op =>
    have := op.size_pos
    simp only [hop, Option.elim] at hoffset
    omega

/-- A traced step that goes on goes forward as well. -/
theorem offset_lt_of_tracedStep {chunk : Chunk} {tracing : Bool} {m m' : Machine}
    (h : tracedStep chunk tracing m = .ok () m') : m.offset < m'.offset := by
  cases tracing with
  | false => exact offset_lt_of_step h
  | true =>
    have htrace := passes_trace chunk m
    have hboth : (trace chunk >>= fun _ => step chunk) m = .ok () m' := h
    cases hresult : trace chunk m with
    | ok _ between =>
      rw [hresult] at htrace
      rw [bind_ok hresult] at hboth
      have hstep := offset_lt_of_step hboth
      simp only [left, Nat.add_zero] at htrace
      omega
    | error stop between =>
      rw [bind_error hresult] at hboth
      cases hboth

end Move

namespace Machine

/-- Run on until a step stops the machine. -/
def run (chunk : Chunk) (tracing : Bool) (m : Machine) : Stop × Machine :=
  if m.offset < chunk.length then
    match _h : Move.tracedStep chunk tracing m with
    | .ok () next => run chunk tracing next
    | .error stop last => (stop, last)
  else
    (.broken .missingReturn, m)
termination_by chunk.length - m.offset
decreasing_by
  have := Move.offset_lt_of_tracedStep _h
  omega

end Machine

end Lox
