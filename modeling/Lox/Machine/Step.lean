import Lox.Machine

/-!
# Lox.Machine.Step

One step of the machine.

A step reads the operation at the machine's place and carries it out.  What the
moves of a step are made of is an inductive of its own (`Move.Made`), so that
what holds of the primitive moves holds of every operation by one induction.
`offset_step` says that a step goes past exactly the bytes of the instruction,
whether it goes on or stops; a byte that is no operation counts as one.
-/

namespace Lox

namespace Move

/-! ## operands -/

/-- Read a pool index and look up the constant. -/
def fetchConstant (chunk : Chunk) : Move Value := do
  let index ← fetch chunk
  ofDefect (chunk.constant index)

/-- Read a pool index and look up the name there. -/
def fetchName (chunk : Chunk) : Move Text := do
  let value ← fetchConstant chunk
  let content ← ofDefect (value.content? (← heap))
  match content with
  | some name => pure name
  | none => throw (.broken .nameNotString)

/-- The values of the two operands, the right one popped first. -/
def popOperands : Move (Value × Value) := do
  let right ← pop
  let left ← pop
  pure (left, right)

/-- Pop two operands and push what an operator makes of them. -/
def binary (chunk : Chunk) (operator : Value → Value → Except OperatorError Value) :
    Move Unit := do
  let (left, right) ← popOperands
  push chunk (← ofOperator chunk (operator left right))

/-! ## operations -/

/-- Pop two operands and push their sum. -/
def add (chunk : Chunk) : Move Unit := do
  let (left, right) ← popOperands
  let (sum, heap) ← ofFailure chunk (left.add (← heap) right)
  setHeap heap
  push chunk sum

/-- Pop two operands and push whether they are equal. -/
def equal (chunk : Chunk) : Move Unit := do
  let (left, right) ← popOperands
  push chunk (.bool (← ofDefect (left.equal (← heap) right)))

/-- Print the value on top of the stack and pop it. -/
def print : Move Unit := do
  let value ← pop
  let shown ← ofDefect (value.display (← heap))
  write .printed (shown ++ [newline])

/-- Define a global variable by the value on top of the stack, and pop it. -/
def defineGlobal (chunk : Chunk) : Move Unit := do
  let name ← fetchName chunk
  setGlobal name (← peek)
  let _ ← pop

/-- Push the value of a global variable. -/
def getGlobal (chunk : Chunk) : Move Unit := do
  let name ← fetchName chunk
  match (← globals).get? name with
  | some value => push chunk value
  | none => fail chunk (.undefinedVariable name)

/-- Give a global variable the value on top of the stack, which stays there. -/
def assignGlobal (chunk : Chunk) : Move Unit := do
  let name ← fetchName chunk
  match (← globals).get? name with
  | some _ => setGlobal name (← peek)
  | none => fail chunk (.undefinedVariable name)

/-- Stop with the value on top of the stack. -/
def ret : Move Unit := fun m => .error (.returned m.stack.head?) m

/-- Carry out an operation whose byte was just read. -/
def execute (chunk : Chunk) : Opcode → Move Unit
  | .ret => ret
  | .constant => do push chunk (← fetchConstant chunk)
  | .negate => do push chunk (← ofOperator chunk (← pop).negate)
  | .add => add chunk
  | .subtract => binary chunk Value.subtract
  | .multiply => binary chunk Value.multiply
  | .divide => binary chunk Value.divide
  | .pushNil => push chunk .nil
  | .pushTrue => push chunk (.bool true)
  | .pushFalse => push chunk (.bool false)
  | .not => do push chunk (.bool !(← pop).isTruthy)
  | .equal => equal chunk
  | .greater => binary chunk (Value.compare .greater)
  | .less => binary chunk (Value.compare .less)
  | .print => print
  | .pop => do let _ ← pop
  | .defineGlobal => defineGlobal chunk
  | .getGlobal => getGlobal chunk
  | .setGlobal => assignGlobal chunk

/-- One step at a place inside the code. -/
def step (chunk : Chunk) : Move Unit := do
  let byte ← fetch chunk
  execute chunk (← ofDefect (Opcode.decode (byte.getD 0)))

/-! ## what moves are made of -/

/-- Moves that only look at a machine and take values off its stack.  They read
`bytes` bytes of code at the beginning, and take up to `operands` values. -/
inductive Reads (chunk : Chunk) : {α : Type} → (bytes operands : Nat) → Move α → Prop where
  | pure {α : Type} (value : α) : Reads chunk 0 0 (Pure.pure value : Move α)
  | broken {α : Type} (defect : Defect) : Reads chunk 0 0 (throw (.broken defect) : Move α)
  | fail {α : Type} (cause : Cause) : Reads chunk 0 0 (Move.fail chunk cause : Move α)
  | ret : Reads chunk 0 0 Move.ret
  | fetch : Reads chunk 1 0 (Move.fetch chunk)
  | pop : Reads chunk 0 1 Move.pop
  | peek : Reads chunk 0 0 Move.peek
  | heap : Reads chunk 0 0 Move.heap
  | globals : Reads chunk 0 0 Move.globals
  | bind {α β : Type} {bytes operands more : Nat} {move : Move α} {next : α → Move β}
      (first : Reads chunk bytes operands move)
      (second : ∀ value, Reads chunk 0 more (next value)) :
      Reads chunk bytes (operands + more) (move >>= next)

/-- Moves that also push, write and set.  What is proved by induction on this
holds of every operation (`Made.execute`). -/
inductive Made (chunk : Chunk) : {α : Type} → (bytes : Nat) → Move α → Prop where
  | reads {α : Type} {bytes operands : Nat} {move : Move α}
      (h : Reads chunk bytes operands move) : Made chunk bytes move
  | push (value : Value) : Made chunk 0 (Move.push chunk value)
  | write (stream : Stream) (text : Text) : Made chunk 0 (Move.write stream text)
  | setHeap (heap : Heap) : Made chunk 0 (Move.setHeap heap)
  | setGlobal (name : Text) (value : Value) : Made chunk 0 (Move.setGlobal name value)
  | bind {α β : Type} {bytes : Nat} {move : Move α} {next : α → Move β}
      (first : Made chunk bytes move) (second : ∀ value, Made chunk 0 (next value)) :
      Made chunk bytes (move >>= next)

section

variable {α β : Type} {chunk : Chunk} {bytes operands : Nat} {move : Move α} {next : α → Move β}

namespace Reads

/-- What is read is used after that. -/
theorem bind_made (first : Reads chunk bytes operands move)
    (second : ∀ value, Made chunk 0 (next value)) : Made chunk bytes (move >>= next) :=
  .bind (.reads first) second

theorem ofDefect (result : Except Defect α) : Reads chunk 0 0 (Move.ofDefect result) := by
  cases result
  · exact broken _
  · exact pure _

theorem ofOperator (result : Except OperatorError α) :
    Reads chunk 0 0 (Move.ofOperator chunk result) := by
  cases result
  · exact fail _
  · exact pure _

theorem ofFailure (result : Except Failure α) : Reads chunk 0 0 (Move.ofFailure chunk result) := by
  obtain (failure | _) := result
  · cases failure
    · exact fail _
    · exact broken _
  · exact pure _

theorem fetchConstant (chunk : Chunk) : Reads chunk 1 0 (Move.fetchConstant chunk) :=
  fetch.bind fun _ => ofDefect _

theorem fetchName (chunk : Chunk) : Reads chunk 1 0 (Move.fetchName chunk) := by
  have hname (content : Option Text) : Reads chunk 0 0 (match content with
      | some name => Pure.pure name
      | none => throw (.broken .nameNotString) : Move Text) := by
    cases content
    · exact broken _
    · exact pure _
  exact (fetchConstant chunk).bind fun _ => heap.bind fun _ => (ofDefect _).bind hname

theorem popOperands (chunk : Chunk) : Reads chunk 0 2 Move.popOperands :=
  pop.bind fun _ => pop.bind fun _ => pure _

end Reads

namespace Made

theorem binary (chunk : Chunk) (operator : Value → Value → Except OperatorError Value) :
    Made chunk 0 (Move.binary chunk operator) :=
  (Reads.popOperands chunk).bind_made fun _ => (Reads.ofOperator _).bind_made fun _ => push _

theorem add (chunk : Chunk) : Made chunk 0 (Move.add chunk) :=
  (Reads.popOperands chunk).bind_made fun _ => Reads.heap.bind_made fun _ =>
    (Reads.ofFailure _).bind_made fun _ => (setHeap _).bind fun _ => push _

theorem equal (chunk : Chunk) : Made chunk 0 (Move.equal chunk) :=
  (Reads.popOperands chunk).bind_made fun _ => Reads.heap.bind_made fun _ =>
    (Reads.ofDefect _).bind_made fun _ => push _

theorem print (chunk : Chunk) : Made chunk 0 Move.print :=
  Reads.pop.bind_made fun _ => Reads.heap.bind_made fun _ =>
    (Reads.ofDefect _).bind_made fun _ => write _ _

theorem defineGlobal (chunk : Chunk) : Made chunk 1 (Move.defineGlobal chunk) :=
  (Reads.fetchName chunk).bind_made fun _ => Reads.peek.bind_made fun _ =>
    (setGlobal _ _).bind fun _ => Reads.pop.bind_made fun _ => reads (.pure _)

theorem getGlobal (chunk : Chunk) : Made chunk 1 (Move.getGlobal chunk) := by
  refine (Reads.fetchName chunk).bind_made fun name => Reads.globals.bind_made fun table => ?_
  cases table.get? name
  · exact reads (.fail _)
  · exact push _

theorem assignGlobal (chunk : Chunk) : Made chunk 1 (Move.assignGlobal chunk) := by
  refine (Reads.fetchName chunk).bind_made fun name => Reads.globals.bind_made fun table => ?_
  cases table.get? name
  · exact reads (.fail _)
  · exact Reads.peek.bind_made fun _ => setGlobal _ _

/-- Every operation reads its operands in the code and goes on from there. -/
theorem execute (chunk : Chunk) (op : Opcode) :
    Made chunk op.operandSize (Move.execute chunk op) := by
  cases op with
  | ret => exact reads .ret
  | constant => exact (Reads.fetchConstant chunk).bind_made fun _ => push _
  | negate => exact Reads.pop.bind_made fun _ => (Reads.ofOperator _).bind_made fun _ => push _
  | add => exact add chunk
  | subtract => exact binary chunk _
  | multiply => exact binary chunk _
  | divide => exact binary chunk _
  | pushNil => exact push _
  | pushTrue => exact push _
  | pushFalse => exact push _
  | not => exact Reads.pop.bind_made fun _ => push _
  | equal => exact equal chunk
  | greater => exact binary chunk _
  | less => exact binary chunk _
  | print => exact print chunk
  | pop => exact Reads.pop.bind_made fun _ => reads (.pure _)
  | defineGlobal => exact defineGlobal chunk
  | getGlobal => exact getGlobal chunk
  | setGlobal => exact assignGlobal chunk

end Made

/-! ## how far a move goes -/

/-- A move goes past `count` bytes of code, whether it goes on or stops. -/
def Passes (count : Nat) (move : Move α) : Prop :=
  ∀ m, (left (move m)).offset = m.offset + count

/-- The bytes are passed by the first move if the second passes none. -/
theorem Passes.bind {count : Nat} (hmove : Passes count move)
    (hnext : ∀ value, Passes 0 (next value)) : Passes count (move >>= next) := by
  intro m
  have h := hmove m
  cases hresult : move m with
  | ok value m' =>
    rw [hresult] at h
    rw [bind_ok hresult, hnext value m', Nat.add_zero]
    exact h
  | error stop m' =>
    rw [hresult] at h
    rw [bind_error hresult]
    exact h

/-- The bytes that are read are passed. -/
theorem Reads.passes (h : Reads chunk bytes operands move) : Passes bytes move := by
  induction h with
  | pop =>
    intro m
    unfold Move.pop
    split <;> rfl
  | peek =>
    intro m
    unfold Move.peek
    split <;> rfl
  | bind _ _ ihfirst ihsecond => exact ihfirst.bind ihsecond
  | _ => exact fun _ => rfl

theorem Made.passes (h : Made chunk bytes move) : Passes bytes move := by
  induction h with
  | reads h => exact h.passes
  | push =>
    intro m
    unfold Move.push
    split <;> rfl
  | bind _ _ ihfirst ihsecond => exact ihfirst.bind ihsecond
  | _ => exact fun _ => rfl

end

/-- A step goes past the bytes of the instruction at its place; a byte that is
no operation is passed alone. -/
theorem offset_step (chunk : Chunk) (m : Machine) :
    (left (step chunk m)).offset =
      m.offset + ((Opcode.ofCode? ((chunk.byte? m.offset).getD 0)).elim 1 Opcode.size) := by
  show (left (EStateM.bind (ofDefect (Opcode.decode ((chunk.byte? m.offset).getD 0)))
    (execute chunk) { m with offset := m.offset + 1 })).offset = _
  unfold Opcode.decode
  split
  · next op heq =>
    rw [heq]
    show (left (execute chunk op { m with offset := m.offset + 1 })).offset = _
    rw [(Made.execute chunk op).passes]
    show m.offset + 1 + op.operandSize = m.offset + (1 + op.operandSize)
    omega
  · next heq =>
    rw [heq]
    rfl

end Move

end Lox
