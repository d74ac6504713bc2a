import Lox.Chunk.Listing
import Lox.Event
import Lox.Globals

/-!
# Lox.Machine

The stack machine and its primitive moves.

A machine has a place in the code, a stack, a store, and the record of what
was written.  A move changes the machine and either goes on or stops; what it
changed before it stopped stays changed.
-/

namespace Lox

/-- How many values the stack holds. -/
def stackCapacity : Nat := 256

/-- An error that a program stopped with, and the line of the instruction. -/
structure RuntimeError where
  cause : Cause
  line : Int
  deriving DecidableEq, Repr

/-- Why a machine stops. -/
inductive Stop where
  /-- The code returned, with the value on top of the stack if there is one. -/
  | returned (value : Option Value)
  | failed (error : RuntimeError)
  | broken (defect : Defect)
  deriving DecidableEq

/-- A machine: the offset of the next byte of code, the stack with its top
first, the store, and what was written so far. -/
structure Machine where
  offset : Nat
  stack : List Value
  store : Store
  written : List Event
  deriving DecidableEq

/-- The machine that is about to run code from its beginning. -/
def Machine.start (store : Store) : Machine := ⟨0, [], store, []⟩

/-! ## moves -/

section

variable {ε σ α β : Type} {move : EStateM ε σ α} {next : α → EStateM ε σ β} {s s' : σ} {value : α}
  {error : ε}

/-- What comes after a move that goes on. -/
theorem bind_ok (h : move s = .ok value s') : (move >>= next) s = next value s' := by
  show EStateM.bind move next s = _
  rw [EStateM.bind, h]

/-- Nothing comes after a move that stops. -/
theorem bind_error (h : move s = .error error s') : (move >>= next) s = .error error s' := by
  show EStateM.bind move next s = _
  rw [EStateM.bind, h]

/-- Of two moves that stop, one does. -/
theorem bind_error_cases (h : (move >>= next) s = .error error s') :
    move s = .error error s' ∨
      ∃ value between, move s = .ok value between ∧ next value between = .error error s' := by
  cases hmove : move s with
  | ok value between =>
    rw [bind_ok hmove] at h
    exact .inr ⟨value, between, rfl, h⟩
  | error stop between =>
    rw [bind_error hmove] at h
    cases h
    exact .inl rfl

end

/-- A move of the machine. -/
abbrev Move (α : Type) := EStateM Stop Machine α

namespace Move

/-- The machine that a move leaves, whether it goes on or stops. -/
def left {α : Type} : EStateM.Result Stop Machine α → Machine
  | .ok _ m => m
  | .error _ m => m

/-- Stop for a broken promise. -/
def ofDefect {α : Type} : Except Defect α → Move α
  | .ok value => pure value
  | .error defect => throw (.broken defect)

/-- Stop with an error at the line of the byte before the machine's place;
without such a byte the line is zero. -/
def fail {α : Type} (chunk : Chunk) (cause : Cause) : Move α := fun m =>
  .error (.failed ⟨cause, (chunk.line? ↑(m.offset - 1)).getD 0⟩) m

/-- Stop for whatever reason an operation has no result. -/
def ofFailure {α : Type} (chunk : Chunk) : Except Failure α → Move α
  | .ok value => pure value
  | .error (.cause cause) => fail chunk cause
  | .error (.defect defect) => throw (.broken defect)

/-- Stop if an operator is not defined on its operands. -/
def ofOperator {α : Type} (chunk : Chunk) : Except OperatorError α → Move α
  | .ok value => pure value
  | .error error => fail chunk (.operator error)

/-! ## code, stack and output -/

/-- Read the next byte of code and go past it. -/
def fetch (chunk : Chunk) : Move (Option Int) := fun m =>
  .ok (chunk.byte? m.offset) { m with offset := m.offset + 1 }

/-- Put a value on the stack, unless the stack is full. -/
def push (chunk : Chunk) (value : Value) : Move Unit := fun m =>
  if m.stack.length < stackCapacity then .ok () { m with stack := value :: m.stack }
  else fail chunk .stackOverflow m

/-- Take the value from the top of the stack. -/
def pop : Move Value := fun m =>
  match m.stack with
  | value :: rest => .ok value { m with stack := rest }
  | [] => .error (.broken .popFromEmptyStack) m

/-- Look at the value on top of the stack. -/
def peek : Move Value := fun m =>
  match m.stack with
  | value :: _ => .ok value m
  | [] => .error (.broken .peekAtEmptyStack) m

/-- Write a text. -/
def write (stream : Stream) (text : Text) : Move Unit := fun m =>
  .ok () { m with written := m.written ++ [⟨stream, text⟩] }

/-! ## the store -/

/-- The stored strings. -/
def heap : Move Heap := fun m => .ok m.store.heap m

/-- Replace the stored strings. -/
def setHeap (heap : Heap) : Move Unit := fun m =>
  .ok () { m with store := { m.store with heap := heap } }

/-- The global variables. -/
def globals : Move Globals := fun m => .ok m.store.globals m

/-- Give a global variable a value. -/
def setGlobal (name : Text) (value : Value) : Move Unit := fun m =>
  .ok () { m with store := { m.store with globals := m.store.globals.set name value } }

end Move

end Lox
