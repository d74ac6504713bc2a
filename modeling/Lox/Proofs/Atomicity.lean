import Lox.Proofs.Decoding

/-!
# Lox.Proofs.Atomicity

A step that fails has not touched the store or the output.

A move takes operands off the stack and looks at them (`Move.Reads.takes`) before
it stores, prints or sets anything; from there on it does not fail
(`Move.Atomic`).
So a step that stops, on any code, leaves a machine that lacks at most the
operands of the operation (`Machine.failing_step_is_atomic`).
-/

namespace Lox

/-- How many values an operation takes off the stack to compute from them or to
print them. -/
def Opcode.arity : Opcode → Nat
  | print | negate | not => 1
  | add | subtract | multiply | divide | equal | greater | less => 2
  | _ => 0

namespace Machine

/-- The stack is no higher than it may be. -/
def Fits (m : Machine) : Prop := m.stack.length ≤ stackCapacity

/-- A machine that went on in the code, and lacks up to `count` values from the
top of its stack. -/
structure Lacks (count : Nat) (m m' : Machine) : Prop where
  store : m'.store = m.store
  written : m'.written = m.written
  stack : ∃ taken, taken ≤ count ∧ taken ≤ m.stack.length ∧ m'.stack = m.stack.drop taken

namespace Lacks

variable {count more : Nat} {m m' m'' : Machine}

theorem refl (count : Nat) (m : Machine) : m.Lacks count m := ⟨rfl, rfl, 0, by simp⟩

theorem trans (h : m.Lacks count m') (h' : m'.Lacks more m'') : m.Lacks (count + more) m'' := by
  obtain ⟨taken, hle, hlength, hstack⟩ := h.stack
  obtain ⟨taken', hle', hlength', hstack'⟩ := h'.stack
  rw [hstack, List.length_drop] at hlength'
  rw [hstack, List.drop_drop] at hstack'
  exact ⟨h'.store.trans h.store, h'.written.trans h.written, taken + taken', by omega, by omega,
    hstack'⟩

theorem fits (h : m.Lacks count m') (hm : m.Fits) : m'.Fits := by
  obtain ⟨taken, -, -, hstack⟩ := h.stack
  unfold Fits at *
  rw [hstack, List.length_drop]
  omega

end Lacks

end Machine

namespace Move

open Machine

variable {α β : Type} {chunk : Chunk} {bytes count operands : Nat} {move : Move α}
  {next : α → Move β}

/-! ## taking operands -/

/-- A move that takes up to `count` values off the stack and changes nothing
besides, whether it goes on or stops. -/
def Takes (count : Nat) (move : Move α) : Prop := ∀ m : Machine, m.Lacks count (left (move m))

theorem Takes.bind {more : Nat} (hmove : Takes count move)
    (hnext : ∀ value, Takes more (next value)) : Takes (count + more) (move >>= next) := by
  intro m
  have hfirst := hmove m
  cases hresult : move m with
  | ok value m' =>
    rw [hresult] at hfirst
    rw [bind_ok hresult]
    exact hfirst.trans (hnext value m')
  | error stop m' =>
    rw [hresult] at hfirst
    rw [bind_error hresult]
    exact hfirst.trans (.refl more m')

/-- Whatever only reads takes its operands and nothing else. -/
theorem Reads.takes (h : Reads chunk bytes operands move) : Takes operands move := by
  induction h with
  | fetch => exact fun m => ⟨rfl, rfl, 0, Nat.le_refl 0, m.stack.length.zero_le, rfl⟩
  | pop =>
    intro m
    unfold Move.pop
    split
    · next value rest hstack => exact ⟨rfl, rfl, 1, by simp [left, hstack]⟩
    · exact .refl 1 m
  | peek =>
    intro m
    unfold Move.peek
    split <;> exact .refl 0 m
  | bind _ _ ihfirst ihsecond => exact ihfirst.bind ihsecond
  | _ => exact Lacks.refl 0

/-! ## failing before anything is done -/

/-- A move that, on a stack no higher than it may be, leaves one such; and that
stops only as long as it has done no more than take up to `count` values. -/
def Atomic (count : Nat) (move : Move α) : Prop :=
  ∀ m : Machine, m.Fits → match move m with
    | .ok _ m' => m'.Fits
    | .error _ m' => m.Lacks count m'

namespace Reads

/-- Operands are taken first. -/
theorem bind_atomic (hmove : Reads chunk bytes count move)
    (hnext : ∀ value, Atomic 0 (next value)) : Atomic count (move >>= next) := by
  intro m hm
  have hfirst := hmove.takes m
  cases hresult : move m with
  | ok value m' =>
    rw [hresult] at hfirst
    have hsecond := hnext value m' (hfirst.fits hm)
    rw [bind_ok hresult]
    cases hnextResult : next value m' with
    | ok value' m'' =>
      rw [hnextResult] at hsecond
      exact hsecond
    | error stop m'' =>
      rw [hnextResult] at hsecond
      exact hfirst.trans hsecond
  | error stop m' =>
    rw [hresult] at hfirst
    rw [bind_error hresult]
    exact hfirst

theorem atomic (h : Reads chunk bytes count move) : Atomic count move := by
  intro m hm
  have hleft := h.takes m
  cases hresult : move m with
  | ok value m' =>
    rw [hresult] at hleft
    exact hleft.fits hm
  | error stop m' =>
    rw [hresult] at hleft
    exact hleft

end Reads

namespace Atomic

theorem push (chunk : Chunk) (value : Value) : Atomic 0 (Move.push chunk value) := by
  intro m hm
  by_cases hroom : m.stack.length < stackCapacity
  · rw [Move.push, if_pos hroom]
    exact hroom
  · rw [Move.push, if_neg hroom]
    exact .refl 0 m

theorem write (stream : Stream) (text : Text) : Atomic 0 (Move.write stream text) :=
  fun _ hm => hm

theorem setGlobal (name : Text) (value : Value) : Atomic 0 (Move.setGlobal name value) :=
  fun _ hm => hm

/-- A value taken off for nothing is taken off for good. -/
theorem pop : Atomic 0 (Move.pop >>= fun _ => pure ()) := by
  intro ⟨offset, stack, store, written⟩ hm
  match stack with
  | [] => exact .refl 0 _
  | value :: rest =>
    have hheight : rest.length + 1 ≤ stackCapacity := hm
    show rest.length ≤ stackCapacity
    omega

theorem binary (chunk : Chunk) (operator : Value → Value → Except OperatorError Value) :
    Atomic 2 (Move.binary chunk operator) :=
  (Reads.popOperands chunk).bind_atomic fun _ => (Reads.ofOperator _).bind_atomic fun _ =>
    push chunk _

theorem equal (chunk : Chunk) : Atomic 2 (Move.equal chunk) :=
  (Reads.popOperands chunk).bind_atomic fun _ => (@Reads.heap chunk).bind_atomic fun _ =>
    (@Reads.ofDefect _ chunk _).bind_atomic fun _ => push chunk _

theorem print (chunk : Chunk) : Atomic 1 Move.print :=
  (@Reads.pop chunk).bind_atomic fun _ => (@Reads.heap chunk).bind_atomic fun _ =>
    (@Reads.ofDefect _ chunk _).bind_atomic fun _ => write _ _

/-- The sum is stored before it is pushed, but there is room for it where its
operands were. -/
theorem add (chunk : Chunk) : Atomic 2 (Move.add chunk) := by
  intro ⟨offset, stack, store, written⟩ hm
  match stack with
  | [] => exact .refl 2 _
  | [_] => exact ⟨rfl, rfl, 1, by simp, by simp, rfl⟩
  | right :: left :: rest =>
    have hheight : rest.length + 2 ≤ stackCapacity := hm
    let taken : Machine := ⟨offset, rest, store, written⟩
    have hpop : Move.popOperands ⟨offset, right :: left :: rest, store, written⟩ =
        .ok (left, right) taken := rfl
    unfold Move.add
    simp only [bind_ok hpop, bind_heap]
    obtain ⟨stop, hsum⟩ | ⟨⟨sum, heap⟩, -, hsum⟩ :=
      ofFailure_cases chunk (left.add store.heap right) taken
    · rw [bind_error hsum]
      exact ⟨rfl, rfl, 2, by simp, by simp, rfl⟩
    · have hroom : rest.length < stackCapacity := by omega
      let stored : Machine := { taken with store := { store with heap := heap } }
      have hset : Move.setHeap heap taken = .ok () stored := rfl
      have hpush : Move.push chunk sum stored = .ok () { stored with stack := sum :: rest } :=
        if_pos hroom
      rw [bind_ok hsum, bind_ok hset, hpush]
      exact hroom

/-- The value is popped after the variable is set to it, so there is one. -/
theorem defineGlobal (chunk : Chunk) : Atomic 0 (Move.defineGlobal chunk) := by
  refine (Reads.fetchName chunk).bind_atomic fun name => ?_
  intro ⟨offset, stack, store, written⟩ hm
  match stack with
  | [] => exact .refl 0 _
  | value :: rest =>
    have hheight : rest.length + 1 ≤ stackCapacity := hm
    show rest.length ≤ stackCapacity
    omega

theorem getGlobal (chunk : Chunk) : Atomic 0 (Move.getGlobal chunk) := by
  refine (Reads.fetchName chunk).bind_atomic fun name =>
    (@Reads.globals chunk).bind_atomic fun table => ?_
  cases table.get? name
  · exact (@Reads.fail chunk _ _).atomic
  · exact push chunk _

theorem assignGlobal (chunk : Chunk) : Atomic 0 (Move.assignGlobal chunk) := by
  refine (Reads.fetchName chunk).bind_atomic fun name =>
    (@Reads.globals chunk).bind_atomic fun table => ?_
  cases table.get? name
  · exact (@Reads.fail chunk _ _).atomic
  · exact (@Reads.peek chunk).bind_atomic fun value => setGlobal name value

/-- An operation that fails lacks at most its operands. -/
theorem execute (chunk : Chunk) (op : Opcode) : Atomic op.arity (Move.execute chunk op) := by
  cases op with
  | ret => exact fun m _ => .refl 0 m
  | constant => exact (Reads.fetchConstant chunk).bind_atomic fun _ => push chunk _
  | negate =>
    exact (@Reads.pop chunk).bind_atomic fun _ => (Reads.ofOperator _).bind_atomic fun _ =>
      push chunk _
  | add => exact add chunk
  | subtract => exact binary chunk _
  | multiply => exact binary chunk _
  | divide => exact binary chunk _
  | pushNil => exact push chunk _
  | pushTrue => exact push chunk _
  | pushFalse => exact push chunk _
  | not => exact (@Reads.pop chunk).bind_atomic fun _ => push chunk _
  | equal => exact equal chunk
  | greater => exact binary chunk _
  | less => exact binary chunk _
  | print => exact print chunk
  | pop => exact pop
  | defineGlobal => exact defineGlobal chunk
  | getGlobal => exact getGlobal chunk
  | setGlobal => exact assignGlobal chunk

end Atomic

end Move

/-! ## steps and runs -/

namespace Machine

open Move

variable {chunk : Chunk} {tracing : Bool} {m m' : Machine} {stop : Stop}

/-- A machine as a step leaves it that failed: with the heap and the variables
as they were, and nothing printed.  Values are missing from the stack only where
the step was an operation on them. -/
structure Fails (chunk : Chunk) (tracing : Bool) (m m' : Machine) : Prop where
  store : m'.store = m.store
  printed : printedTexts m'.written = printedTexts m.written
  written : ∃ traces, (∀ event ∈ traces, tracing = true ∧ event.stream = .traced) ∧
    m'.written = m.written ++ traces
  stack : ∃ taken, taken ≤ m.stack.length ∧ m'.stack = m.stack.drop taken ∧
    (taken = 0 ∨ ∃ op : Opcode, chunk.byte? m.offset = some (op.code : Int) ∧ taken ≤ op.arity)

theorem Fails.fits (h : m.Fails chunk tracing m') (hm : m.Fits) : m'.Fits := by
  obtain ⟨taken, -, hstack, -⟩ := h.stack
  unfold Fits at *
  rw [hstack, List.length_drop]
  omega

/-- A step that stopped while it had done no more than write its traces and take
operands. -/
theorem Lacks.fails {count offset : Nat} {traces : List Event}
    (h : Lacks count { m with offset := offset, written := m.written ++ traces } m')
    (htraces : ∀ event ∈ traces, tracing = true ∧ event.stream = .traced)
    (hcount : count = 0 ∨
      ∃ op : Opcode, chunk.byte? m.offset = some (op.code : Int) ∧ count = op.arity) :
    m.Fails chunk tracing m' := by
  obtain ⟨taken, hle, hlength, hstack⟩ := h.stack
  have hprinted : printedTexts m'.written = printedTexts m.written := by
    rw [h.written, printedTexts_append,
      printedTexts_traced fun event hevent => (htraces event hevent).2, List.append_nil]
  refine ⟨h.store, hprinted, ⟨traces, htraces, h.written⟩, taken, hlength, hstack, ?_⟩
  obtain rfl | ⟨op, hop, rfl⟩ := hcount
  · exact .inl (Nat.le_zero.1 hle)
  · exact .inr ⟨op, hop, hle⟩

/-- The byte at a place inside the code is that of the operation decoded there. -/
theorem byte?_of_decode {op : Opcode} (hlt : m.offset < chunk.length)
    (h : Opcode.decode ((chunk.byte? m.offset).getD 0) = .ok op) :
    chunk.byte? m.offset = some (op.code : Int) := by
  have hbyte := Chunk.byte?_eq hlt
  rw [hbyte] at h ⊢
  exact congrArg some (Opcode.code_of_decode h).symm

/-- A step keeps the stack as low as it has to be, or fails atomically. -/
theorem tracedStep_atomic (hm : m.Fits) (hlt : m.offset < chunk.length) (tracing : Bool) :
    match tracedStep chunk tracing m with
    | .ok _ m' => m'.Fits
    | .error _ m' => m.Fails chunk tracing m' := by
  cases hproceeds : m.proceeds chunk tracing with
  | false =>
    obtain ⟨defect, traces, htraces, hstep⟩ := tracedStep_of_not_proceeds hproceeds
    rw [hstep]
    exact (Lacks.refl 0 _).fails htraces (.inl rfl)
  | true =>
    obtain ⟨traces, htraces, hstep⟩ := tracedStep_of_proceeds hproceeds
    let traced : Machine := { m with written := m.written ++ traces }
    rw [hstep]
    obtain ⟨stop, hstop⟩ | ⟨op, hdecode, hexecute⟩ := step_cases chunk traced
    · rw [hstop]
      exact (Lacks.refl 0 _).fails htraces (.inl rfl)
    · have hatomic := Atomic.execute chunk op { traced with offset := m.offset + 1 } hm
      rw [hexecute]
      cases hresult : execute chunk op { traced with offset := m.offset + 1 } with
      | ok value m' =>
        rw [hresult] at hatomic
        exact hatomic
      | error stop m' =>
        rw [hresult] at hatomic
        exact hatomic.fails htraces (.inr ⟨op, byte?_of_decode hlt hdecode, rfl⟩)

theorem fits_kept (chunk : Chunk) (tracing : Bool) : Kept chunk tracing Fits := by
  intro m hlt hm
  have hstep := tracedStep_atomic hm hlt tracing
  cases hresult : tracedStep chunk tracing m with
  | ok value m' =>
    rw [hresult] at hstep
    exact hstep
  | error stop m' =>
    rw [hresult] at hstep
    exact hstep.fits hm

/-- A failing step is atomic.  On any code and any store, and however often the
machine was run before: its stack holds no more values than it may, and if its
next step does not go on, then the heap, the variables and what was printed are
as before the step, and the stack lacks nothing, or else one or two operands of
an operator or of a print.  Where the code ends instead, nothing changes at
all. -/
theorem failing_step_is_atomic (chunk : Chunk) (store : Store) (tracing : Bool) (count : Nat)
    (hreach : Reaches chunk tracing ((start store).runTimes chunk tracing count) m) :
    m.stack.length ≤ stackCapacity ∧
      (m.offset < chunk.length → ∀ stop m', tracedStep chunk tracing m = .error stop m' →
        m.Fails chunk tracing m') ∧
      (¬ m.offset < chunk.length → m.run chunk tracing = (.broken .missingReturn, m)) := by
  have hkept := fits_kept chunk tracing
  have hstart : (start store).Fits := Nat.zero_le _
  have hm : m.Fits := hkept.reaches hreach (hkept.runTimes count hstart)
  refine ⟨hm, fun hlt stop m' hstep => ?_, run_of_le⟩
  have hatomic := tracedStep_atomic hm hlt tracing
  rw [hstep] at hatomic
  exact hatomic

/-- There is no negative of `nil`, which stops the first run.  The second goes on
behind it with an empty stack, and stops where a subtraction finds one operand
only: that one is gone. -/
theorem failing_step_is_atomic_subtract :
    let chunk : Chunk := ⟨#[⟨7, 1⟩, ⟨2, 1⟩, ⟨8, 2⟩, ⟨4, 2⟩], #[]⟩
    let store : Store := ⟨.empty, .empty⟩
    let m : Machine := ⟨3, [.bool true], store, []⟩
    Reaches chunk false ((start store).runTimes chunk false 1) m ∧
      ∃ stop m', tracedStep chunk false m = .error stop m' ∧ m'.stack = [] ∧
        m.Fails chunk false m' := by
  intro chunk store m
  have hnil : tracedStep chunk false (start store) = .ok () ⟨1, [.nil], store, []⟩ := rfl
  have hnegate : tracedStep chunk false ⟨1, [.nil], store, []⟩ =
      .error (.failed ⟨.operator (.negation .nil), 1⟩) ⟨2, [], store, []⟩ := rfl
  have htrue : tracedStep chunk false ⟨2, [], store, []⟩ = .ok () m := rfl
  have hrun : (start store).runTimes chunk false 1 = ⟨2, [], store, []⟩ := by
    rw [runTimes, run_ok (by decide) hnil, run_error (by decide) hnegate]
    rfl
  have hreach : Reaches chunk false ((start store).runTimes chunk false 1) m := by
    rw [hrun]
    exact .step .refl (by decide) htrue
  obtain ⟨-, hfails, -⟩ := failing_step_is_atomic chunk store false 1 hreach
  exact ⟨hreach, _, _, rfl, rfl, hfails (by decide) _ _ rfl⟩

end Machine

end Lox
