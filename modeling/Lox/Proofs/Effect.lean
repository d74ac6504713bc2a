import Lox.Proofs.Tracing

/-!
# Lox.Proofs.Effect

What one step can do to a machine.

A step takes operands off the stack, pushes a value, stores one string, prints
one text or sets one variable, and does nothing besides (`Move.Effect`).  It
does one of these on any code, whether it goes on or stops
(`Move.execute_effect`); what a run can change follows from this alone.
-/

namespace Lox

theorem Chunk.mem_of_constant {chunk : Chunk} {index : Option Int} {value : Value}
    (h : chunk.constant index = .ok value) : value ∈ chunk.constants := by
  unfold constant at h
  split at h
  · next hvalue =>
    cases h
    exact mem_of_constant? hvalue
  · cases h

/-! ## values that are pushed -/

/-- A value without a handle. -/
def Value.Plain : Value → Prop
  | .string _ => False
  | _ => True

namespace Value

variable {left right value sum : Value} {heap heap' : Heap}

theorem plain_of_negate (h : left.negate = .ok value) : value.Plain := by
  cases left <;> cases h
  trivial

theorem plain_of_onNumbers {operator : Arithmetic} {f : Float → Float → Float}
    (h : onNumbers operator f left right = .ok value) : value.Plain := by
  cases left <;> cases right <;> cases h
  trivial

theorem plain_of_compare {order : NumberOrder} (h : compare order left right = .ok value) :
    value.Plain := by
  cases left <;> cases right <;> cases h
  trivial

/-- A sum is a number, or a string that was stored for it. -/
theorem add_cases (h : left.add heap right = .ok (sum, heap')) :
    (sum.Plain ∧ heap' = heap) ∨
      ∃ content, sum = .string (heap.allocate content).1 ∧ heap' = (heap.allocate content).2 := by
  unfold add at h
  split at h
  · cases h
    exact .inl ⟨trivial, rfl⟩
  · split at h
    · cases h
    · split at h
      · cases h
      · split at h
        · cases h
          exact .inr ⟨_, rfl, rfl⟩
        · cases h

end Value

/-- A value that is not computed from the stack: it has no handle, or it is a
constant of the unit or the value of a variable. -/
inductive Supplied (chunk : Chunk) (globals : Globals) : Value → Prop where
  | plain {value : Value} (h : value.Plain) : Supplied chunk globals value
  | constant {value : Value} (h : value ∈ chunk.constants) : Supplied chunk globals value
  | global {value : Value} (name : Text) (h : globals.get? name = some value) :
      Supplied chunk globals value

namespace Move

/-- What carrying out an operation can do to a machine, whether it goes on or
stops. -/
inductive Effect (chunk : Chunk) (op : Opcode) (m : Machine) : Machine → Prop where
  /-- Some operands are taken off the stack. -/
  | drops (offset count : Nat) :
      Effect chunk op m { m with offset := offset, stack := m.stack.drop count }
  /-- A value takes the place of the operands. -/
  | pushes (offset count : Nat) {value : Value} (h : Supplied chunk m.store.globals value) :
      Effect chunk op m { m with offset := offset, stack := value :: m.stack.drop count }
  /-- A string is stored, and put in the place of its parts if there is room. -/
  | stores (offset : Nat) (content : Text) {stack : List Value}
      (h : stack = m.stack.drop 2 ∨
        stack = .string (m.store.heap.allocate content).1 :: m.stack.drop 2) :
      Effect chunk op m { m with
        offset := offset, stack := stack,
        store := { m.store with heap := (m.store.heap.allocate content).2 } }
  /-- A text is printed for the value on top of the stack. -/
  | prints (offset : Nat) (shown : Text) :
      Effect chunk op m { m with
        offset := offset, stack := m.stack.drop 1,
        written := m.written ++ [⟨.printed, shown⟩] }
  /-- A variable is set to the value on top of the stack: by its definition, or
  by an assignment if it is defined already. -/
  | sets (offset count : Nat) {name : Text} {value : Value}
      (hop : op = .defineGlobal ∨ op = .setGlobal ∧ m.store.globals.get? name ≠ none)
      (hname : fetchName chunk m = .ok name { m with offset := m.offset + 1 })
      (hvalue : value ∈ m.stack) :
      Effect chunk op m { m with
        offset := offset, stack := m.stack.drop count,
        store := { m.store with globals := m.store.globals.set name value } }

/-! ## how moves end -/

variable {chunk : Chunk} {op : Opcode} {m m' : Machine}

theorem ofDefect_cases {α : Type} (result : Except Defect α) (m : Machine) :
    (∃ defect, ofDefect result m = .error (.broken defect) m) ∨
      ∃ value, result = .ok value ∧ ofDefect result m = .ok value m := by
  cases result with
  | error defect => exact .inl ⟨_, rfl⟩
  | ok value => exact .inr ⟨value, rfl, rfl⟩

theorem ofOperator_cases {α : Type} (chunk : Chunk) (result : Except OperatorError α)
    (m : Machine) :
    (∃ stop, ofOperator chunk result m = .error stop m) ∨
      ∃ value, result = .ok value ∧ ofOperator chunk result m = .ok value m := by
  cases result with
  | error error => exact .inl ⟨_, rfl⟩
  | ok value => exact .inr ⟨value, rfl, rfl⟩

theorem ofFailure_cases {α : Type} (chunk : Chunk) (result : Except Failure α) (m : Machine) :
    (∃ stop, ofFailure chunk result m = .error stop m) ∨
      ∃ value, result = .ok value ∧ ofFailure chunk result m = .ok value m := by
  cases result with
  | error failure => cases failure <;> exact .inl ⟨_, rfl⟩
  | ok value => exact .inr ⟨value, rfl, rfl⟩

theorem push_cases (chunk : Chunk) (value : Value) (m : Machine) :
    (∃ stop, push chunk value m = .error stop m) ∨
      push chunk value m = .ok () { m with stack := value :: m.stack } := by
  unfold push
  split
  · exact .inr rfl
  · exact .inl ⟨_, rfl⟩

theorem pop_cases (m : Machine) :
    (∃ stop, pop m = .error stop m) ∨
      ∃ value, value ∈ m.stack ∧ pop m = .ok value { m with stack := m.stack.drop 1 } := by
  unfold pop
  split
  · next value rest hstack =>
    rw [hstack]
    exact .inr ⟨value, .head _, rfl⟩
  · exact .inl ⟨_, rfl⟩

theorem peek_cases (m : Machine) :
    (∃ stop, peek m = .error stop m) ∨ ∃ value, value ∈ m.stack ∧ peek m = .ok value m := by
  unfold peek
  split
  · next value rest hstack =>
    rw [hstack]
    exact .inr ⟨value, .head _, rfl⟩
  · exact .inl ⟨_, rfl⟩

theorem popOperands_cases (m : Machine) :
    (∃ stop count, popOperands m = .error stop { m with stack := m.stack.drop count }) ∨
      ∃ operands, popOperands m = .ok operands { m with stack := m.stack.drop 2 } := by
  unfold popOperands
  obtain ⟨stop, hright⟩ | ⟨right, -, hright⟩ := pop_cases m
  · exact .inl ⟨stop, 0, bind_error hright⟩
  · rw [bind_ok hright]
    obtain ⟨stop, hleft⟩ | ⟨left, -, hleft⟩ := pop_cases { m with stack := m.stack.drop 1 }
    · exact .inl ⟨stop, 1, bind_error hleft⟩
    · rw [bind_ok hleft, List.drop_drop]
      exact .inr ⟨(left, right), rfl⟩

/-- A constant is found in the pool. -/
theorem fetchConstant_cases (chunk : Chunk) (m : Machine) :
    (∃ stop, fetchConstant chunk m = .error stop { m with offset := m.offset + 1 }) ∨
      ∃ value, value ∈ chunk.constants ∧
        fetchConstant chunk m = .ok value { m with offset := m.offset + 1 } := by
  unfold fetchConstant
  rw [bind_fetch]
  obtain ⟨defect, h⟩ | ⟨value, hvalue, h⟩ :=
    ofDefect_cases (chunk.constant (chunk.byte? m.offset)) { m with offset := m.offset + 1 }
  · exact .inl ⟨_, h⟩
  · exact .inr ⟨value, Chunk.mem_of_constant hvalue, h⟩

theorem fetchName_cases (chunk : Chunk) (m : Machine) :
    (∃ stop, fetchName chunk m = .error stop { m with offset := m.offset + 1 }) ∨
      ∃ name, fetchName chunk m = .ok name { m with offset := m.offset + 1 } := by
  unfold fetchName
  obtain ⟨stop, h⟩ | ⟨value, -, h⟩ := fetchConstant_cases chunk m
  · exact .inl ⟨stop, bind_error h⟩
  · rw [bind_ok h, bind_heap]
    obtain ⟨defect, h⟩ | ⟨content, -, h⟩ :=
      ofDefect_cases (value.content? m.store.heap) { m with offset := m.offset + 1 }
    · exact .inl ⟨_, bind_error h⟩
    · rw [bind_ok h]
      cases content with
      | none => exact .inl ⟨_, rfl⟩
      | some name => exact .inr ⟨name, rfl⟩

/-! ## operations -/

open Effect

/-- Push a value that is supplied, after some operands were taken off. -/
theorem push_effect (offset count : Nat) {value : Value}
    (h : Supplied chunk m.store.globals value) :
    Effect chunk op m (left (push chunk value
      { m with offset := offset, stack := m.stack.drop count })) := by
  obtain ⟨stop, hpush⟩ | hpush :=
    push_cases chunk value { m with offset := offset, stack := m.stack.drop count }
  · rw [hpush]
    exact drops offset count
  · rw [hpush]
    exact pushes offset count h

/-- Push what an operator gives, after its operands were taken off. -/
theorem operator_effect (count : Nat) {result : Except OperatorError Value}
    (h : ∀ value, result = .ok value → value.Plain) :
    Effect chunk op m (left ((ofOperator chunk result >>= push chunk)
      { m with stack := m.stack.drop count })) := by
  obtain ⟨stop, hresult⟩ | ⟨value, hvalue, hresult⟩ :=
    ofOperator_cases chunk result { m with stack := m.stack.drop count }
  · rw [bind_error hresult]
    exact drops m.offset count
  · rw [bind_ok hresult]
    exact push_effect m.offset count (.plain (h value hvalue))

/-- A move that takes a value off the stack first. -/
theorem withTop_effect {next : Value → Move Unit}
    (hnext : ∀ value, Effect chunk op m (left (next value { m with stack := m.stack.drop 1 }))) :
    Effect chunk op m (left ((pop >>= next) m)) := by
  obtain ⟨stop, hpop⟩ | ⟨value, -, hpop⟩ := pop_cases m
  · rw [bind_error hpop]
    exact drops m.offset 0
  · rw [bind_ok hpop]
    exact hnext value

/-- A move that takes two operands off the stack first. -/
theorem withOperands_effect {next : Value × Value → Move Unit}
    (hnext : ∀ operands,
      Effect chunk op m (left (next operands { m with stack := m.stack.drop 2 }))) :
    Effect chunk op m (left ((popOperands >>= next) m)) := by
  obtain ⟨stop, count, hpop⟩ | ⟨operands, hpop⟩ := popOperands_cases m
  · rw [bind_error hpop]
    exact drops m.offset count
  · rw [bind_ok hpop]
    exact hnext operands

theorem unary_effect (operator : Value → Except OperatorError Value)
    (h : ∀ value result, operator value = .ok result → result.Plain) :
    Effect chunk op m (left ((pop >>= fun value => ofOperator chunk (operator value) >>=
      push chunk) m)) := withTop_effect fun value => operator_effect 1 (h value)

theorem binary_effect {operator : Value → Value → Except OperatorError Value}
    (h : ∀ left right result, operator left right = .ok result → result.Plain) :
    Effect chunk op m (left (binary chunk operator m)) :=
  withOperands_effect fun operands => operator_effect 2 (h operands.1 operands.2)

theorem add_effect : Effect chunk op m (left (add chunk m)) := by
  refine withOperands_effect fun ⟨left, right⟩ => ?_
  simp only [bind_heap]
  obtain ⟨stop, hadd⟩ | ⟨⟨sum, heap'⟩, hsum, hadd⟩ :=
    ofFailure_cases chunk (left.add m.store.heap right) { m with stack := m.stack.drop 2 }
  · rw [bind_error hadd]
    exact drops m.offset 2
  rw [bind_ok hadd]
  obtain ⟨hplain, rfl⟩ | ⟨content, rfl, rfl⟩ := Value.add_cases hsum
  · exact push_effect m.offset 2 (.plain hplain)
  · let stored : Machine := { m with
      stack := m.stack.drop 2,
      store := { m.store with heap := (m.store.heap.allocate content).2 } }
    show Effect chunk op m (Move.left (push chunk _ stored))
    obtain ⟨stop, hpush⟩ | hpush :=
      push_cases chunk (.string (m.store.heap.allocate content).1) stored
    · rw [hpush]
      exact stores m.offset content (.inl rfl)
    · rw [hpush]
      exact stores m.offset content (.inr rfl)

theorem equal_effect : Effect chunk op m (left (equal chunk m)) := by
  refine withOperands_effect fun ⟨left, right⟩ => ?_
  simp only [bind_heap]
  obtain ⟨defect, hequal⟩ | ⟨truth, -, hequal⟩ :=
    ofDefect_cases (left.equal m.store.heap right) { m with stack := m.stack.drop 2 }
  · rw [bind_error hequal]
    exact drops m.offset 2
  · rw [bind_ok hequal]
    exact push_effect m.offset 2 (.plain trivial)

theorem print_effect : Effect chunk op m (left (print m)) := by
  refine withTop_effect fun value => ?_
  rw [bind_heap]
  obtain ⟨defect, hshown⟩ | ⟨shown, -, hshown⟩ :=
    ofDefect_cases (value.display m.store.heap) { m with stack := m.stack.drop 1 }
  · rw [bind_error hshown]
    exact drops m.offset 1
  · rw [bind_ok hshown]
    exact prints m.offset _

/-- A move that gives the name in the pool to what comes next. -/
theorem withName_effect {next : Text → Move Unit}
    (hnext : ∀ name, fetchName chunk m = .ok name { m with offset := m.offset + 1 } →
      Effect chunk op m (left (next name { m with offset := m.offset + 1 }))) :
    Effect chunk op m (left ((fetchName chunk >>= next) m)) := by
  obtain ⟨stop, hname⟩ | ⟨name, hname⟩ := fetchName_cases chunk m
  · rw [bind_error hname]
    exact drops (m.offset + 1) 0
  · rw [bind_ok hname]
    exact hnext name hname

theorem defineGlobal_effect : Effect chunk .defineGlobal m (left (defineGlobal chunk m)) := by
  refine withName_effect fun name hname => ?_
  obtain ⟨stop, hpeek⟩ | ⟨value, hvalue, hpeek⟩ :=
    peek_cases { m with offset := m.offset + 1 }
  · rw [bind_error hpeek]
    exact drops (m.offset + 1) 0
  rw [bind_ok hpeek]
  let defined : Machine := { m with
    offset := m.offset + 1,
    store := { m.store with globals := m.store.globals.set name value } }
  show Effect chunk .defineGlobal m (left ((pop >>= fun _ => pure ()) defined))
  obtain ⟨stop, hpop⟩ | ⟨top, -, hpop⟩ := pop_cases defined
  · rw [bind_error hpop]
    exact sets (m.offset + 1) 0 (.inl rfl) hname hvalue
  · rw [bind_ok hpop]
    exact sets (m.offset + 1) 1 (.inl rfl) hname hvalue

theorem getGlobal_effect : Effect chunk op m (left (getGlobal chunk m)) := by
  refine withName_effect fun name _ => ?_
  rw [bind_globals]
  cases hvalue : m.store.globals.get? name with
  | none => exact drops (m.offset + 1) 0
  | some value => exact push_effect (m.offset + 1) 0 (.global name hvalue)

theorem assignGlobal_effect : Effect chunk .setGlobal m (left (assignGlobal chunk m)) := by
  refine withName_effect fun name hname => ?_
  rw [bind_globals]
  cases hold : m.store.globals.get? name with
  | none => exact drops (m.offset + 1) 0
  | some old =>
    obtain ⟨stop, hpeek⟩ | ⟨value, hvalue, hpeek⟩ :=
      peek_cases { m with offset := m.offset + 1 }
    · simp only [bind_error hpeek]
      exact drops (m.offset + 1) 0
    · simp only [bind_ok hpeek]
      exact sets (m.offset + 1) 0 (.inr ⟨rfl, by simp [hold]⟩) hname hvalue

/-- Whatever the code is, carrying out an operation has one of these effects. -/
theorem execute_effect (chunk : Chunk) (op : Opcode) (m : Machine) :
    Effect chunk op m (left (execute chunk op m)) := by
  cases op with
  | ret => exact drops m.offset 0
  | constant =>
    show Effect chunk _ m (left ((fetchConstant chunk >>= push chunk) m))
    obtain ⟨stop, h⟩ | ⟨value, hvalue, h⟩ := fetchConstant_cases chunk m
    · rw [bind_error h]
      exact drops (m.offset + 1) 0
    · rw [bind_ok h]
      exact push_effect (m.offset + 1) 0 (.constant hvalue)
  | negate => exact unary_effect Value.negate fun _ _ => Value.plain_of_negate
  | not =>
    refine unary_effect (fun value => .ok (.bool !value.isTruthy)) ?_
    rintro value result ⟨⟩
    trivial
  | add => exact add_effect
  | subtract => exact binary_effect fun _ _ _ => Value.plain_of_onNumbers
  | multiply => exact binary_effect fun _ _ _ => Value.plain_of_onNumbers
  | divide => exact binary_effect fun _ _ _ => Value.plain_of_onNumbers
  | pushNil => exact push_effect m.offset 0 (.plain trivial)
  | pushTrue => exact push_effect m.offset 0 (.plain trivial)
  | pushFalse => exact push_effect m.offset 0 (.plain trivial)
  | equal => exact equal_effect
  | greater => exact binary_effect fun _ _ _ => Value.plain_of_compare
  | less => exact binary_effect fun _ _ _ => Value.plain_of_compare
  | print => exact print_effect
  | pop => exact withTop_effect fun _ => drops m.offset 1
  | defineGlobal => exact defineGlobal_effect
  | getGlobal => exact getGlobal_effect
  | setGlobal => exact assignGlobal_effect

end Move

/-! ## what follows from an effect -/

theorem Heap.Live.extend {heap heap' : Heap} {value : Value} (h : heap.Live value)
    (hextends : heap.Extends heap') : heap'.Live value :=
  let ⟨c, hview⟩ := h
  ⟨c, hextends.view? hview⟩

theorem Value.Plain.live {value : Value} (h : value.Plain) (heap : Heap) : heap.Live value := by
  cases value with
  | string handle => exact h.elim
  | _ => exact ⟨_, rfl⟩

/-- Every handle that a machine can come by names a string: those of the
constants, on the stack and in variables. -/
structure Machine.Live (chunk : Chunk) (m : Machine) : Prop where
  built : m.store.heap.Built
  constants : ∀ value ∈ chunk.constants, m.store.heap.Live value
  stack : ∀ value ∈ m.stack, m.store.heap.Live value
  globals : ∀ name value, m.store.globals.get? name = some value → m.store.heap.Live value

theorem Supplied.live {chunk : Chunk} {m : Machine} {value : Value}
    (h : Supplied chunk m.store.globals value) (hm : m.Live chunk) :
    m.store.heap.Live value := by
  cases h with
  | plain h => exact h.live _
  | constant h => exact hm.constants value h
  | global name h => exact hm.globals name value h

namespace Move

variable {chunk : Chunk} {op : Opcode} {m m' : Machine}

namespace Effect

/-- Nothing is written but printed texts, and at most one of them. -/
theorem written (h : Effect chunk op m m') :
    ∃ events, m'.written = m.written ++ events ∧ ∀ event ∈ events, event.stream = .printed := by
  cases h with
  | prints offset shown => exact ⟨[⟨.printed, shown⟩], rfl, by simp⟩
  | _ => exact ⟨[], (List.append_nil _).symm, by simp⟩

/-- Every string keeps its handle. -/
theorem extends_heap (h : Effect chunk op m m') (hbuilt : m.store.heap.Built) :
    m.store.heap.Extends m'.store.heap ∧ m'.store.heap.Built := by
  cases h with
  | stores offset content =>
    exact ⟨Heap.extends_allocate hbuilt.sound content, hbuilt.allocate content⟩
  | _ => exact ⟨.refl _, hbuilt⟩

/-- A machine does not come by a handle that names nothing. -/
theorem live (h : Effect chunk op m m') (hm : m.Live chunk) : m'.Live chunk := by
  obtain ⟨hextends, hbuilt⟩ := h.extends_heap hm.built
  have hconstants : ∀ value ∈ chunk.constants, m'.store.heap.Live value := fun value hvalue =>
    (hm.constants value hvalue).extend hextends
  have hkept : ∀ count, ∀ value ∈ m.stack.drop count, m'.store.heap.Live value :=
    fun count value hvalue => (hm.stack value (List.mem_of_mem_drop hvalue)).extend hextends
  have hglobals : ∀ name value, m.store.globals.get? name = some value →
      m'.store.heap.Live value := fun name value hvalue =>
    (hm.globals name value hvalue).extend hextends
  cases h with
  | drops offset count => exact ⟨hbuilt, hconstants, hkept count, hglobals⟩
  | pushes offset count hvalue =>
    exact ⟨hbuilt, hconstants, List.forall_mem_cons.2 ⟨hvalue.live hm, hkept count⟩, hglobals⟩
  | stores offset content hstack =>
    refine ⟨hbuilt, hconstants, ?_, hglobals⟩
    obtain rfl | rfl := hstack
    · exact hkept 2
    · have hnew : (m.store.heap.allocate content).2.view?
          (.string (m.store.heap.allocate content).1) = some (.text content) := by
        rw [Heap.view?, Heap.get?_allocate hm.built.sound, Option.map_some]
      exact List.forall_mem_cons.2 ⟨⟨_, hnew⟩, hkept 2⟩
  | prints offset shown => exact ⟨hbuilt, hconstants, hkept 1, hglobals⟩
  | @sets offset count name value hop hname hvalue =>
    refine ⟨hbuilt, hconstants, hkept count, fun other old hold => ?_⟩
    rw [Globals.get?_set] at hold
    split at hold
    · cases hold
      exact hm.stack _ hvalue
    · exact hm.globals other old hold

end Effect

/-! ## steps -/

/-- A step carries out the operation it decodes, or stops at a byte that is
none. -/
theorem step_cases (chunk : Chunk) (m : Machine) :
    (∃ stop, step chunk m = .error stop { m with offset := m.offset + 1 }) ∨
      ∃ op, Opcode.decode ((chunk.byte? m.offset).getD 0) = .ok op ∧
        step chunk m = execute chunk op { m with offset := m.offset + 1 } := by
  unfold step
  rw [bind_fetch]
  obtain ⟨defect, h⟩ | ⟨op, hdecode, h⟩ := ofDefect_cases
    (Opcode.decode ((chunk.byte? m.offset).getD 0)) { m with offset := m.offset + 1 }
  · exact .inl ⟨_, bind_error h⟩
  · exact .inr ⟨op, hdecode, bind_ok h⟩

theorem written_step (chunk : Chunk) (m : Machine) :
    ∃ events, (left (step chunk m)).written = m.written ++ events ∧
      ∀ event ∈ events, event.stream = .printed := by
  obtain ⟨stop, h⟩ | ⟨op, -, h⟩ := step_cases chunk m
  · rw [h]
    exact ⟨[], (List.append_nil _).symm, by simp⟩
  · rw [h]
    exact (execute_effect chunk op { m with offset := m.offset + 1 }).written

theorem live_step (hm : m.Live chunk) : (left (step chunk m)).Live chunk := by
  obtain ⟨stop, h⟩ | ⟨op, -, h⟩ := step_cases chunk m
  · rw [h]
    exact ⟨hm.built, hm.constants, hm.stack, hm.globals⟩
  · rw [h]
    exact (execute_effect chunk op { m with offset := m.offset + 1 }).live
      ⟨hm.built, hm.constants, hm.stack, hm.globals⟩

end Move

end Lox
