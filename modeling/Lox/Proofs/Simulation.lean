import Lox.Proofs.Encoding
import Lox.Proofs.Frame
import Lox.Proofs.Tracing

/-!
# Lox.Proofs.Simulation

The machine follows frames.

A machine shows a frame if its handles name the contents of the frame
(`Machine.Shows`).  Where its code goes on with an instruction, its next step
does what the instruction does with the frame (`Move.tracedStep_follows`),
traced or not: what it pushes shows what the frame pushes, and where the frame
fails it fails in the same way.
-/

namespace Lox

/-- The texts that were printed, in order. -/
def printedTexts (events : List Event) : List Text :=
  (events.filter (·.stream = .printed)).map Event.text

@[simp] theorem printedTexts_append (before after : List Event) :
    printedTexts (before ++ after) = printedTexts before ++ printedTexts after := by
  rw [printedTexts, List.filter_append, List.map_append]
  rfl

/-- Traces are not printed. -/
theorem printedTexts_traced {events : List Event} (h : ∀ event ∈ events, event.stream = .traced) :
    printedTexts events = [] := by
  rw [printedTexts, List.filter_eq_nil_iff.2 fun event hevent => by simp [h event hevent],
    List.map_nil]

/-- Events all of which are printed are known by their texts. -/
theorem map_printedTexts {events : List Event} (h : ∀ event ∈ events, event.stream = .printed) :
    (printedTexts events).map (Event.mk .printed) = events := by
  have hmk : ∀ event ∈ events, Event.mk .printed event.text = event := fun event hevent => by
    rw [← h event hevent]
  rw [printedTexts, List.filter_eq_self.2 fun event hevent => by simp [h event hevent],
    List.map_map]
  exact (List.map_congr_left hmk).trans (List.map_id events)

namespace Machine

/-- The store and the output of a machine are a memory, and the pool of its
unit holds certain contents. -/
structure Recalls (chunk : Chunk) (pool : List Content) (m : Machine) (memory : Memory) : Prop where
  built : m.store.heap.Built
  constants : chunk.constants.toList.map m.store.heap.view? = pool.map some
  globals : ∀ name, (m.store.globals.get? name).map m.store.heap.view? =
    (memory.environment name).map some
  printed : printedTexts m.written = memory.printed

/-- The stack of a machine, too, is that of a frame. -/
structure Shows (chunk : Chunk) (pool : List Content) (m : Machine) (frame : Frame) : Prop where
  recalls : m.Recalls chunk pool frame.memory
  stack : m.stack.map m.store.heap.view? = frame.stack.map some
  room : frame.stack.length ≤ stackCapacity

variable {chunk : Chunk} {pool : List Content} {m : Machine} {frame : Frame} {memory : Memory}
  {value : Value} {c : Content} {heap' : Heap}

namespace Recalls

/-- The place in the code and the stack are no part of a memory. -/
theorem move (h : m.Recalls chunk pool memory) (offset : Nat) (stack : List Value) :
    Recalls chunk pool { m with offset := offset, stack := stack } memory :=
  ⟨h.built, h.constants, h.globals, h.printed⟩

theorem write_traced (h : m.Recalls chunk pool memory) {events : List Event}
    (hevents : ∀ event ∈ events, event.stream = .traced) :
    Recalls chunk pool { m with written := m.written ++ events } memory := by
  refine ⟨h.built, h.constants, h.globals, ?_⟩
  rw [← h.printed, printedTexts_append, printedTexts_traced hevents, List.append_nil]

theorem write_printed (h : m.Recalls chunk pool memory) (c : Content) :
    Recalls chunk pool { m with written := m.written ++ [⟨.printed, c.display ++ [newline]⟩] }
      (memory.print c) := by
  refine ⟨h.built, h.constants, h.globals, ?_⟩
  rw [Memory.print, ← h.printed, printedTexts_append]
  rfl

/-- A string that is stored leaves everything as it was. -/
theorem setHeap (h : m.Recalls chunk pool memory) (hextends : m.store.heap.Extends heap')
    (hbuilt : heap'.Built) :
    Recalls chunk pool { m with store := { m.store with heap := heap' } } memory := by
  refine ⟨hbuilt, hextends.views h.constants, fun name => ?_, h.printed⟩
  have hname := h.globals name
  cases hvalue : m.store.globals.get? name with
  | none => rwa [hvalue] at hname
  | some value =>
    rw [hvalue] at hname
    cases hcontent : memory.environment name with
    | none =>
      rw [hcontent] at hname
      cases hname
    | some c =>
      rw [hcontent, Option.map_some, Option.map_some] at hname
      rw [Option.map_some, Option.map_some, hextends.view? (Option.some.inj hname)]

theorem setGlobal (h : m.Recalls chunk pool memory) (hview : m.store.heap.view? value = some c)
    (name : Text) :
    Recalls chunk pool
      { m with store := { m.store with globals := m.store.globals.set name value } }
      (memory.define name c) := by
  refine ⟨h.built, h.constants, fun other => ?_, h.printed⟩
  simp only [Globals.get?_set, Memory.define]
  split
  · rw [Option.map_some, hview, Option.map_some]
  · exact h.globals other

theorem view_global (h : m.Recalls chunk pool memory) {name : Text}
    (hc : memory.environment name = some c) :
    ∃ value, m.store.globals.get? name = some value ∧ m.store.heap.view? value = some c := by
  have hname := h.globals name
  rw [hc, Option.map_some] at hname
  exact Option.map_eq_some_iff.1 hname

theorem global_none (h : m.Recalls chunk pool memory) {name : Text}
    (hc : memory.environment name = none) :
    m.store.globals.get? name = none := by
  have hname := h.globals name
  rw [hc, Option.map_none] at hname
  exact Option.map_eq_none_iff.1 hname

/-- Every entry of the pool is that of the unit. -/
theorem constant (h : m.Recalls chunk pool memory) {entry : Nat} (hc : pool[entry]? = some c) :
    ∃ value, chunk.constants[entry]? = some value ∧ m.store.heap.view? value = some c := by
  have hentry := congrArg (·[entry]?) h.constants
  simp only [List.getElem?_map, hc, Option.map_some] at hentry
  obtain ⟨value, hvalue, hview⟩ := Option.map_eq_some_iff.1 hentry
  exact ⟨value, by rw [← Array.getElem?_toList, hvalue], hview⟩

end Recalls

namespace Shows

theorem setOffset (h : m.Shows chunk pool frame) (offset : Nat) :
    Shows chunk pool { m with offset := offset } frame :=
  ⟨h.recalls.move offset m.stack, h.stack, h.room⟩

theorem length_stack (h : m.Shows chunk pool frame) : m.stack.length = frame.stack.length := by
  simpa using congrArg List.length h.stack

theorem live_stack (h : m.Shows chunk pool frame) :
    ∀ value ∈ m.stack, m.store.heap.Live value := Heap.Live.of_views h.stack

theorem live_constants (h : m.Shows chunk pool frame) :
    ∀ value ∈ chunk.constants, m.store.heap.Live value := fun value hvalue =>
  Heap.Live.of_views h.recalls.constants value (Array.mem_toList_iff.2 hvalue)

/-- The value on top of a stack, and the machine without it. -/
theorem exists_pop (h : m.Shows chunk pool frame) {rest : List Content}
    (hstack : frame.stack = c :: rest) :
    ∃ value values, m.stack = value :: values ∧ m.store.heap.view? value = some c ∧
      Shows chunk pool { m with stack := values } ⟨rest, frame.memory⟩ ∧
      rest.length < stackCapacity := by
  have hviews := h.stack
  have hroom := h.room
  rw [hstack] at hviews hroom
  cases hvalues : m.stack with
  | nil =>
    rw [hvalues] at hviews
    cases hviews
  | cons value values =>
    rw [hvalues, List.map_cons, List.map_cons, List.cons.injEq] at hviews
    exact ⟨value, values, rfl, hviews.1,
      ⟨h.recalls.move m.offset values, hviews.2, Nat.le_of_succ_le hroom⟩, hroom⟩

theorem setHeap (h : m.Shows chunk pool frame) (hextends : m.store.heap.Extends heap')
    (hbuilt : heap'.Built) :
    Shows chunk pool { m with store := { m.store with heap := heap' } } frame :=
  ⟨h.recalls.setHeap hextends hbuilt, hextends.views h.stack, h.room⟩

end Shows

end Machine

/-! ## moves -/

namespace Move

open Machine

/-- A move that ends at an offset does what the progress of a frame says. -/
def Follows (chunk : Chunk) (pool : List Content) (offset : Nat) (progress : Progress)
    (result : EStateM.Result Stop Machine Unit) : Prop :=
  match progress with
  | .next frame => ∃ m, result = .ok () m ∧ m.offset = offset ∧ m.Shows chunk pool frame
  | .failed error memory =>
    ∃ m, result = .error (.failed error) m ∧ m.Recalls chunk pool memory
  | .stuck => True

variable {chunk : Chunk} {pool : List Content} {m : Machine} {frame : Frame} {memory : Memory}
  {value : Value} {c : Content} {offset line : Nat}

theorem Follows.of_eq {progress : Progress} {result result' : EStateM.Result Stop Machine Unit}
    (heq : result = result') (h : Follows chunk pool offset progress result') :
    Follows chunk pool offset progress result := heq ▸ h

theorem push_follows (h : m.Shows chunk pool frame) (hoffset : m.offset = offset)
    (hview : m.store.heap.view? value = some c) :
    Follows chunk pool offset (frame.push c) (push chunk value m) := by
  unfold Frame.push
  split
  · next hlt =>
    refine ⟨{ m with stack := value :: m.stack }, ?_, hoffset, ?_⟩
    · rw [push, if_pos (by rw [h.length_stack]; exact hlt)]
    · refine ⟨h.recalls.move m.offset _, ?_, hlt⟩
      rw [List.map_cons, List.map_cons, hview, h.stack]
  · trivial

theorem fail_of_line {α : Type} (hline : chunk.line? ↑(m.offset - 1) = some (line : Int))
    (cause : Cause) : (fail chunk cause : Move α) m = .error (.failed ⟨cause, line⟩) m := by
  rw [fail, hline, Option.getD_some]

theorem fail_follows (h : m.Recalls chunk pool memory)
    (hline : chunk.line? ↑(m.offset - 1) = some (line : Int)) (cause : Cause) :
    Follows chunk pool offset (.failed ⟨cause, line⟩ memory) (fail chunk cause m) :=
  ⟨m, fail_of_line hline cause, h⟩

/-- A move that takes a value off the stack first. -/
theorem withTop_follows {next : Value → Move Unit} {onward : Content → List Content → Progress}
    (h : m.Shows chunk pool frame)
    (hnext : ∀ value c rest m', m'.offset = m.offset → m'.store.heap.view? value = some c →
      m'.Shows chunk pool ⟨rest, frame.memory⟩ → rest.length < stackCapacity →
      Follows chunk pool offset (onward c rest) (next value m')) :
    Follows chunk pool offset (frame.withTop onward) ((pop >>= next) m) := by
  unfold Frame.withTop
  split
  · next c rest hstack =>
    obtain ⟨value, values, hvalues, hview, hshows, hroom⟩ := h.exists_pop hstack
    have hpop : pop m = .ok value { m with stack := values } := by rw [pop, hvalues]
    rw [bind_ok hpop]
    exact hnext value c rest _ rfl hview hshows hroom
  · trivial

/-- A move that looks at the value on top of the stack first. -/
theorem peek_follows {next : Value → Move Unit} {onward : Content → List Content → Progress}
    (h : m.Shows chunk pool frame)
    (hnext : ∀ value c rest, frame.stack = c :: rest → m.store.heap.view? value = some c →
      Follows chunk pool offset (onward c rest) (next value m)) :
    Follows chunk pool offset (frame.withTop onward) ((peek >>= next) m) := by
  unfold Frame.withTop
  split
  · next c rest hstack =>
    obtain ⟨value, values, hvalues, hview, -, -⟩ := h.exists_pop hstack
    have hpeek : peek m = .ok value m := by rw [peek, hvalues]
    rw [bind_ok hpeek]
    exact hnext value c rest hstack hview
  · trivial

/-- A move that takes two operands off the stack first. -/
theorem binary_follows {next : Value × Value → Move Unit} {op : BinaryOp}
    (h : m.Shows chunk pool frame)
    (hnext : ∀ left right a b rest m', m'.offset = m.offset →
      m'.store.heap.view? left = some a → m'.store.heap.view? right = some b →
      m'.Shows chunk pool ⟨rest, frame.memory⟩ → rest.length < stackCapacity →
      Follows chunk pool offset
        (.ofContent rest (Evaluation.operate (op.apply a b) line frame.memory))
        (next (left, right) m')) :
    Follows chunk pool offset (frame.binary op line) ((popOperands >>= next) m) := by
  unfold Frame.binary
  split
  · next b a rest hstack =>
    obtain ⟨right, values, hvalues, hright, hshows, -⟩ := h.exists_pop hstack
    obtain ⟨left, values', hvalues', hleft, hshows', hroom⟩ := hshows.exists_pop rfl
    obtain rfl : values = left :: values' := hvalues'
    have hpop : pop m = .ok right { m with stack := left :: values' } := by rw [pop, hvalues]
    have hoperands : popOperands m = .ok (left, right) { m with stack := values' } :=
      bind_ok hpop
    rw [bind_ok hoperands]
    exact hnext left right a b rest _ rfl hleft hright hshows' hroom
  · trivial

/-- Push what an operator gives, or fail as it does. -/
theorem operate_follows {result : Except OperatorError Value}
    {result' : Except OperatorError Content} {rest : List Content}
    (h : m.Shows chunk pool ⟨rest, memory⟩) (hoffset : m.offset = offset)
    (hroom : rest.length < stackCapacity)
    (hline : chunk.line? ↑(m.offset - 1) = some (line : Int))
    (hviews : result.map m.store.heap.view? = result'.map some) :
    Follows chunk pool offset (.ofContent rest (Evaluation.operate result' line memory))
      ((ofOperator chunk result >>= push chunk) m) := by
  cases result' with
  | ok c =>
    cases result with
    | error error => cases hviews
    | ok value =>
      have hpush := push_follows h hoffset (Except.ok.inj hviews)
      rw [Frame.push_of_lt hroom] at hpush
      exact hpush
  | error error =>
    cases result with
    | ok value => cases hviews
    | error error' =>
      obtain rfl : error' = error := Except.error.inj hviews
      exact fail_follows h.recalls hline _

/-! ## operands of instructions -/

variable {instruction : Instruction} {code : List Instruction}

theorem fetchConstant_of_goesOn (hcode : chunk.GoesOn offset (instruction :: code)) {entry : Nat}
    (hwidths : instruction.opcode.operandWidths = [1])
    (hoperands : instruction.operands = [(entry : Int)]) (hlt : entry < 256)
    (hm : m.offset = offset + 1) (hvalue : chunk.constants[entry]? = some value) :
    fetchConstant chunk m = .ok value { m with offset := offset + 2 } := by
  have hbyte := hcode.byte?_operand hwidths hoperands hlt
  have hfetch : fetch chunk m = .ok (some (entry : Int)) { m with offset := offset + 2 } := by
    rw [fetch, hm, hbyte]
  have hconstant : chunk.constant (some (entry : Int)) = .ok value := by
    have hentry : chunk.constant? (some (entry : Int)) = chunk.constants[entry]? := rfl
    rw [Chunk.constant, hentry, hvalue]
  refine (bind_ok hfetch).trans ?_
  rw [hconstant]
  rfl

/-- An entry of the pool is fetched as a value that shows it. -/
theorem exists_fetchConstant (hcode : chunk.GoesOn offset (instruction :: code)) {entry : Nat}
    (hwidths : instruction.opcode.operandWidths = [1]) (hpool : pool.length ≤ poolCapacity)
    (hoperands : instruction.operands = [(entry : Int)]) (hc : pool[entry]? = some c)
    (h : m.Shows chunk pool frame) (hm : m.offset = offset + 1) :
    ∃ value, fetchConstant chunk m = .ok value { m with offset := offset + 2 } ∧
      m.store.heap.view? value = some c := by
  obtain ⟨value, hvalue, hview⟩ := h.recalls.constant hc
  have hlt : entry < poolCapacity := Nat.lt_of_lt_of_le (List.getElem?_eq_some_iff.1 hc).1 hpool
  exact ⟨value, fetchConstant_of_goesOn hcode hwidths hoperands hlt hm hvalue, hview⟩

/-- A move that fetches a pool entry first. -/
theorem withContent_follows {next : Value → Move Unit} {onward : Content → Progress}
    (hcode : chunk.GoesOn offset (instruction :: code))
    (hwidths : instruction.opcode.operandWidths = [1]) (hpool : pool.length ≤ poolCapacity)
    (h : m.Shows chunk pool frame) (hm : m.offset = offset + 1)
    (hnext : ∀ value c m', m'.offset = offset + 2 → m'.store.heap.view? value = some c →
      m'.Shows chunk pool frame →
      Follows chunk pool (offset + 2) (onward c) (next value m')) :
    Follows chunk pool (offset + 2) (instruction.withContent pool onward)
      ((fetchConstant chunk >>= next) m) := by
  rcases instruction.withContent_cases pool onward with hstuck | ⟨entry, c, hoperands, hc, honward⟩
  · rw [hstuck]
    trivial
  · obtain ⟨value, hfetch, hview⟩ := exists_fetchConstant hcode hwidths hpool hoperands hc h hm
    rw [honward, bind_ok hfetch]
    exact hnext value c _ rfl hview (h.setOffset _)

/-- The name that an instruction leads to is fetched. -/
theorem fetchName_of_name? (hcode : chunk.GoesOn offset (instruction :: code)) {name : Text}
    (hwidths : instruction.opcode.operandWidths = [1]) (hpool : pool.length ≤ poolCapacity)
    (hname : instruction.name? pool = some name) (h : m.Shows chunk pool frame)
    (hm : m.offset = offset + 1) :
    fetchName chunk m = .ok name { m with offset := offset + 2 } ∧
      chunk.line? ↑(offset + 1) = some (instruction.line : Int) := by
  obtain ⟨entry, hoperands, hc⟩ := Instruction.exists_of_name? hname
  obtain ⟨value, hfetch, hview⟩ := exists_fetchConstant hcode hwidths hpool hoperands hc h hm
  have hcontent := (Heap.shows_iff.2 hview).content?
  refine ⟨(bind_ok hfetch).trans ((bind_heap _ _).trans ?_),
    hcode.line?_operand hwidths⟩
  rw [hcontent]
  rfl

/-- A move that fetches a name first. -/
theorem withName_follows {next : Text → Move Unit} {onward : Text → Progress}
    (hcode : chunk.GoesOn offset (instruction :: code))
    (hwidths : instruction.opcode.operandWidths = [1]) (hpool : pool.length ≤ poolCapacity)
    (h : m.Shows chunk pool frame) (hm : m.offset = offset + 1)
    (hnext : ∀ name (m' : Machine), m'.offset = offset + 2 →
      chunk.line? ↑(m'.offset - 1) = some (instruction.line : Int) → m'.Shows chunk pool frame →
      Follows chunk pool (offset + 2) (onward name) (next name m')) :
    Follows chunk pool (offset + 2) (instruction.withName pool onward)
      ((fetchName chunk >>= next) m) := by
  rw [instruction.withName_eq]
  cases hname : instruction.name? pool with
  | none => trivial
  | some name =>
    obtain ⟨hfetch, hline⟩ := fetchName_of_name? hcode hwidths hpool hname h hm
    rw [bind_ok hfetch]
    exact hnext name _ rfl hline (h.setOffset _)

/-- A move that looks up a variable first. -/
theorem withVariable_follows {next : Globals → Move Unit} {onward : Content → Progress}
    {name : Text} (h : m.Shows chunk pool frame)
    (hline : chunk.line? ↑(m.offset - 1) = some (line : Int))
    (hnone : m.store.globals.get? name = none →
      next m.store.globals m = fail chunk (.undefinedVariable name) m)
    (hnext : ∀ value c, m.store.globals.get? name = some value →
      m.store.heap.view? value = some c →
      Follows chunk pool offset (onward c) (next m.store.globals m)) :
    Follows chunk pool offset (frame.withVariable name line onward) ((globals >>= next) m) := by
  have hglobals : globals m = .ok m.store.globals m := rfl
  rw [bind_ok hglobals]
  unfold Frame.withVariable
  split
  · next c hc =>
    obtain ⟨value, hvalue, hview⟩ := h.recalls.view_global hc
    exact hnext value c hvalue hview
  · next hc =>
    rw [hnone (h.recalls.global_none hc)]
    exact fail_follows h.recalls hline _

/-! ## instructions -/

/-- The line of the instruction is known where it is carried out. -/
theorem line?_of_goesOn (hcode : chunk.GoesOn offset (instruction :: code))
    (hm : m.offset = offset + 1) :
    chunk.line? ↑(m.offset - 1) = some (instruction.line : Int) := by
  rw [hm, Nat.add_sub_cancel]
  exact hcode.line?

theorem unary_follows {op : UnaryOp} (operator : Value → Except OperatorError Value)
    (hcode : chunk.GoesOn offset (instruction :: code)) (h : m.Shows chunk pool frame)
    (hm : m.offset = offset + 1)
    (hop : ∀ {heap : Heap} {value c}, heap.Shows value c →
      (operator value).map heap.view? = (op.apply c).map some) :
    Follows chunk pool (offset + 1) (frame.unary op instruction.line)
      ((pop >>= fun value => ofOperator chunk (operator value) >>= push chunk) m) := by
  refine withTop_follows h fun value c rest m' hm' hview hshows hroom => ?_
  rw [hm] at hm'
  exact operate_follows hshows hm' hroom (line?_of_goesOn hcode hm')
    (hop (Heap.shows_iff.2 hview))

theorem operator_follows {op : BinaryOp} {operator : Value → Value → Except OperatorError Value}
    (hcode : chunk.GoesOn offset (instruction :: code)) (h : m.Shows chunk pool frame)
    (hm : m.offset = offset + 1)
    (hop : ∀ {heap : Heap} {left right a b}, heap.Shows left a → heap.Shows right b →
      (operator left right).map heap.view? = (op.apply a b).map some) :
    Follows chunk pool (offset + 1) (frame.binary op instruction.line)
      (binary chunk operator m) := by
  refine binary_follows h fun left right a b rest m' hm' hleft hright hshows hroom => ?_
  rw [hm] at hm'
  exact operate_follows hshows hm' hroom (line?_of_goesOn hcode hm')
    (hop (Heap.shows_iff.2 hleft) (Heap.shows_iff.2 hright))

theorem equal_follows (h : m.Shows chunk pool frame) (hm : m.offset = offset + 1) :
    Follows chunk pool (offset + 1) (frame.binary .equal line) (equal chunk m) := by
  refine binary_follows h fun left right a b rest m' hm' hleft hright hshows hroom => ?_
  rw [hm] at hm'
  have hequal := (Heap.shows_iff.2 hleft).equal (Heap.shows_iff.2 hright)
  have hview : m'.store.heap.view? (.bool (a.equal b)) = some (.bool (a.equal b)) := rfl
  have hpush := push_follows hshows hm' hview
  rw [Frame.push_of_lt hroom] at hpush
  refine Follows.of_eq (bind_heap _ _) ?_
  rw [hequal]
  exact hpush

theorem add_follows (hcode : chunk.GoesOn offset (instruction :: code))
    (h : m.Shows chunk pool frame) (hm : m.offset = offset + 1) :
    Follows chunk pool (offset + 1) (frame.binary .add instruction.line) (add chunk m) := by
  refine binary_follows h fun left right a b rest m' hm' hleft hright hshows hroom => ?_
  rw [hm] at hm'
  refine Follows.of_eq (bind_heap _ _) ?_
  rw [BinaryOp.apply]
  cases hsum : a.add b with
  | error error =>
    rw [(Heap.shows_iff.2 hleft).add_error (Heap.shows_iff.2 hright) hsum]
    exact ⟨m', bind_error (fail_of_line (line?_of_goesOn hcode hm') _), hshows.recalls⟩
  | ok c =>
    obtain ⟨sum, heap', hadd, hshown, hextends, hbuilt⟩ :=
      (Heap.shows_iff.2 hleft).add_ok hshows.recalls.built (Heap.shows_iff.2 hright) hsum
    have hpush := push_follows (hshows.setHeap hextends hbuilt) hm' (Heap.shows_iff.1 hshown)
    rw [Frame.push_of_lt hroom] at hpush
    rw [hadd]
    exact hpush

theorem print_follows (h : m.Shows chunk pool frame) (hm : m.offset = offset) :
    Follows chunk pool offset
      (frame.withTop fun content rest => .next ⟨rest, frame.memory.print content⟩) (print m) := by
  refine withTop_follows h fun value c rest m' hm' hview hshows _ => ?_
  refine Follows.of_eq (bind_heap _ _) ?_
  rw [(Heap.shows_iff.2 hview).display]
  exact ⟨_, rfl, hm'.trans hm, hshows.recalls.write_printed c, hshows.stack, hshows.room⟩

theorem defineGlobal_follows (hcode : chunk.GoesOn offset (instruction :: code))
    (hwidths : instruction.opcode.operandWidths = [1]) (hpool : pool.length ≤ poolCapacity)
    (h : m.Shows chunk pool frame) (hm : m.offset = offset + 1) :
    Follows chunk pool (offset + 2)
      (instruction.withName pool fun name =>
        frame.withTop fun content rest => .next ⟨rest, frame.memory.define name content⟩)
      (defineGlobal chunk m) := by
  refine withName_follows hcode hwidths hpool h hm fun name m' hm' _ hshows => ?_
  refine peek_follows hshows fun value c rest hstack hview => ?_
  obtain ⟨top, values, hvalues, -, hrest, -⟩ := hshows.exists_pop hstack
  let defined : Machine :=
    { m' with store := { m'.store with globals := m'.store.globals.set name value } }
  have hset : setGlobal name value m' = .ok () defined := rfl
  have hpop : pop defined = .ok top { defined with stack := values } := by
    rw [pop, show defined.stack = top :: values from hvalues]
  exact ⟨{ defined with stack := values }, (bind_ok hset).trans (bind_ok hpop), hm',
    hrest.recalls.setGlobal hview name, hrest.stack, hrest.room⟩

theorem getGlobal_follows (hcode : chunk.GoesOn offset (instruction :: code))
    (hwidths : instruction.opcode.operandWidths = [1]) (hpool : pool.length ≤ poolCapacity)
    (h : m.Shows chunk pool frame) (hm : m.offset = offset + 1) :
    Follows chunk pool (offset + 2)
      (instruction.withName pool fun name =>
        frame.withVariable name instruction.line frame.push)
      (getGlobal chunk m) := by
  refine withName_follows hcode hwidths hpool h hm fun name m' hm' hline hshows => ?_
  refine withVariable_follows hshows hline (fun hnone => ?_) fun value c hvalue hview => ?_
  · simp only [hnone]
  · simp only [hvalue]
    exact push_follows hshows hm' hview

theorem assignGlobal_follows (hcode : chunk.GoesOn offset (instruction :: code))
    (hwidths : instruction.opcode.operandWidths = [1]) (hpool : pool.length ≤ poolCapacity)
    (h : m.Shows chunk pool frame) (hm : m.offset = offset + 1) :
    Follows chunk pool (offset + 2)
      (instruction.withName pool fun name =>
        frame.withVariable name instruction.line fun _ =>
          frame.withTop fun content rest =>
            .next ⟨content :: rest, frame.memory.define name content⟩)
      (assignGlobal chunk m) := by
  refine withName_follows hcode hwidths hpool h hm fun name m' hm' hline hshows => ?_
  refine withVariable_follows hshows hline (fun hnone => ?_) fun old _ hold _ => ?_
  · simp only [hnone]
  simp only [hold]
  refine peek_follows hshows fun value c rest hstack hview => ?_
  refine ⟨{ m' with store := { m'.store with globals := m'.store.globals.set name value } }, rfl,
    hm', hshows.recalls.setGlobal hview name, ?_, ?_⟩
  · rw [← hstack]
    exact hshows.stack
  · rw [← hstack]
    exact hshows.room

/-- Carrying out an operation follows its instruction. -/
theorem execute_follows (hcode : chunk.GoesOn offset (instruction :: code))
    (hpool : pool.length ≤ poolCapacity) (h : m.Shows chunk pool frame)
    (hm : m.offset = offset + 1) :
    Follows chunk pool (offset + instruction.opcode.size) (instruction.perform pool frame)
      (execute chunk instruction.opcode m) := by
  unfold Instruction.perform
  cases hop : instruction.opcode
  case ret => trivial
  case constant =>
    have hwidths : instruction.opcode.operandWidths = [1] := by rw [hop]; rfl
    exact withContent_follows hcode hwidths hpool h hm fun value c m' hm' hview hshows =>
      push_follows hshows hm' hview
  case pushNil => exact push_follows h hm rfl
  case pushTrue => exact push_follows h hm rfl
  case pushFalse => exact push_follows h hm rfl
  case negate => exact unary_follows Value.negate hcode h hm fun hc => hc.negate
  case not =>
    refine unary_follows (fun value => .ok (.bool !value.isTruthy)) hcode h hm fun hc => ?_
    rw [hc.isTruthy]
    rfl
  case add => exact add_follows hcode h hm
  case subtract => exact operator_follows hcode h hm fun ha hb => ha.onNumbers hb _ _
  case multiply => exact operator_follows hcode h hm fun ha hb => ha.onNumbers hb _ _
  case divide => exact operator_follows hcode h hm fun ha hb => ha.onNumbers hb _ _
  case equal => exact equal_follows h hm
  case greater => exact operator_follows hcode h hm fun ha hb => ha.compare hb _
  case less => exact operator_follows hcode h hm fun ha hb => ha.compare hb _
  case print => exact print_follows h hm
  case pop =>
    refine withTop_follows h fun value c rest m' hm' _ hshows _ => ?_
    exact ⟨m', rfl, hm'.trans hm, hshows⟩
  case defineGlobal => exact defineGlobal_follows hcode (by rw [hop]; rfl) hpool h hm
  case getGlobal => exact getGlobal_follows hcode (by rw [hop]; rfl) hpool h hm
  case setGlobal => exact assignGlobal_follows hcode (by rw [hop]; rfl) hpool h hm

/-- Where the code goes on with an instruction, a step carries it out. -/
theorem step_of_goesOn (hcode : chunk.GoesOn m.offset (instruction :: code)) :
    step chunk m = execute chunk instruction.opcode { m with offset := m.offset + 1 } := by
  have hfetch : fetch chunk m =
      .ok (some (instruction.opcode.code : Int)) { m with offset := m.offset + 1 } := by
    rw [fetch, hcode.byte?]
  refine (bind_ok hfetch).trans ?_
  rw [Option.getD_some, Opcode.decode, Opcode.ofCode?_code]
  rfl

theorem step_follows (hcode : chunk.GoesOn m.offset (instruction :: code))
    (hpool : pool.length ≤ poolCapacity) (h : m.Shows chunk pool frame) :
    Follows chunk pool (m.offset + instruction.opcode.size) (instruction.perform pool frame)
      (step chunk m) := by
  rw [step_of_goesOn hcode]
  exact execute_follows hcode hpool (h.setOffset _) rfl

/-- A traced step follows its instruction as well. -/
theorem tracedStep_follows (hcode : chunk.GoesOn m.offset (instruction :: code))
    (hpool : pool.length ≤ poolCapacity) (h : m.Shows chunk pool frame) (tracing : Bool) :
    Follows chunk pool (m.offset + instruction.opcode.size) (instruction.perform pool frame)
      (tracedStep chunk tracing m) := by
  cases tracing with
  | false => exact step_follows hcode hpool h
  | true =>
    obtain ⟨events, hevents, htrace⟩ := trace_of_live h.live_stack h.live_constants
    refine Follows.of_eq (bind_ok htrace) ?_
    exact step_follows (m := { m with written := m.written ++ events }) hcode hpool
      ⟨h.recalls.write_traced hevents, h.stack, h.room⟩

end Move

end Lox
