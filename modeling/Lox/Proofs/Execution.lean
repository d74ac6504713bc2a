import Lox.Proofs.Acceptance
import Lox.Proofs.Simulation
import Lox.Run

/-!
# Lox.Proofs.Execution

Whole runs of the machine.

A run over the code of a unit does what the instructions do with the frame that
the machine shows (`Machine.runsTo_of_code`).  Every machine on the way has come
to the end of some front of the code, and shows the frame that this front leads
to (`Machine.Ready.exists_front`).
-/

namespace Lox

namespace Machine

open Move

variable {chunk : Chunk} {pool : List Content} {tracing : Bool} {m m' m'' : Machine} {frame : Frame}
  {code rest : List Instruction} {instruction : Instruction} {stop : Stop}

/-- One machine comes after another in a run. -/
inductive Reaches (chunk : Chunk) (tracing : Bool) (m : Machine) : Machine → Prop where
  | refl : Reaches chunk tracing m m
  | step {m' m'' : Machine} (h : Reaches chunk tracing m m') (hlt : m'.offset < chunk.length)
      (hstep : tracedStep chunk tracing m' = .ok () m'') : Reaches chunk tracing m m''

theorem run_ok (hlt : m.offset < chunk.length) (hstep : tracedStep chunk tracing m = .ok () m') :
    m.run chunk tracing = m'.run chunk tracing := by
  rw [run, if_pos hlt]
  split
  · next next hnext =>
    rw [hstep] at hnext
    cases hnext
    rfl
  · next hnext =>
    rw [hstep] at hnext
    cases hnext

theorem run_error (hlt : m.offset < chunk.length)
    (hstep : tracedStep chunk tracing m = .error stop m') : m.run chunk tracing = (stop, m') := by
  rw [run, if_pos hlt]
  split
  · next hnext =>
    rw [hstep] at hnext
    cases hnext
  · next hnext =>
    rw [hstep] at hnext
    cases hnext
    rfl

theorem run_of_le (h : ¬ m.offset < chunk.length) :
    m.run chunk tracing = (.broken .missingReturn, m) := by rw [run, if_neg h]

/-! ## what runs keep -/

/-- Every step inside the code keeps a property of machines, whether it goes on
or stops. -/
def Kept (chunk : Chunk) (tracing : Bool) (property : Machine → Prop) : Prop :=
  ∀ m : Machine, m.offset < chunk.length → property m →
    property (left (tracedStep chunk tracing m))

namespace Kept

variable {property : Machine → Prop}

theorem run (h : Kept chunk tracing property) (hm : property m) :
    property (m.run chunk tracing).2 := by
  induction m using run.induct chunk tracing with
  | case1 m hlt next hstep ih =>
    have hnext := h m hlt hm
    rw [hstep] at hnext
    rw [run_ok hlt hstep]
    exact ih hnext
  | case2 m hlt stop last hstep =>
    have hlast := h m hlt hm
    rw [hstep] at hlast
    rw [run_error hlt hstep]
    exact hlast
  | case3 m hle =>
    rw [run_of_le hle]
    exact hm

theorem reaches (h : Kept chunk tracing property) (hreach : Reaches chunk tracing m m')
    (hm : property m) : property m' := by
  induction hreach with
  | refl => exact hm
  | step _ hlt hstep ih =>
    have hnext := h _ hlt ih
    rw [hstep] at hnext
    exact hnext

end Kept

/-! ## the return -/

/-- The instruction that ends a unit. -/
theorem tracedStep_ret {line : Nat} (hcode : chunk.GoesOn m.offset (⟨.ret, [], line⟩ :: rest))
    (h : m.Shows chunk pool frame) (tracing : Bool) :
    ∃ m', tracedStep chunk tracing m = .error (.returned m.stack.head?) m' ∧
      m'.stack = m.stack ∧ m'.Shows chunk pool frame := by
  cases tracing with
  | false =>
    exact ⟨{ m with offset := m.offset + 1 }, step_of_goesOn hcode, rfl, h.setOffset _⟩
  | true =>
    obtain ⟨events, hevents, htrace⟩ := trace_of_live h.live_stack h.live_constants
    have hstep := step_of_goesOn (m := { m with written := m.written ++ events }) hcode
    have hrecalls := (h.recalls.write_traced hevents).move (m.offset + 1) m.stack
    exact ⟨{ m with offset := m.offset + 1, written := m.written ++ events },
      (bind_ok htrace).trans hstep, rfl, hrecalls, h.stack, h.room⟩

/-! ## code -/

/-- What the run of a machine comes to that goes over some code, if the code
leads to this progress. -/
def RunsTo (chunk : Chunk) (pool : List Content) (tracing : Bool) (m : Machine)
    (rest : List Instruction) : Progress → Prop
  | .next frame => ∃ m' : Machine, m.run chunk tracing = m'.run chunk tracing ∧
      chunk.GoesOn m'.offset rest ∧ m'.Shows chunk pool frame
  | .failed error memory => ∃ m' : Machine, m.run chunk tracing = (.failed error, m') ∧
      m'.Recalls chunk pool memory
  | .stuck => True

theorem runsTo_of_code (hcode : chunk.GoesOn m.offset (code ++ rest))
    (hpool : pool.length ≤ poolCapacity) (h : m.Shows chunk pool frame) (tracing : Bool) :
    m.RunsTo chunk pool tracing rest (frame.run pool code) := by
  induction code generalizing m frame with
  | nil => exact ⟨m, rfl, hcode, h⟩
  | cons instruction code ih =>
    have hstep := tracedStep_follows hcode hpool h tracing
    rw [Frame.run]
    cases hperform : instruction.perform pool frame with
    | next frame' =>
      rw [hperform] at hstep
      obtain ⟨m', hok, hoffset, hshows⟩ := hstep
      have hrest := ih (m := m') (by rw [hoffset]; exact hcode.tail) hshows
      show m.RunsTo chunk pool tracing rest (frame'.run pool code)
      cases hrun : frame'.run pool code with
      | next frame'' =>
        rw [hrun] at hrest
        obtain ⟨m'', heq, hgoes, hshows'⟩ := hrest
        exact ⟨m'', (run_ok hcode.lt_length hok).trans heq, hgoes, hshows'⟩
      | failed error memory =>
        rw [hrun] at hrest
        obtain ⟨m'', heq, hrecalls⟩ := hrest
        exact ⟨m'', (run_ok hcode.lt_length hok).trans heq, hrecalls⟩
      | stuck => trivial
    | failed error memory =>
      rw [hperform] at hstep
      obtain ⟨m', herror, hrecalls⟩ := hstep
      exact ⟨m', run_error hcode.lt_length herror, hrecalls⟩
    | stuck => trivial

/-- A machine is about to go through some code and return, with a pool of no
more entries than operands can name. -/
structure Ready (chunk : Chunk) (pool : List Content) (m : Machine) (code : List Instruction)
    (line : Nat) (frame : Frame) : Prop where
  code : chunk.GoesOn m.offset (code ++ [⟨.ret, [], line⟩])
  room : pool.length ≤ poolCapacity
  shows : m.Shows chunk pool frame

/-- How the run of a unit ends whose code, up to the return, leads to this
progress. -/
def Completes (chunk : Chunk) (pool : List Content) (tracing : Bool) (m : Machine) :
    Progress → Prop
  | .next frame => ∃ m' : Machine, m.run chunk tracing = (.returned m'.stack.head?, m') ∧
      m'.Shows chunk pool frame
  | .failed error memory => ∃ m' : Machine, m.run chunk tracing = (.failed error, m') ∧
      m'.Recalls chunk pool memory
  | .stuck => True

namespace Ready

variable {line : Nat}

theorem completes (h : m.Ready chunk pool code line frame) (tracing : Bool) :
    m.Completes chunk pool tracing (frame.run pool code) := by
  have hruns := runsTo_of_code h.code h.room h.shows tracing
  cases hrun : frame.run pool code with
  | next frame' =>
    rw [hrun] at hruns
    obtain ⟨m', heq, hgoes, hshows⟩ := hruns
    obtain ⟨m'', hret, hstack, hshows'⟩ := tracedStep_ret hgoes hshows tracing
    have hend : m.run chunk tracing = (.returned m''.stack.head?, m'') := by
      rw [heq, run_error hgoes.lt_length hret, hstack]
    exact ⟨m'', hend, hshows'⟩
  | failed error memory =>
    rw [hrun] at hruns
    exact hruns
  | stuck => trivial

/-- Where a run fails, the code leads to the same error. -/
theorem exists_failed (h : m.Ready chunk pool code line frame)
    (hstuck : frame.run pool code ≠ .stuck) {error : RuntimeError}
    (hrun : m.run chunk tracing = (.failed error, m')) :
    ∃ memory, frame.run pool code = .failed error memory := by
  have hcompletes := h.completes tracing
  cases hcode : frame.run pool code with
  | next frame' =>
    rw [hcode] at hcompletes
    obtain ⟨_, heq, -⟩ := hcompletes
    rw [hrun] at heq
    cases heq
  | failed first memory =>
    rw [hcode] at hcompletes
    obtain ⟨_, heq, -⟩ := hcompletes
    rw [hrun] at heq
    cases heq
    exact ⟨memory, rfl⟩
  | stuck => exact absurd hcode hstuck

/-- A machine on the way through code that gets nowhere stuck has passed a
front of the code, and shows the frame that this front leads to. -/
theorem exists_front (h : m.Ready chunk pool code line frame)
    (hstuck : frame.run pool code ≠ .stuck) (hreach : Reaches chunk tracing m m') :
    ∃ before after frame', code = before ++ after ∧ m'.offset = m.offset + byteCount before ∧
      frame.run pool before = .next frame' ∧
      m'.Ready chunk pool after line frame' := by
  induction hreach with
  | refl => exact ⟨[], code, frame, rfl, rfl, rfl, h⟩
  | @step m' m'' _ hlt hstep ih =>
    obtain ⟨before, after, frame', rfl, hoffset, hrun, hready⟩ := ih
    cases after with
    | nil =>
      -- all code is passed, and the return goes on to no machine
      obtain ⟨last, hret, -⟩ := tracedStep_ret hready.code hready.shows tracing
      rw [hret] at hstep
      cases hstep
    | cons instruction after =>
      have hfollows := tracedStep_follows hready.code h.room hready.shows tracing
      rw [hstep] at hfollows
      cases hperform : instruction.perform pool frame' with
      | next frame'' =>
        rw [hperform] at hfollows
        obtain ⟨last, hok, hlast, hshows⟩ := hfollows
        cases hok
        have hcount : m''.offset = m.offset + byteCount (before ++ [instruction]) := by
          rw [hlast, hoffset, byteCount_append, byteCount_cons, byteCount_nil]
          omega
        have hfront : frame.run pool (before ++ [instruction]) = .next frame'' := by
          rw [Frame.run_append, hrun]
          exact (Frame.run_singleton _ _ _).trans hperform
        have hgoes : chunk.GoesOn m''.offset (after ++ [⟨.ret, [], line⟩]) := by
          rw [hlast]
          exact hready.code.tail
        exact ⟨before ++ [instruction], after, frame'', by simp, hcount, hfront, hgoes, h.room,
          hshows⟩
      | failed error memory =>
        rw [hperform] at hfollows
        obtain ⟨last, herror, -⟩ := hfollows
        cases herror
      | stuck =>
        have hstops : frame.run pool (before ++ instruction :: after) = .stuck := by
          rw [Frame.run_append, hrun]
          show Frame.run pool (instruction :: after) frame' = _
          rw [Frame.run, hperform]
          rfl
        contradiction

end Ready

end Machine

/-! ## stores -/

namespace Store

/-- The variables of a store by content. -/
def environment (store : Store) (name : Text) : Option Content :=
  (store.globals.get? name).bind store.heap.view?

/-- A store whose heap was built by storing and giving up strings, and all of
whose variables can be looked up. -/
structure Sound (store : Store) : Prop where
  built : store.heap.Built
  live : ∀ name value, store.globals.get? name = some value → store.heap.Live value

variable {store : Store} {heap : Heap}

theorem Sound.globals (h : store.Sound) (name : Text) :
    (store.globals.get? name).map store.heap.view? = (store.environment name).map some := by
  rw [environment]
  cases hvalue : store.globals.get? name with
  | none => rfl
  | some value =>
    obtain ⟨c, hview⟩ := h.live name value hvalue
    rw [Option.map_some, Option.bind_some, hview, Option.map_some]

theorem Sound.setHeap (h : store.Sound) (hextends : store.heap.Extends heap)
    (hbuilt : heap.Built) : Sound ⟨heap, store.globals⟩ := by
  refine ⟨hbuilt, fun name value hvalue => ?_⟩
  obtain ⟨c, hview⟩ := h.live name value hvalue
  exact ⟨c, hextends.view? hview⟩

theorem Sound.environment_setHeap (h : store.Sound) (hextends : store.heap.Extends heap) :
    environment ⟨heap, store.globals⟩ = store.environment := by
  funext name
  rw [environment, environment]
  cases hvalue : store.globals.get? name with
  | none => rfl
  | some value =>
    obtain ⟨c, hview⟩ := h.live name value hvalue
    rw [Option.bind_some, Option.bind_some, hview, hextends.view? hview]

/-- Stores that define the same of some variables, with the same contents. -/
def AgreeOn (names : Text → Prop) (a b : Store) : Prop :=
  ∀ name, names name →
    (a.globals.get? name).map a.heap.view? = (b.globals.get? name).map b.heap.view?

section

variable {names : Text → Prop} {a b : Store} {heap heap' : Heap}

theorem Sound.agreeOn_iff (ha : a.Sound) (hb : b.Sound) :
    a.AgreeOn names b ↔ ∀ name, names name → a.environment name = b.environment name := by
  refine forall_congr' fun name => imp_congr_right fun _ => ?_
  rw [ha.globals, hb.globals]
  exact ⟨fun h => Option.map_injective (fun _ _ => Option.some.inj) h, fun h => by rw [h]⟩

/-- Strings that are stored do not matter. -/
theorem AgreeOn.setHeap (h : a.AgreeOn names b) (ha : a.Sound) (hb : b.Sound)
    (hextends : a.heap.Extends heap) (hbuilt : heap.Built)
    (hextends' : b.heap.Extends heap') (hbuilt' : heap'.Built) :
    AgreeOn names ⟨heap, a.globals⟩ ⟨heap', b.globals⟩ := by
  rw [(ha.setHeap hextends hbuilt).agreeOn_iff (hb.setHeap hextends' hbuilt'),
    ha.environment_setHeap hextends, hb.environment_setHeap hextends']
  exact (ha.agreeOn_iff hb).1 h

end

end Store

namespace Machine

variable {chunk : Chunk} {pool : List Content} {m : Machine} {memory : Memory}

theorem Recalls.environment (h : m.Recalls chunk pool memory) :
    m.store.environment = memory.environment := by
  funext name
  have hname := h.globals name
  rw [Store.environment]
  cases hvalue : m.store.globals.get? name with
  | none =>
    rw [hvalue] at hname
    exact (Option.map_eq_none_iff.1 hname.symm).symm
  | some value =>
    rw [hvalue, Option.map_some] at hname
    obtain ⟨c, hc, hview⟩ := Option.map_eq_some_iff.1 hname.symm
    rw [Option.bind_some, hc, ← hview]

theorem Recalls.sound (h : m.Recalls chunk pool memory) : m.store.Sound := by
  refine ⟨h.built, fun name value hvalue => ?_⟩
  have hname := h.globals name
  rw [hvalue, Option.map_some] at hname
  obtain ⟨c, -, hview⟩ := Option.map_eq_some_iff.1 hname.symm
  exact ⟨c, hview.symm⟩

/-- A machine at the beginning of code whose constants were placed last. -/
theorem ready_start {heap : Heap} {globals : Globals} {constants : List Constant}
    {code : List Instruction} {line : Nat} (hbuilt : heap.Built)
    (hroom : constants.length ≤ poolCapacity)
    (hlive : ∀ name value, globals.get? name = some value →
      (Constant.placeAll heap constants).2.Live value) :
    let placed := Constant.placeAll heap constants
    (start ⟨placed.2, globals⟩).Ready (Chunk.ofCode (code ++ [⟨.ret, [], line⟩]) placed.1)
      (constants.map Constant.content) code line
      ⟨[], ⟨Store.environment ⟨placed.2, globals⟩, []⟩⟩ := by
  intro placed
  obtain ⟨-, -, hplaced⟩ := Constant.placeAll_spec hbuilt constants
  have hsound : Store.Sound ⟨placed.2, globals⟩ := ⟨hplaced, hlive⟩
  have hpool : (constants.map Constant.content).length ≤ poolCapacity := by rwa [List.length_map]
  have hconstants := Chunk.view?_ofCode hbuilt (code ++ [⟨.ret, [], line⟩]) constants
  exact ⟨Chunk.goesOn_ofCode _ _, hpool, ⟨hplaced, hconstants, hsound.globals, rfl⟩, rfl,
    Nat.zero_le _⟩

end Machine

/-! ## units of sources -/

theorem Parsed.compile_eq_ok {α : Type} {parsed : Parsed α} {code : α → List Instruction}
    {heap heap' : Heap} {chunk : Chunk} (h : parsed.compile code heap = (.ok chunk, heap')) :
    ∃ tree, parsed.result = .ok tree ∧
      chunk = Chunk.ofCode (code tree) (Constant.placeAll heap parsed.constants).1 ∧
      heap' = (Constant.placeAll heap parsed.constants).2 := by
  obtain ⟨result, constants⟩ := parsed
  simp only [compile] at h
  cases result with
  | error diagnostics => cases h
  | ok tree =>
    obtain ⟨hchunk, hheap⟩ := Prod.mk.inj h
    exact ⟨tree, rfl, (Except.ok.inj hchunk).symm, hheap.symm⟩

section

variable {source : Text} {heap heap' : Heap} {globals : Globals} {chunk : Chunk}

/-- The unit of a program is about to do what the program does. -/
theorem Program.ready_of_compile (hbuilt : heap.Built)
    (hcompile : Program.compile source heap = (.ok chunk, heap'))
    (hlive : ∀ name value, globals.get? name = some value → heap'.Live value) :
    ∃ tokens program, scan source = tokens.map .token ∧
      (Program.parse source).result = .ok program ∧ program.Derives tokens ∧
      (Machine.start ⟨heap', globals⟩).Ready chunk (program.constants.map Constant.content)
        (Stmt.codeAll 0 program.statements) program.endLine
        ⟨[], ⟨Store.environment ⟨heap', globals⟩, []⟩⟩ ∧
      ∀ memory, Frame.run (program.constants.map Constant.content)
        (Stmt.codeAll 0 program.statements) ⟨[], memory⟩ = .ofUnit [] (program.exec memory) := by
  obtain ⟨program, hparse, rfl, rfl⟩ := Parsed.compile_eq_ok hcompile
  obtain ⟨tokens, hscan, hderives, hdepth, hroom⟩ := Program.derives_of_parse hparse
  rw [Program.parse_of_derives hscan hderives hdepth hroom] at hlive ⊢
  exact ⟨tokens, program, hscan, rfl, hderives, Machine.ready_start hbuilt hroom hlive,
    fun memory => Stmt.run_codeAll program.statements (.self _) hdepth⟩

theorem Query.ready_of_compile (hbuilt : heap.Built)
    (hcompile : Query.compile source heap = (.ok chunk, heap'))
    (hlive : ∀ name value, globals.get? name = some value → heap'.Live value) :
    ∃ tokens query, scan source = tokens.map .token ∧
      (Query.parse source).result = .ok query ∧ query.Derives tokens ∧
      (Machine.start ⟨heap', globals⟩).Ready chunk
        (query.expression.constants.map Constant.content) (query.expression.code 0) query.endLine
        ⟨[], ⟨Store.environment ⟨heap', globals⟩, []⟩⟩ ∧
      ∀ memory, Frame.run (query.expression.constants.map Constant.content)
        (query.expression.code 0) ⟨[], memory⟩ = .ofContent [] (query.expression.eval memory) := by
  obtain ⟨query, hparse, rfl, rfl⟩ := Parsed.compile_eq_ok hcompile
  obtain ⟨tokens, hscan, hderives, hdepth, hroom⟩ := Query.derives_of_parse hparse
  rw [Query.parse_of_derives hscan hderives hdepth hroom] at hlive ⊢
  have hstack : ([] : List Content).length + query.expression.nesting ≤ stackCapacity := by
    rw [List.length_nil, Nat.zero_add]
    exact hdepth
  exact ⟨tokens, query, hscan, rfl, hderives, Machine.ready_start hbuilt hroom hlive,
    fun memory => query.expression.run_code (.self _) hstack⟩

end

end Lox
