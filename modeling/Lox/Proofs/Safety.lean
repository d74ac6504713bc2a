import Lox.Proofs.Execution
import Lox.Proofs.Height
import Lox.Proofs.Rendering

/-!
# Lox.Proofs.Safety

Compiled code is well-formed for the machine.

A unit that the compiler made runs to its return, or fails for a reason that
lies in the program: no promise between compiler and machine is broken, and
the stack never runs full.  On the way the stack is empty between statements,
and within an expression it is no higher than the expression is nested.
-/

namespace Lox

/-- The errors that a program may fail with. -/
def CauseKind.ofProgram : List CauseKind :=
  [.arithmetic, .negation, .comparison, .undefinedVariable]

theorem CauseKind.mem_ofProgram {kind : CauseKind} (h : kind ≠ .stackOverflow) :
    kind ∈ ofProgram := by
  cases kind <;> first | exact absurd rfl h | decide

/-- The unit of a program runs safely: the run ends with an empty stack and
without a value, or with an error of the program; the stack is empty wherever
one statement has ended and the next one, or the return, has not begun; and
within the code of an expression it is no higher than the expression is
nested. -/
structure Program.RunsSafely (program : Program) (chunk : Chunk) (tracing : Bool) (m : Machine) :
    Prop where
  ends : (∃ m', m.run chunk tracing = (.returned none, m') ∧ m'.stack = []) ∨
    ∃ error m', m.run chunk tracing = (.failed error, m') ∧
      error.cause.kind ∈ CauseKind.ofProgram
  boundary : ∀ m', Machine.Reaches chunk tracing m m' → ∀ before after,
    program.statements = before ++ after →
    m'.offset = byteCount (Stmt.codeAll 0 before) → m'.stack = []
  expression : ∀ m', Machine.Reaches chunk tracing m m' → ∀ before statement after e,
    program.statements = before ++ statement :: after → statement.expression? = some e →
    byteCount (Stmt.codeAll 0 before) ≤ m'.offset →
    m'.offset ≤ byteCount (Stmt.codeAll 0 before) + byteCount (e.code 0) →
    m'.stack.length ≤ e.nesting

/-- The unit of a lone expression runs safely: the run ends with the value as
all that is on the stack, or with an error of the program; where the return
begins there is exactly one value; and the stack is never higher than the
expression is nested. -/
structure Query.RunsSafely (query : Query) (chunk : Chunk) (tracing : Bool) (m : Machine) :
    Prop where
  ends : (∃ value m', m.run chunk tracing = (.returned (some value), m') ∧ m'.stack = [value]) ∨
    ∃ error m', m.run chunk tracing = (.failed error, m') ∧
      error.cause.kind ∈ CauseKind.ofProgram
  boundary : ∀ m', Machine.Reaches chunk tracing m m' →
    m'.offset = byteCount (query.expression.code 0) → m'.stack.length = 1
  expression : ∀ m', Machine.Reaches chunk tracing m m' →
    m'.stack.length ≤ query.expression.nesting

namespace Machine

variable {chunk : Chunk} {pool : List Content} {m m' : Machine} {code : List Instruction}
  {line : Nat} {memory : Memory} {tracing : Bool}

/-- On the way through code from an empty stack, the height of the stack is that
of the front that was passed. -/
theorem Ready.exists_height (h : m.Ready chunk pool code line ⟨[], memory⟩) (hstart : m.offset = 0)
    (hstuck : Frame.run pool code ⟨[], memory⟩ ≠ .stuck) (hreach : Reaches chunk tracing m m') :
    ∃ front, front <+: code ∧ m'.offset = byteCount front ∧
      m'.stack.length = heightAfter front 0 := by
  obtain ⟨front, after, frame, rfl, hoffset, hrun, hready⟩ := h.exists_front hstuck hreach
  have hcount : m'.offset = byteCount front := by rw [hoffset, hstart, Nat.zero_add]
  have hheight : m'.stack.length = heightAfter front 0 := by
    rw [hready.shows.length_stack, Frame.length_stack_run hrun, List.length_nil]
  exact ⟨front, List.prefix_append _ _, hcount, hheight⟩

theorem Shows.stack_eq_nil (h : m.Shows chunk pool ⟨[], memory⟩) : m.stack = [] :=
  List.eq_nil_of_length_eq_zero h.length_stack

theorem Shows.stack_eq_singleton {c : Content} (h : m.Shows chunk pool ⟨[c], memory⟩) :
    ∃ value, m.stack = [value] := List.length_eq_one_iff.1 h.length_stack

end Machine

section

variable {source : Text} {heap heap' : Heap} {globals : Globals} {chunk : Chunk}

theorem Program.runsSafely_of_compile (hbuilt : heap.Built)
    (hcompile : Program.compile source heap = (.ok chunk, heap'))
    (hlive : ∀ name value, globals.get? name = some value → heap'.Live value) (tracing : Bool) :
    ∃ program, (Program.parse source).result = .ok program ∧
      program.RunsSafely chunk tracing (.start ⟨heap', globals⟩) := by
  obtain ⟨_, program, -, hparse, -, hready, hrun⟩ :=
    Program.ready_of_compile hbuilt hcompile hlive
  have hstuck (memory : Memory) : Frame.run (program.constants.map Constant.content)
      (Stmt.codeAll 0 program.statements) ⟨[], memory⟩ ≠ .stuck := by
    rw [hrun]
    exact Progress.ofUnit_ne_stuck _
  refine ⟨program, hparse, ?ends, ?boundary, ?expression⟩
  case ends =>
    have hcompletes := hready.completes tracing
    rw [hrun] at hcompletes
    cases hexec : program.exec ⟨Store.environment ⟨heap', globals⟩, []⟩ with
    | ok result memory =>
      rw [hexec] at hcompletes
      obtain ⟨m, heq, hshows⟩ := hcompletes
      rw [hshows.stack_eq_nil] at heq
      exact .inl ⟨m, heq, hshows.stack_eq_nil⟩
    | error error memory =>
      rw [hexec] at hcompletes
      obtain ⟨m, heq, -⟩ := hcompletes
      exact .inr ⟨error, m, heq, CauseKind.mem_ofProgram (program.sensible_exec _ _ _ hexec)⟩
  case boundary =>
    intro m hreach before after hstatements hoffset
    obtain ⟨front, hfront, hcount, hheight⟩ := hready.exists_height rfl (hstuck _) hreach
    rw [Stmt.heightAfter_boundary hstatements hfront (hcount ▸ hoffset)] at hheight
    exact List.eq_nil_of_length_eq_zero hheight
  case expression =>
    intro m hreach before statement after e hstatements he hfrom hto
    obtain ⟨front, hfront, hcount, hheight⟩ := hready.exists_height rfl (hstuck _) hreach
    rw [hcount] at hfrom hto
    have hle := Stmt.heightAfter_expression hstatements he hfront hfrom hto 0
    rwa [Nat.zero_add, ← hheight] at hle

theorem Query.runsSafely_of_compile (hbuilt : heap.Built)
    (hcompile : Query.compile source heap = (.ok chunk, heap'))
    (hlive : ∀ name value, globals.get? name = some value → heap'.Live value) (tracing : Bool) :
    ∃ query, (Query.parse source).result = .ok query ∧
      query.RunsSafely chunk tracing (.start ⟨heap', globals⟩) := by
  obtain ⟨_, query, -, hparse, -, hready, hrun⟩ := Query.ready_of_compile hbuilt hcompile hlive
  have hraises := query.expression.raises_code 0
  have hstuck (memory : Memory) : Frame.run (query.expression.constants.map Constant.content)
      (query.expression.code 0) ⟨[], memory⟩ ≠ .stuck := by
    rw [hrun]
    exact Progress.ofContent_ne_stuck _
  refine ⟨query, hparse, ?ends, ?boundary, ?expression⟩
  case ends =>
    have hcompletes := hready.completes tracing
    rw [hrun] at hcompletes
    cases heval : query.expression.eval ⟨Store.environment ⟨heap', globals⟩, []⟩ with
    | ok c memory =>
      rw [heval] at hcompletes
      obtain ⟨m, heq, hshows⟩ := hcompletes
      obtain ⟨value, hstack⟩ := hshows.stack_eq_singleton
      rw [hstack] at heq
      exact .inl ⟨value, m, heq, hstack⟩
    | error error memory =>
      rw [heval] at hcompletes
      obtain ⟨m, heq, -⟩ := hcompletes
      exact .inr ⟨error, m, heq,
        CauseKind.mem_ofProgram (query.expression.sensible_eval _ _ _ heval)⟩
  case boundary =>
    intro m hreach hoffset
    obtain ⟨front, hfront, hcount, hheight⟩ := hready.exists_height rfl (hstuck _) hreach
    have hwhole := eq_of_byteCount_eq hfront (List.prefix_refl _) (hcount ▸ hoffset)
    rw [hheight, hwhole, hraises.after]
  case expression =>
    intro m hreach
    obtain ⟨front, hfront, hcount, hheight⟩ := hready.exists_height rfl (hstuck _) hreach
    have hle := hraises.within 0 front hfront
    rwa [Nat.zero_add, ← hheight] at hle

/-- Whatever the compiler makes of a source runs safely, on every heap that
stores and releases built and with any variables that live in it. -/
theorem compiled_units_run_safely (hbuilt : heap.Built) (source : Text) (globals : Globals)
    (tracing : Bool) :
    (∀ chunk heap', Program.compile source heap = (.ok chunk, heap') →
      (∀ name value, globals.get? name = some value → heap'.Live value) →
      ∃ program, (Program.parse source).result = .ok program ∧
        program.RunsSafely chunk tracing (.start ⟨heap', globals⟩)) ∧
    (∀ chunk heap', Query.compile source heap = (.ok chunk, heap') →
      (∀ name value, globals.get? name = some value → heap'.Live value) →
      ∃ query, (Query.parse source).result = .ok query ∧
        query.RunsSafely chunk tracing (.start ⟨heap', globals⟩)) :=
  ⟨fun _ _ hcompile hlive => Program.runsSafely_of_compile hbuilt hcompile hlive tracing,
    fun _ _ hcompile hlive => Query.runsSafely_of_compile hbuilt hcompile hlive tracing⟩

end

/-- The unit of a program that prints two strings put together runs safely. -/
theorem concatenation_runs_safely :
    ∃ (program : Program) (chunk : Chunk) (heap' : Heap),
      Program.compile (text "print\"a\"+\"b\";") .empty = (.ok chunk, heap') ∧
      program.RunsSafely chunk true (.start ⟨heap', .empty⟩) := by
  obtain ⟨program, hparse, -⟩ := Program.parse_concatenation
  have hcompile : ∃ chunk heap',
      Program.compile (text "print\"a\"+\"b\";") .empty = (.ok chunk, heap') := by
    rw [Program.compile, hparse]
    exact ⟨_, _, rfl⟩
  obtain ⟨chunk, heap', hcompile⟩ := hcompile
  have hsafe := (compiled_units_run_safely .empty (text "print\"a\"+\"b\";") .empty true).1
  obtain ⟨found, -, hruns⟩ := hsafe chunk heap' hcompile (fun _ _ hvalue => by cases hvalue)
  exact ⟨found, chunk, heap', hcompile, hruns⟩

end Lox
