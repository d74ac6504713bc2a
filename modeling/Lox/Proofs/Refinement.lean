import Lox.Proofs.Execution
import Lox.Proofs.Rendering

/-!
# Lox.Proofs.Refinement

Compiling and running a program is evaluating it.

On every store that earlier runs can leave, the run of an accepted program
prints what the evaluation of its tree prints, ends as it ends, and leaves the
variables as it leaves them.
-/

namespace Lox

/-! ## reachable stores -/

/-- Stores that runs of programs leave, one after the other. -/
inductive Store.Reachable : Store → Prop where
  | empty : Reachable .empty
  | run {store : Store} (h : Reachable store) (tracing : Bool) (source : Text) :
      Reachable (runProgram tracing source store).store

/-- What a run of a program ended with, compared with an evaluation: the
status, the printed texts and the variables. -/
def Run.Agrees (run : Run) : EStateM.Result RuntimeError Memory Unit → Prop
  | .ok _ memory => run.status = .finished ∧ printedTexts run.events = memory.printed ∧
      run.store.environment = memory.environment
  | .error error memory => run.status = .failed error ∧
      printedTexts run.events = memory.printed ∧ run.store.environment = memory.environment

variable {store : Store} {source : Text} {heap' : Heap} {chunk : Chunk}

theorem Constant.extends_of_compile (h : store.Sound) (source : Text) :
    store.heap.Extends (Program.compile source store.heap).2 ∧
      (Program.compile source store.heap).2.Built :=
  (Constant.placeAll_spec h.built (Program.parse source).constants).2

theorem runProgram_of_ok (hcompile : Program.compile source store.heap = (.ok chunk, heap'))
    (tracing : Bool) :
    let result := (Machine.start { store with heap := heap' }).run chunk tracing
    runProgram tracing source store =
      ⟨.ofStop result.1, result.2.written, result.2.store⟩ := by
  simp only [runProgram, hcompile]

theorem runProgram_of_error {diagnostics : List Diagnostic}
    (hcompile : Program.compile source store.heap = (.error diagnostics, heap'))
    (tracing : Bool) :
    runProgram tracing source store = ⟨.refused diagnostics,
      diagnostics.map Diagnostic.event, { store with heap := heap' }⟩ := by
  simp only [runProgram, hcompile]

/-- An accepted program does on a store what its evaluation does, and the
store stays sound. -/
theorem runProgram_agrees (hstore : store.Sound)
    (hcompile : Program.compile source store.heap = (.ok chunk, heap')) (tracing : Bool) :
    ∃ tokens program, scan source = tokens.map .token ∧
      (Program.parse source).result = .ok program ∧ program.Derives tokens ∧
      (runProgram tracing source store).Agrees (program.exec ⟨store.environment, []⟩) ∧
      (runProgram tracing source store).store.Sound := by
  have hplaced := Constant.extends_of_compile hstore source
  rw [hcompile] at hplaced
  obtain ⟨hextends, hbuilt⟩ := hplaced
  have hlive := (hstore.setHeap hextends hbuilt).live
  obtain ⟨tokens, program, hscan, hparse, hderives, hready, hrun⟩ :=
    Program.ready_of_compile hstore.built hcompile hlive
  rw [hstore.environment_setHeap hextends] at hready
  have hcompletes := hready.completes tracing
  rw [hrun] at hcompletes
  have hagrees : (runProgram tracing source store).Agrees (program.exec ⟨store.environment, []⟩) ∧
      (runProgram tracing source store).store.Sound := by
    rw [runProgram_of_ok hcompile]
    cases hexec : program.exec ⟨store.environment, []⟩ with
    | ok result memory =>
      rw [hexec] at hcompletes
      obtain ⟨m, heq, hshows⟩ := hcompletes
      rw [heq]
      exact ⟨⟨rfl, hshows.recalls.printed, hshows.recalls.environment⟩, hshows.recalls.sound⟩
    | error error memory =>
      rw [hexec] at hcompletes
      obtain ⟨m, heq, hrecalls⟩ := hcompletes
      rw [heq]
      exact ⟨⟨rfl, hrecalls.printed, hrecalls.environment⟩, hrecalls.sound⟩
  exact ⟨tokens, program, hscan, hparse, hderives, hagrees⟩

theorem Store.Reachable.sound (h : store.Reachable) : store.Sound := by
  induction h with
  | empty => exact ⟨.empty, fun _ _ hvalue => by cases hvalue⟩
  | @run store _ tracing source ih =>
    obtain ⟨hextends, hbuilt⟩ := Constant.extends_of_compile ih source
    cases hcompile : Program.compile source store.heap with
    | mk result heap' =>
      rw [hcompile] at hextends hbuilt
      cases result with
      | error diagnostics =>
        -- the strings of a refused source are stored all the same
        rw [runProgram_of_error hcompile]
        exact ih.setHeap hextends hbuilt
      | ok chunk =>
        obtain ⟨_, _, -, -, -, -, hsound⟩ := runProgram_agrees ih hcompile tracing
        exact hsound

/-- On every reachable store, an accepted source runs as its program is
evaluated: it prints the same texts in the same order, finishes or fails alike
with the same error, and leaves the same variables with the same contents. -/
theorem runProgram_refines_exec (hstore : store.Reachable)
    (haccepted : ∃ chunk, (Program.compile source store.heap).1 = .ok chunk) (tracing : Bool) :
    ∃ tokens program, scan source = tokens.map .token ∧ program.Derives tokens ∧
      (Program.parse source).result = .ok program ∧
      (runProgram tracing source store).Agrees (program.exec ⟨store.environment, []⟩) := by
  obtain ⟨chunk, hchunk⟩ := haccepted
  obtain ⟨tokens, program, hscan, hparse, hderives, hagrees, -⟩ :=
    runProgram_agrees hstore.sound (Prod.ext hchunk rfl) tracing
  exact ⟨tokens, program, hscan, hderives, hparse, hagrees⟩

/-- Two strings are put together and printed, whatever is traced. -/
theorem runProgram_prints_concatenation :
    let run := runProgram true (text "print\"a\"+\"b\";") .empty
    run.status = .finished ∧ printedTexts run.events = [[unit 'a', unit 'b', newline]] := by
  obtain ⟨program, hparse, hprogram⟩ := Program.parse_concatenation
  have haccepted : ∃ chunk,
      (Program.compile (text "print\"a\"+\"b\";") Heap.empty).1 = .ok chunk := by
    rw [Program.compile, hparse]
    exact ⟨_, rfl⟩
  obtain ⟨_, found, -, -, hresult, hagrees⟩ := runProgram_refines_exec .empty haccepted true
  rw [hparse] at hresult
  obtain rfl := Except.ok.inj hresult
  obtain ⟨l₁, l₂, l₃, l₄, rfl⟩ := hprogram
  exact ⟨hagrees.1, hagrees.2.1⟩

end Lox
