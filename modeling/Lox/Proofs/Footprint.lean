import Lox.Proofs.Effect
import Lox.Proofs.Refinement
import Lox.Proofs.Uses

/-!
# Lox.Proofs.Footprint

What a run may change.

A store keeps what the uses of an instruction do not touch, over one step and
so over a whole run, whether it finishes or fails (`Machine.Ready.keeps_run`):
no string moves, no variable goes away, and only declared and assigned
variables get other values.
-/

namespace Lox

/-! ## what a store keeps -/

/-- What the store after some uses keeps of the store before them. -/
structure Store.Keeps (uses : List (Use × Text)) (before after : Store) : Prop where
  heap : before.heap.Extends after.heap
  defined : ∀ name, before.globals.get? name ≠ none → after.globals.get? name ≠ none
  value : ∀ name, (Use.declared, name) ∉ uses → (Use.assigned, name) ∉ uses →
    after.globals.get? name = before.globals.get? name
  fresh : ∀ name, before.globals.get? name = none → after.globals.get? name ≠ none →
    (Use.declared, name) ∈ uses

namespace Store.Keeps

variable {uses more : List (Use × Text)} {before between after : Store}

/-- A store that differs in its strings only. -/
theorem of_heap (h : before.heap.Extends after.heap) (hglobals : after.globals = before.globals) :
    Keeps uses before after := by
  refine ⟨h, fun name hdefined => ?_, fun name _ _ => ?_, fun name hnone hsome => ?_⟩
  · rwa [hglobals]
  · rw [hglobals]
  · rw [hglobals] at hsome
    exact absurd hnone hsome

theorem refl (uses : List (Use × Text)) (store : Store) : Keeps uses store store :=
  of_heap (.refl _) rfl

theorem trans (h : Keeps uses before between) (h' : Keeps more between after) :
    Keeps (uses ++ more) before after := by
  refine ⟨h.heap.trans h'.heap, fun name hdefined => h'.defined name (h.defined name hdefined),
    fun name hdeclared hassigned => ?_, fun name hnone hsome => ?_⟩
  · rw [List.mem_append, not_or] at hdeclared hassigned
    rw [h'.value name hdeclared.2 hassigned.2, h.value name hdeclared.1 hassigned.1]
  · cases hbetween : between.globals.get? name with
    | none => exact List.mem_append_right _ (h'.fresh name hbetween hsome)
    | some value => exact List.mem_append_left _ (h.fresh name hnone (by simp [hbetween]))

/-- A variable that is declared, or assigned where it is defined already. -/
theorem set (store : Store) {name : Text} (value : Value)
    (h : (Use.declared, name) ∈ uses ∨
      (Use.assigned, name) ∈ uses ∧ store.globals.get? name ≠ none) :
    Keeps uses store { store with globals := store.globals.set name value } := by
  refine ⟨.refl _, fun other hdefined => ?_, fun other hdeclared hassigned => ?_,
    fun other hnone hsome => ?_⟩
  · rw [Globals.get?_set]
    split
    · simp
    · exact hdefined
  · rw [Globals.get?_set, if_neg]
    rintro rfl
    exact h.elim hdeclared fun h => hassigned h.1
  · rw [Globals.get?_set] at hsome
    split at hsome
    · next heq =>
      subst heq
      exact h.elim id fun h => absurd hnone h.2
    · exact absurd hnone hsome

end Store.Keeps

/-! ## steps and runs -/

namespace Move

open Machine

variable {chunk : Chunk} {pool : List Content} {m : Machine} {frame : Frame}
  {instruction : Instruction} {code : List Instruction}

/-- A step changes what its instruction uses, and nothing else. -/
theorem keeps_step (hcode : chunk.GoesOn m.offset (instruction :: code))
    (hpool : pool.length ≤ poolCapacity) (h : m.Shows chunk pool frame)
    (hname : ∀ use, instruction.opcode.use? = some use →
      ∃ name, instruction.name? pool = some name) :
    Store.Keeps (instruction.use? pool).toList m.store (left (step chunk m)).store := by
  have heffect := execute_effect chunk instruction.opcode { m with offset := m.offset + 1 }
  rw [← step_of_goesOn hcode] at heffect
  have hbuilt : m.store.heap.Built := h.recalls.built
  generalize left (step chunk m) = m' at heffect
  cases heffect with
  | drops => exact .refl _ _
  | pushes => exact .refl _ _
  | prints => exact .refl _ _
  | stores offset content => exact .of_heap (Heap.extends_allocate hbuilt.sound content) rfl
  | @sets offset count name value hop hfetch hvalue =>
    have huse {use : Use} (hopcode : instruction.opcode.use? = some use) :
        (use, name) ∈ (instruction.use? pool).toList := by
      obtain ⟨name', hname'⟩ := hname use hopcode
      have hfetched := (fetchName_of_name? hcode (Opcode.operandWidths_of_use? hopcode) hpool hname'
        (h.setOffset (m.offset + 1)) rfl).1
      rw [hfetched] at hfetch
      -- the name that was fetched is the one that the instruction uses
      obtain rfl : name' = name := by
        cases hfetch
        rfl
      rw [Instruction.use?, hopcode, Option.bind_some, hname']
      exact List.mem_singleton.2 rfl
    refine .set m.store value ?_
    rcases hop with hop | ⟨hop, hdefined⟩
    · exact .inl (huse (by rw [hop]; rfl))
    · exact .inr ⟨huse (by rw [hop]; rfl), hdefined⟩

/-- Nor does a traced step. -/
theorem keeps_tracedStep (hcode : chunk.GoesOn m.offset (instruction :: code))
    (hpool : pool.length ≤ poolCapacity) (h : m.Shows chunk pool frame)
    (hname : ∀ use, instruction.opcode.use? = some use →
      ∃ name, instruction.name? pool = some name) (tracing : Bool) :
    Store.Keeps (instruction.use? pool).toList m.store
      (left (tracedStep chunk tracing m)).store := by
  cases tracing with
  | false => exact keeps_step hcode hpool h hname
  | true =>
    obtain ⟨events, hevents, htrace⟩ := trace_of_live h.live_stack h.live_constants
    have hstep : tracedStep chunk true m =
      step chunk { m with written := m.written ++ events } := bind_ok htrace
    rw [hstep]
    exact keeps_step (m := { m with written := m.written ++ events }) hcode hpool
      ⟨h.recalls.write_traced hevents, h.stack, h.room⟩ hname

end Move

/-- An instruction that does not get stuck has the name that it uses. -/
theorem Instruction.exists_name? {instruction : Instruction} {pool : List Content} {frame : Frame}
    (h : instruction.perform pool frame ≠ .stuck) {use : Use}
    (huse : instruction.opcode.use? = some use) : ∃ name, instruction.name? pool = some name := by
  have hwith {onward : Text → Progress} (hne : instruction.withName pool onward ≠ .stuck) :
      ∃ name, instruction.name? pool = some name := by
    rw [instruction.withName_eq] at hne
    cases hname : instruction.name? pool with
    | none =>
      rw [hname] at hne
      exact absurd rfl hne
    | some name => exact ⟨name, rfl⟩
  unfold perform at h
  cases hop : instruction.opcode <;> rw [hop] at h huse <;> cases huse <;> exact hwith h

namespace Machine

open Move

variable {chunk : Chunk} {pool : List Content} {m : Machine} {frame : Frame}
  {code : List Instruction} {line : Nat}

/-- A run changes what its code uses, and nothing else. -/
theorem Ready.keeps_run (h : m.Ready chunk pool code line frame)
    (hstuck : frame.run pool code ≠ .stuck) (tracing : Bool) :
    Store.Keeps (code.filterMap (Instruction.use? pool)) m.store
      (m.run chunk tracing).2.store := by
  -- on the code ahead: what a step keeps and what the rest keeps come together
  induction code generalizing m frame with
  | nil =>
    have hkeeps := keeps_tracedStep h.code h.room h.shows (fun use huse => by cases huse) tracing
    obtain ⟨m', hret, -⟩ := tracedStep_ret h.code h.shows tracing
    rw [hret] at hkeeps
    rw [run_error h.code.lt_length hret]
    exact hkeeps
  | cons instruction code ih =>
    have hfollows := tracedStep_follows h.code h.room h.shows tracing
    rw [Frame.run] at hstuck
    have hperform : instruction.perform pool frame ≠ .stuck := by
      intro hperform
      rw [hperform] at hstuck
      exact hstuck rfl
    have hkeeps := keeps_tracedStep h.code h.room h.shows
      (fun _ huse => Instruction.exists_name? hperform huse) tracing
    have huses : (instruction :: code).filterMap (Instruction.use? pool) =
        (instruction.use? pool).toList ++ code.filterMap (Instruction.use? pool) := by
      rw [← Instruction.filterMap_singleton, ← List.filterMap_append]
      rfl
    rw [huses]
    cases hresult : instruction.perform pool frame with
    | next frame' =>
      rw [hresult] at hfollows hstuck
      obtain ⟨m', hok, hoffset, hshows⟩ := hfollows
      rw [hok] at hkeeps
      have hgoes : chunk.GoesOn m'.offset (code ++ [⟨.ret, [], line⟩]) := by
        rw [hoffset]
        exact h.code.tail
      rw [run_ok h.code.lt_length hok]
      exact hkeeps.trans (ih ⟨hgoes, h.room, hshows⟩ hstuck)
    | failed error memory =>
      rw [hresult] at hfollows
      obtain ⟨m', herror, -⟩ := hfollows
      rw [herror] at hkeeps
      rw [run_error h.code.lt_length herror]
      exact hkeeps.trans (.refl _ _)
    | stuck => exact absurd hresult hperform

end Machine

/-! ## runs of sources -/

theorem Status.ofStop_ne_refused (stop : Stop) (diagnostics : List Diagnostic) :
    ofStop stop ≠ .refused diagnostics := by cases stop <;> simp [ofStop]

/-- A source uses a variable: it is accepted, and its program does. -/
def Uses (source : Text) (use : Use) (name : Text) : Prop :=
  ∃ program, (Program.parse source).result = .ok program ∧ (use, name) ∈ program.uses

section

variable {source : Text} {store : Store} {heap' : Heap} {chunk : Chunk}

/-- The run of an accepted source changes what its program uses. -/
theorem exists_keeps_of_compile (hstore : store.Sound)
    (hcompile : Program.compile source store.heap = (.ok chunk, heap')) (tracing : Bool) :
    ∃ program, (Program.parse source).result = .ok program ∧
      store.Keeps program.uses (runProgram tracing source store).store := by
  have hplaced := Constant.extends_of_compile hstore source
  rw [hcompile] at hplaced
  obtain ⟨hextends, hbuilt⟩ := hplaced
  have hlive := (hstore.setHeap hextends hbuilt).live
  obtain ⟨tokens, program, -, hparse, -, hready, hrun⟩ :=
    Program.ready_of_compile hstore.built hcompile hlive
  have hstuck : Frame.run (program.constants.map Constant.content)
      (Stmt.codeAll 0 program.statements)
      ⟨[], ⟨Store.environment ⟨heap', store.globals⟩, []⟩⟩ ≠ .stuck := by
    rw [hrun]
    exact Progress.ofUnit_ne_stuck _
  have hkeeps := hready.keeps_run hstuck tracing
  rw [program.filterMap_use?_code] at hkeeps
  -- the constants of the unit were stored before the run began
  have hstored : store.Keeps [] ⟨heap', store.globals⟩ := .of_heap hextends rfl
  rw [runProgram_of_ok hcompile]
  exact ⟨program, hparse, hstored.trans hkeeps⟩

/-- A run changes what its source uses, accepted or not. -/
theorem exists_keeps_runProgram (hstore : store.Sound) (source : Text) (tracing : Bool) :
    ∃ uses, (∀ use name, (use, name) ∈ uses → Uses source use name) ∧
      store.Keeps uses (runProgram tracing source store).store := by
  cases hcompile : Program.compile source store.heap with
  | mk result heap' =>
    cases result with
    | error diagnostics =>
      have hextends := (Constant.extends_of_compile hstore source).1
      rw [hcompile] at hextends
      rw [runProgram_of_error hcompile]
      exact ⟨[], (fun _ _ huse => by cases huse), .of_heap hextends rfl⟩
    | ok chunk =>
      obtain ⟨program, hparse, hkeeps⟩ := exists_keeps_of_compile hstore hcompile tracing
      exact ⟨program.uses, fun _ _ huse => ⟨program, hparse, huse⟩, hkeeps⟩

/-- The run of a refused source writes its diagnostics, and leaves the variables
as they are. -/
theorem runProgram_refused {tracing : Bool} {diagnostics : List Diagnostic}
    (h : (runProgram tracing source store).status = .refused diagnostics) :
    (runProgram tracing source store).store.globals = store.globals ∧
      (runProgram tracing source store).events = diagnostics.map Diagnostic.event := by
  cases hcompile : Program.compile source store.heap with
  | mk result heap' =>
    cases result with
    | error found =>
      rw [runProgram_of_error hcompile] at h ⊢
      obtain rfl := Status.refused.inj h
      exact ⟨rfl, rfl⟩
    | ok chunk =>
      rw [runProgram_of_ok hcompile] at h
      exact absurd h (Status.ofStop_ne_refused _ _)

/-- What a run may change, on every reachable store.  A refused source changes
no variable and writes nothing but its diagnostics, one text each and in order.
However a run ends, every string that was stored keeps its handle, no variable
goes away, a variable that the source neither declares nor assigns keeps its
value, and a variable that is new is declared by the source. -/
theorem runProgram_footprint (hstore : store.Reachable) (source : Text) (tracing : Bool) :
    let run := runProgram tracing source store
    (∀ diagnostics, run.status = .refused diagnostics →
      run.store.globals = store.globals ∧ run.events = diagnostics.map Diagnostic.event ∧
        ∀ event ∈ run.events, event.stream = .diagnosed) ∧
    store.heap.Extends run.store.heap ∧
    (∀ name, store.globals.get? name ≠ none → run.store.globals.get? name ≠ none) ∧
    (∀ name, ¬ Uses source .declared name → ¬ Uses source .assigned name →
      run.store.globals.get? name = store.globals.get? name) ∧
    ∀ name, store.globals.get? name = none → run.store.globals.get? name ≠ none →
      Uses source .declared name := by
  intro run
  obtain ⟨uses, huses, hkeeps⟩ := exists_keeps_runProgram hstore.sound source tracing
  refine ⟨fun diagnostics hrefused => ?_, hkeeps.heap, hkeeps.defined,
    fun name hdeclared hassigned => ?_, fun name hnone hsome => ?_⟩
  · obtain ⟨hglobals, hevents⟩ := runProgram_refused hrefused
    have hdiagnosed : ∀ event ∈ run.events, event.stream = .diagnosed := by
      intro event hevent
      rw [hevents] at hevent
      obtain ⟨d, -, rfl⟩ := List.mem_map.1 hevent
      rfl
    exact ⟨hglobals, hevents, hdiagnosed⟩
  · exact hkeeps.value name (fun huse => hdeclared (huses _ _ huse)) fun huse =>
      hassigned (huses _ _ huse)
  · exact huses _ _ (hkeeps.fresh name hnone hsome)

end

/-- The store that a first source left has two variables with one string.  The
second source assigns one of them and declares a third: the string keeps its
handle, and the other variable its value. -/
theorem runProgram_footprint_assignment :
    let store := (runProgram false (text "var a=\"x\";var b=a;") .empty).store
    let source := text "b=\"y\";var c=b;"
    let run := runProgram true source store
    store.heap.get? ⟨1, 0⟩ = some (text "x") ∧
      store.globals.get? (text "a") = some (.string ⟨1, 0⟩) ∧
      store.globals.get? (text "b") = some (.string ⟨1, 0⟩) ∧
      run.store.heap.get? ⟨1, 0⟩ = some (text "x") ∧
      run.store.globals.get? (text "a") = some (.string ⟨1, 0⟩) ∧
      run.store.globals.get? (text "b") ≠ none ∧
      run.store.globals.get? (text "b") ≠ some (.string ⟨1, 0⟩) ∧
      Uses source .declared (text "c") := by
  intro store source run
  have hreachable : store.Reachable := .run .empty false _
  have hheld : store.heap.get? ⟨1, 0⟩ = some (text "x") := by decide +kernel
  have hkept : store.globals.get? (text "a") = some (.string ⟨1, 0⟩) := by decide +kernel
  have hassigned : store.globals.get? (text "b") = some (.string ⟨1, 0⟩) := by decide +kernel
  have huses : (Program.parse source).result.toOption.map Program.uses =
      some [(.assigned, text "b"), (.read, text "b"), (.declared, text "c")] := by decide +kernel
  have hunused (use : Use) : ¬ Uses source use (text "a") := by
    rintro ⟨program, hparse, huse⟩
    rw [hparse] at huses
    rw [Option.some.inj huses] at huse
    revert huse
    cases use <;> decide
  obtain ⟨-, hheap, hdefined, hvalue, hfresh⟩ := runProgram_footprint hreachable source true
  refine ⟨hheld, hkept, hassigned, hheap _ _ hheld, ?_, hdefined _ (by simp [hassigned]), ?_, ?_⟩
  · rw [hvalue _ (hunused _) (hunused _), hkept]
  · decide +kernel
  · exact hfresh _ (by decide +kernel) (by decide +kernel)

end Lox
