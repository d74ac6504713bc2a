import Lox.Proofs.Effect
import Lox.Proofs.Execution
import Lox.Proofs.Listing

/-!
# Lox.Proofs.Decoding

The machine goes through the instructions that the listing lists.

A step ends where the listing goes on, whether it succeeds, returns, fails or
breaks off (`Move.offset_step_eq_nextOffset`).  So the offsets at which runs
carry out steps, one run after the other on one machine, are the listed offsets
up to the place where the last run stopped
(`Machine.offsetsFrom_eq_executedTimes`).
-/

namespace Lox

namespace Move

variable {chunk : Chunk} {tracing : Bool} {m : Machine}

/-! ## one step -/

/-- A step ends where the next listed instruction begins. -/
theorem offset_step_eq_nextOffset (h : m.offset < chunk.length) :
    (left (step chunk m)).offset = chunk.nextOffset m.offset := by
  rw [offset_step, Chunk.nextOffset, Chunk.byte?_eq h]
  rfl

/-- A trace writes traces, and changes nothing besides. -/
theorem trace_cases (chunk : Chunk) (m : Machine) :
    ∃ traces, (∀ event ∈ traces, event.stream = .traced) ∧
      ((∃ defect, trace chunk m =
          .error (.broken defect) { m with written := m.written ++ traces }) ∨
        trace chunk m = .ok () { m with written := m.written ++ traces }) := by
  have hget : (get : Move Machine) m = .ok m m := rfl
  unfold trace
  rw [bind_ok hget]
  obtain ⟨defect, hstack⟩ | ⟨shown, -, hstack⟩ :=
    ofDefect_cases (Value.displayStack m.store.heap m.stack) m
  · refine ⟨[], by simp, .inl ⟨defect, ?_⟩⟩
    rw [List.append_nil]
    exact bind_error hstack
  rw [bind_ok hstack]
  let first : Event := ⟨.traced, Text.blanks 10 ++ shown ++ [newline]⟩
  let stacked : Machine := { m with written := m.written ++ [first] }
  have hwrite : write .traced (Text.blanks 10 ++ shown ++ [newline]) m = .ok () stacked := rfl
  rw [bind_ok hwrite]
  obtain ⟨defect, hlisted⟩ | ⟨⟨next, line⟩, -, hlisted⟩ :=
    ofDefect_cases (chunk.listInstruction m.store.heap m.offset) stacked
  · exact ⟨[first], by simp [first], .inl ⟨defect, bind_error hlisted⟩⟩
  · rw [bind_ok hlisted]
    let second : Event := ⟨.traced, line ++ [newline]⟩
    have hwritten : stacked.written ++ [second] = m.written ++ [first, second] :=
      List.append_assoc _ _ _
    refine ⟨[first, second], by simp [first, second], .inr ?_⟩
    rw [← hwritten]
    rfl

end Move

namespace Machine

open Move

variable {chunk : Chunk} {tracing : Bool} {m m' : Machine} {heap : Heap}

/-- Is the step at the machine's place carried out?  With tracing on, a stack or
an instruction that cannot be shown stops the machine before it. -/
def proceeds (chunk : Chunk) (tracing : Bool) (m : Machine) : Bool :=
  match trace chunk m with
  | .ok _ _ => true
  | .error _ _ => !tracing

theorem tracedStep_of_proceeds (h : m.proceeds chunk tracing = true) :
    ∃ traces, (∀ event ∈ traces, tracing = true ∧ event.stream = .traced) ∧
      tracedStep chunk tracing m = step chunk { m with written := m.written ++ traces } := by
  cases tracing with
  | false =>
    refine ⟨[], by simp, ?_⟩
    rw [List.append_nil]
    rfl
  | true =>
    obtain ⟨traces, htraces, ⟨defect, htrace⟩ | htrace⟩ := trace_cases chunk m
    · simp [proceeds, htrace] at h
    · exact ⟨traces, fun event hevent => ⟨rfl, htraces event hevent⟩, bind_ok htrace⟩

theorem tracedStep_of_not_proceeds (h : m.proceeds chunk tracing = false) :
    ∃ defect traces, (∀ event ∈ traces, tracing = true ∧ event.stream = .traced) ∧
      tracedStep chunk tracing m =
        .error (.broken defect) { m with written := m.written ++ traces } := by
  obtain ⟨traces, htraces, ⟨defect, htrace⟩ | htrace⟩ := trace_cases chunk m
  · have htracing : tracing = true := by simpa [proceeds, htrace] using h
    rw [htracing]
    exact ⟨defect, traces, fun event hevent => ⟨rfl, htraces event hevent⟩, bind_error htrace⟩
  · simp [proceeds, htrace] at h

theorem proceeds_of_ok (h : tracedStep chunk tracing m = .ok () m') :
    m.proceeds chunk tracing = true := by
  cases hproceeds : m.proceeds chunk tracing with
  | true => rfl
  | false =>
    obtain ⟨defect, traces, -, herror⟩ := tracedStep_of_not_proceeds hproceeds
    rw [h] at herror
    cases herror

theorem offset_tracedStep (hlt : m.offset < chunk.length) (h : m.proceeds chunk tracing = true) :
    (left (tracedStep chunk tracing m)).offset = chunk.nextOffset m.offset := by
  obtain ⟨traces, -, hstep⟩ := tracedStep_of_proceeds h
  have hoffset := offset_step_eq_nextOffset (m := { m with written := m.written ++ traces }) hlt
  rw [hstep, hoffset]

/-! ## runs -/

/-- The offsets at which a run carries out steps. -/
def executed (chunk : Chunk) (tracing : Bool) (m : Machine) : List Nat :=
  if m.offset < chunk.length then
    match _h : tracedStep chunk tracing m with
    | .ok () next => m.offset :: executed chunk tracing next
    | .error _ _ => if m.proceeds chunk tracing then [m.offset] else []
  else []
termination_by chunk.length - m.offset
decreasing_by
  have := offset_lt_of_tracedStep _h
  omega

theorem executed_ok (hlt : m.offset < chunk.length)
    (hstep : tracedStep chunk tracing m = .ok () m') :
    m.executed chunk tracing = m.offset :: m'.executed chunk tracing := by
  rw [executed, if_pos hlt]
  split
  · next next hnext =>
    rw [hstep] at hnext
    cases hnext
    rfl
  · next hnext =>
    rw [hstep] at hnext
    cases hnext

theorem executed_error {stop : Stop} (hlt : m.offset < chunk.length)
    (hstep : tracedStep chunk tracing m = .error stop m') :
    m.executed chunk tracing = if m.proceeds chunk tracing then [m.offset] else [] := by
  rw [executed, if_pos hlt]
  split
  · next hnext =>
    rw [hstep] at hnext
    cases hnext
  · rfl

theorem executed_of_le (h : ¬ m.offset < chunk.length) : m.executed chunk tracing = [] := by
  rw [executed, if_neg h]

/-- What a run carries out, and what the listing lists from the place where it
stops, is what the listing lists from the place where it began. -/
theorem offsetsFrom_eq_executed (chunk : Chunk) (tracing : Bool) (m : Machine) :
    chunk.offsetsFrom m.offset =
      m.executed chunk tracing ++ chunk.offsetsFrom (m.run chunk tracing).2.offset := by
  induction m using run.induct chunk tracing with
  | case1 m hlt next hstep ih =>
    have hnext := offset_tracedStep hlt (proceeds_of_ok hstep)
    rw [hstep] at hnext
    have hoffset : next.offset = chunk.nextOffset m.offset := hnext
    rw [Chunk.offsetsFrom_of_lt hlt, ← hoffset, ih, run_ok hlt hstep, executed_ok hlt hstep,
      List.cons_append]
  | case2 m hlt stop last hstep =>
    rw [run_error hlt hstep, executed_error hlt hstep]
    cases hproceeds : m.proceeds chunk tracing with
    | true =>
      have hnext := offset_tracedStep hlt hproceeds
      rw [hstep] at hnext
      have hoffset : last.offset = chunk.nextOffset m.offset := hnext
      rw [if_pos rfl, Chunk.offsetsFrom_of_lt hlt, hoffset, List.singleton_append]
    | false =>
      obtain ⟨defect, traces, -, herror⟩ := tracedStep_of_not_proceeds hproceeds
      rw [hstep] at herror
      cases herror
      simp
  | case3 m hle =>
    rw [run_of_le hle, executed_of_le hle, List.nil_append]

/-- The machine after this many runs, each of which goes on where the one before
it stopped. -/
def runTimes (chunk : Chunk) (tracing : Bool) : Nat → Machine → Machine
  | 0, m => m
  | count + 1, m => runTimes chunk tracing count (m.run chunk tracing).2

/-- The offsets at which this many runs carry out steps. -/
def executedTimes (chunk : Chunk) (tracing : Bool) : Nat → Machine → List Nat
  | 0, _ => []
  | count + 1, m =>
    m.executed chunk tracing ++ executedTimes chunk tracing count (m.run chunk tracing).2

theorem offsetsFrom_eq_executedTimes (chunk : Chunk) (tracing : Bool) (count : Nat) (m : Machine) :
    chunk.offsetsFrom m.offset = m.executedTimes chunk tracing count ++
      chunk.offsetsFrom (m.runTimes chunk tracing count).offset := by
  induction count generalizing m with
  | zero => rfl
  | succ count ih =>
    rw [offsetsFrom_eq_executed chunk tracing m, ih, executedTimes, runTimes, List.append_assoc]

theorem Kept.runTimes {property : Machine → Prop} (h : Kept chunk tracing property) (count : Nat)
    (hm : property m) : property (m.runTimes chunk tracing count) := by
  induction count generalizing m with
  | zero => exact hm
  | succ count ih => exact ih (h.run hm)

/-! ## strings of the pool -/

/-- The strings of a heap are still stored in a machine. -/
structure Retains (heap : Heap) (m : Machine) : Prop where
  extends_heap : heap.Extends m.store.heap
  built : m.store.heap.Built

namespace Retains

theorem step (h : m.Retains heap) (chunk : Chunk) : Retains heap (left (step chunk m)) := by
  obtain ⟨stop, hstep⟩ | ⟨op, -, hstep⟩ := step_cases chunk m
  · rw [hstep]
    exact ⟨h.extends_heap, h.built⟩
  · obtain ⟨hextends, hbuilt⟩ :=
      (execute_effect chunk op { m with offset := m.offset + 1 }).extends_heap h.built
    rw [hstep]
    exact ⟨h.extends_heap.trans hextends, hbuilt⟩

theorem kept (chunk : Chunk) (tracing : Bool) (heap : Heap) :
    Kept chunk tracing (Retains heap) := by
  intro m _ h
  cases hproceeds : m.proceeds chunk tracing with
  | true =>
    obtain ⟨traces, -, hstep⟩ := tracedStep_of_proceeds hproceeds
    have hrewritten : Retains heap { m with written := m.written ++ traces } :=
      ⟨h.extends_heap, h.built⟩
    rw [hstep]
    exact hrewritten.step chunk
  | false =>
    obtain ⟨defect, traces, -, hstep⟩ := tracedStep_of_not_proceeds hproceeds
    rw [hstep]
    exact ⟨h.extends_heap, h.built⟩

end Retains

/-- The machine decodes what the listing decodes.  On any code, and with any
constants whose strings are stored, however often the machine was run: a step
from any place in the code that it comes to ends where the listing goes on from
there, whatever becomes of the step; and the offsets at which all runs together
carried out steps are the first ones of those that the listing has its lines
for. -/
theorem runs_follow_listing {chunk : Chunk} {store : Store} (hbuilt : store.heap.Built)
    (hlive : ∀ value ∈ chunk.constants, store.heap.Live value) (tracing : Bool) (count : Nat)
    (name : Text) :
    (∀ m, Reaches chunk tracing ((start store).runTimes chunk tracing count) m →
      m.offset < chunk.length → ∃ next line,
        chunk.listInstruction m.store.heap m.offset = .ok (next, line) ∧
        (left (step chunk m)).offset = next ∧
        (m.proceeds chunk tracing → (left (tracedStep chunk tracing m)).offset = next)) ∧
    (start store).executedTimes chunk tracing count <+: chunk.offsetsFrom 0 ∧
    chunk.listing store.heap name = .ok (text "== " ++ name ++ text " ==\n" ++
      (chunk.offsetsFrom 0).flatMap fun offset => chunk.lineAt store.heap offset ++ [newline]) := by
  refine ⟨fun m hreach hlt => ?_, ?_, Chunk.listing_of_live hlive name⟩
  · have hstart : Retains store.heap (start store) := ⟨.refl _, hbuilt⟩
    have hkept := Retains.kept chunk tracing store.heap
    have hretains := hkept.reaches hreach (hkept.runTimes count hstart)
    have hlisted := Chunk.listInstruction_eq_of_live
      (fun value hvalue => (hlive value hvalue).extend hretains.extends_heap) m.offset
    refine ⟨_, _, hlisted, ?_, fun hproceeds => ?_⟩
    · rw [offset_step_eq_nextOffset hlt]
    · rw [offset_tracedStep hlt hproceeds]
  · have hsplit := offsetsFrom_eq_executedTimes chunk tracing count (start store)
    exact ⟨_, hsplit.symm⟩

/-- Three runs of a corrupt unit: a byte that is no operation stops the first,
the return the second, and a constant without its index the third.  They went
through the listed offsets. -/
theorem runs_follow_listing_corrupt :
    let chunk : Chunk := ⟨#[⟨1, 1⟩, ⟨0, 1⟩, ⟨99, 1⟩, ⟨16, 2⟩, ⟨0, 2⟩, ⟨0, 3⟩, ⟨1, 4⟩],
      #[.string ⟨0, 0⟩]⟩
    let store : Store := ⟨(Heap.empty.allocate [unit 'a']).2, .empty⟩
    chunk.offsetsFrom 0 = [0, 2, 3, 5, 6] ∧
      (start store).executedTimes chunk true 3 <+: [0, 2, 3, 5, 6] := by
  intro chunk store
  have hoffsets : chunk.offsetsFrom 0 = [0, 2, 3, 5, 6] := by cbv
  have hlive : ∀ value ∈ chunk.constants, store.heap.Live value := by
    intro value hvalue
    obtain rfl := List.mem_singleton.1 (Array.mem_toList_iff.2 hvalue)
    exact ⟨.text [unit 'a'], rfl⟩
  have hprefix := (runs_follow_listing (.allocate .empty _) hlive true 3 []).2.1
  exact ⟨hoffsets, hoffsets ▸ hprefix⟩

end Machine

end Lox
