import Lox.Machine.Run
import Lox.Proofs.Content

/-!
# Lox.Proofs.Tracing

What tracing does to a machine.

The trace of a step shows the stack and the instruction to come.  Where the
handles on the stack and in the pool name strings, it succeeds, and all that it
changes is what was written (`Move.trace_of_live`).
-/

namespace Lox

/-- A value whose handle, if it has one, names a string. -/
def Heap.Live (heap : Heap) (value : Value) : Prop := ∃ c, heap.view? value = some c

namespace Heap.Live

variable {heap : Heap} {value : Value} {stack : List Value}

theorem of_views {values : List Value} {contents : List Content}
    (h : values.map heap.view? = contents.map some) : ∀ value ∈ values, heap.Live value := by
  intro value hvalue
  have hview : heap.view? value ∈ values.map heap.view? := List.mem_map_of_mem hvalue
  rw [h] at hview
  obtain ⟨c, -, hc⟩ := List.mem_map.1 hview
  exact ⟨c, hc.symm⟩

theorem display (h : heap.Live value) : ∃ shown, value.display heap = .ok shown := by
  obtain ⟨c, hview⟩ := h
  exact ⟨c.display, (Heap.shows_iff.2 hview).display⟩

theorem displayStack (h : ∀ value ∈ stack, heap.Live value) :
    ∃ shown, Value.displayStack heap stack = .ok shown := by
  have hfold (values : List Value) (hvalues : ∀ value ∈ values, heap.Live value) (shown : Text) :
      ∃ shown', values.foldlM (fun shown value => do
        let content ← value.display heap
        pure (shown ++ text "[ " ++ content ++ text " ]")) shown =
          (.ok shown' : Except Defect Text) := by
    induction values generalizing shown with
    | nil => exact ⟨shown, rfl⟩
    | cons value values ih =>
      obtain ⟨content, hcontent⟩ := (hvalues value (.head _)).display
      rw [List.foldlM_cons, hcontent]
      exact ih (fun v hv => hvalues v (.tail _ hv)) _
  exact hfold stack.reverse (fun v hv => h v (List.mem_reverse.1 hv)) []

end Heap.Live

namespace Chunk

variable {chunk : Chunk} {heap : Heap}

theorem mem_of_constant? {index : Option Int} {value : Value}
    (h : chunk.constant? index = some value) : value ∈ chunk.constants := by
  unfold constant? at h
  split at h
  · exact Array.mem_of_getElem? h
  · cases h

theorem displayConstant_of_live (h : ∀ value ∈ chunk.constants, heap.Live value)
    (index : Option Int) : ∃ shown, chunk.displayConstant heap index = .ok shown := by
  unfold displayConstant
  split
  · next value hvalue => exact Heap.Live.display (h value (mem_of_constant? hvalue))
  · exact ⟨_, rfl⟩

theorem listInstruction_of_live (h : ∀ value ∈ chunk.constants, heap.Live value) (offset : Int) :
    ∃ next line, chunk.listInstruction heap offset = .ok (next, line) := by
  simp only [listInstruction]
  split
  · exact ⟨_, _, rfl⟩
  · next op _ =>
    split
    · exact ⟨_, _, rfl⟩
    · obtain ⟨shown, hshown⟩ := displayConstant_of_live h (chunk.byte? (offset + 1))
      rw [hshown]
      exact ⟨_, _, rfl⟩

end Chunk

namespace Move

variable {α : Type} {m : Machine}

theorem bind_fetch {chunk : Chunk} (next : Option Int → Move α) (m : Machine) :
    (fetch chunk >>= next) m = next (chunk.byte? m.offset) { m with offset := m.offset + 1 } :=
  bind_ok rfl

theorem bind_heap (next : Heap → Move α) (m : Machine) :
    (heap >>= next) m = next m.store.heap m := bind_ok rfl

theorem bind_globals (next : Globals → Move α) (m : Machine) :
    (globals >>= next) m = next m.store.globals m := bind_ok rfl

/-- Tracing writes the stack and the instruction, and does nothing else. -/
theorem trace_of_shown {chunk : Chunk} {shown line : Text} {next : Int}
    (hshown : Value.displayStack m.store.heap m.stack = .ok shown)
    (hlisted : chunk.listInstruction m.store.heap m.offset = .ok (next, line)) :
    trace chunk m = .ok () { m with
      written := m.written ++
        [⟨.traced, Text.blanks 10 ++ shown ++ [newline]⟩, ⟨.traced, line ++ [newline]⟩] } := by
  have hget : (get : Move Machine) m = .ok m m := rfl
  have hdisplay : ofDefect (Value.displayStack m.store.heap m.stack) m = .ok shown m := by
    rw [hshown]
    rfl
  have hlist (m' : Machine) :
      ofDefect (chunk.listInstruction m.store.heap m.offset) m' = .ok (next, line) m' := by
    rw [hlisted]
    rfl
  unfold trace
  refine (bind_ok hget).trans ((bind_ok hdisplay).trans ((bind_ok rfl).trans ?_))
  refine (bind_ok (hlist _)).trans ?_
  show EStateM.Result.ok () { m with written := m.written ++ [_] ++ [_] } = _
  rw [List.append_assoc]
  rfl

theorem trace_eq_of_live {chunk : Chunk} (hstack : ∀ value ∈ m.stack, m.store.heap.Live value)
    (hpool : ∀ value ∈ chunk.constants, m.store.heap.Live value) :
    ∃ stack line, trace chunk m =
      .ok () { m with written := m.written ++ [⟨.traced, stack⟩, ⟨.traced, line⟩] } := by
  obtain ⟨shown, hshown⟩ := Heap.Live.displayStack hstack
  obtain ⟨next, line, hlisted⟩ := Chunk.listInstruction_of_live hpool m.offset
  exact ⟨_, _, trace_of_shown hshown hlisted⟩

/-- What is written are traces. -/
theorem trace_of_live {chunk : Chunk} (hstack : ∀ value ∈ m.stack, m.store.heap.Live value)
    (hpool : ∀ value ∈ chunk.constants, m.store.heap.Live value) :
    ∃ events, (∀ event ∈ events, event.stream = .traced) ∧
      trace chunk m = .ok () { m with written := m.written ++ events } := by
  obtain ⟨stack, line, htrace⟩ := trace_eq_of_live hstack hpool
  exact ⟨_, by simp, htrace⟩

end Move

end Lox
