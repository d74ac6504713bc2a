import Lox.Proofs.Effect
import Lox.Proofs.Execution

/-!
# Lox.Proofs.Transparency

Tracing does not change what a machine does.

No move looks at what was written before; all it does to it is to append
(`Move.Made.appends`).  So a machine that also writes traces goes through the same
places, stacks and stores, on any code, up to the same end
(`Machine.run_traced`).
-/

namespace Lox

namespace Move

/-! ## moves do not read what was written -/

/-- The result of a move, with this written instead. -/
def rewritten {α : Type} (written : List Event) :
    EStateM.Result Stop Machine α → EStateM.Result Stop Machine α
  | .ok value m => .ok value { m with written := written }
  | .error stop m => .error stop { m with written := written }

/-- A move appends the same events whatever was written before, and does
otherwise the same. -/
def Appends {α : Type} (move : Move α) : Prop :=
  ∀ m written, ∃ events, (left (move m)).written = m.written ++ events ∧
    move { m with written := written } = rewritten (written ++ events) (move m)

namespace Appends

variable {α β : Type}

/-- A move that writes nothing. -/
theorem of_silent {move : Move α} (hwritten : ∀ m, (left (move m)).written = m.written)
    (hmove : ∀ m written, move { m with written := written } = rewritten written (move m)) :
    Appends move := by
  intro m written
  refine ⟨[], ?_, ?_⟩
  · rw [hwritten, List.append_nil]
  · rw [hmove, List.append_nil]

theorem bind {move : Move α} {next : α → Move β} (hmove : Appends move)
    (hnext : ∀ value, Appends (next value)) : Appends (move >>= next) := by
  intro m written
  obtain ⟨events, hwritten, hsame⟩ := hmove m written
  cases hresult : move m with
  | error stop m' =>
    rw [hresult] at hwritten hsame
    refine ⟨events, ?_, ?_⟩
    · rw [bind_error hresult]
      exact hwritten
    · rw [bind_error hsame, bind_error hresult]
      rfl
  | ok value m' =>
    rw [hresult] at hwritten hsame
    obtain ⟨events', hwritten', hsame'⟩ := hnext value m' (written ++ events)
    refine ⟨events ++ events', ?_, ?_⟩
    · rw [bind_ok hresult, hwritten', ← List.append_assoc]
      exact congrArg (· ++ events') hwritten
    · rw [bind_ok hsame, bind_ok hresult, hsame', List.append_assoc]

end Appends

section

variable {α : Type} {chunk : Chunk} {bytes operands : Nat} {move : Move α}

theorem Reads.appends (h : Reads chunk bytes operands move) : Appends move := by
  induction h with
  | pop =>
    refine .of_silent (fun m => ?_) fun m written => ?_
    · obtain ⟨_, _ | _, _, _⟩ := m <;> rfl
    · obtain ⟨_, _ | _, _, _⟩ := m <;> rfl
  | peek =>
    refine .of_silent (fun m => ?_) fun m written => ?_
    · obtain ⟨_, _ | _, _, _⟩ := m <;> rfl
    · obtain ⟨_, _ | _, _, _⟩ := m <;> rfl
  | bind _ _ ihfirst ihsecond => exact ihfirst.bind ihsecond
  | _ => exact .of_silent (fun _ => rfl) fun _ _ => rfl

theorem Made.appends (h : Made chunk bytes move) : Appends move := by
  induction h with
  | reads h => exact h.appends
  | push =>
    refine .of_silent (fun m => ?_) fun m written => ?_ <;> unfold Move.push
    · split <;> rfl
    · split <;> rfl
  | write stream text => exact fun _ _ => ⟨[⟨stream, text⟩], rfl, rfl⟩
  | bind _ _ ihfirst ihsecond => exact ihfirst.bind ihsecond
  | _ => exact .of_silent (fun _ => rfl) fun _ _ => rfl

theorem Appends.step (chunk : Chunk) : Appends (Move.step chunk) :=
  (@Reads.fetch chunk).appends.bind fun _ => (@Reads.ofDefect _ chunk _).appends.bind fun op =>
    (Made.execute chunk op).appends

end

/-- A step writes printed texts, the same ones whatever was written before. -/
theorem step_appends (chunk : Chunk) (m : Machine) (written : List Event) :
    ∃ events, (∀ event ∈ events, event.stream = .printed) ∧
      (left (step chunk m)).written = m.written ++ events ∧
      step chunk { m with written := written } = rewritten (written ++ events) (step chunk m) := by
  obtain ⟨events, hwritten, hsame⟩ := Appends.step chunk m written
  obtain ⟨events', hwritten', hprinted⟩ := written_step chunk m
  rw [hwritten] at hwritten'
  obtain rfl := List.append_cancel_left hwritten'
  exact ⟨events, hprinted, hwritten, hsame⟩

end Move

namespace Machine

open Move

variable {chunk : Chunk} {tracing : Bool} {m m' : Machine} {stop : Stop}

/-! ## runs -/

/-- How many steps a run begins, the last one included. -/
def stepsBegun (chunk : Chunk) (tracing : Bool) (m : Machine) : Nat :=
  if m.offset < chunk.length then
    match _h : tracedStep chunk tracing m with
    | .ok () next => stepsBegun chunk tracing next + 1
    | .error _ _ => 1
  else 0
termination_by chunk.length - m.offset
decreasing_by
  have := offset_lt_of_tracedStep _h
  omega

theorem stepsBegun_ok (hlt : m.offset < chunk.length)
    (hstep : tracedStep chunk tracing m = .ok () m') :
    m.stepsBegun chunk tracing = m'.stepsBegun chunk tracing + 1 := by
  rw [stepsBegun, if_pos hlt]
  split
  · next next hnext =>
    rw [hstep] at hnext
    cases hnext
    rfl
  · next hnext =>
    rw [hstep] at hnext
    cases hnext

theorem stepsBegun_error (hlt : m.offset < chunk.length)
    (hstep : tracedStep chunk tracing m = .error stop m') : m.stepsBegun chunk tracing = 1 := by
  rw [stepsBegun, if_pos hlt]
  split
  · next hnext =>
    rw [hstep] at hnext
    cases hnext
  · rfl

theorem stepsBegun_of_le (h : ¬ m.offset < chunk.length) : m.stepsBegun chunk tracing = 0 := by
  rw [stepsBegun, if_neg h]

/-- Events that are these outputs, with two traces put in for each step. -/
structure WithTraces (steps : Nat) (outputs events : List Event) : Prop where
  printed : ∀ event ∈ outputs, event.stream = .printed
  kept : events.filter (·.stream ≠ .traced) = outputs
  traces : events.countP (·.stream = .traced) = 2 * steps

/-- What is printed is the same. -/
theorem WithTraces.filter_printed {steps : Nat} {outputs events : List Event}
    (h : WithTraces steps outputs events) :
    events.filter (·.stream = .printed) = outputs.filter (·.stream = .printed) := by
  rw [← h.kept, List.filter_filter]
  congr 1
  funext event
  cases hstream : event.stream <;> rfl

theorem WithTraces.nil : WithTraces 0 [] [] := ⟨by simp, rfl, rfl⟩

theorem WithTraces.step {steps : Nat} {first outputs events : List Event} {stack line : Text}
    (hfirst : ∀ event ∈ first, event.stream = .printed) (h : WithTraces steps outputs events) :
    WithTraces (steps + 1) (first ++ outputs)
      ([⟨.traced, stack⟩, ⟨.traced, line⟩] ++ first ++ events) := by
  have hkept : first.filter (·.stream ≠ .traced) = first :=
    List.filter_eq_self.2 fun event hevent => by simp [hfirst event hevent]
  have hnone : first.countP (·.stream = .traced) = 0 :=
    List.countP_eq_zero.2 fun event hevent => by simp [hfirst event hevent]
  refine ⟨fun event hevent => ?_, ?_, ?_⟩
  · exact (List.mem_append.1 hevent).elim (hfirst event) (h.printed event)
  · rw [List.filter_append, List.filter_append, hkept, h.kept]
    rfl
  · rw [List.countP_append, List.countP_append, hnone, h.traces]
    show 2 + 0 + 2 * steps = 2 * (steps + 1)
    omega

/-- A traced run ends as another run does that was not traced, and has written
the same after what each had written before, but for the traces. -/
structure EndsAlike (steps : Nat) (tracedBefore plainBefore : List Event)
    (traced plain : Stop × Machine) : Prop where
  stop : traced.1 = plain.1
  offset : traced.2.offset = plain.2.offset
  stack : traced.2.stack = plain.2.stack
  store : traced.2.store = plain.2.store
  written : ∃ outputs events, plain.2.written = plainBefore ++ outputs ∧
    traced.2.written = tracedBefore ++ events ∧ WithTraces steps outputs events

theorem EndsAlike.refl (stop : Stop) (m : Machine) (written : List Event) :
    EndsAlike 0 written m.written (stop, { m with written := written }) (stop, m) :=
  ⟨rfl, rfl, rfl, rfl, [], [], (List.append_nil _).symm, (List.append_nil _).symm, .nil⟩

theorem EndsAlike.step {steps : Nat} {tracedBefore plainBefore first : List Event}
    {stack line : Text} {traced plain : Stop × Machine}
    (hfirst : ∀ event ∈ first, event.stream = .printed)
    (h : EndsAlike steps (tracedBefore ++ ([⟨.traced, stack⟩, ⟨.traced, line⟩] ++ first))
      (plainBefore ++ first) traced plain) :
    EndsAlike (steps + 1) tracedBefore plainBefore traced plain := by
  obtain ⟨outputs, events, hplain, htraced, htraces⟩ := h.written
  rw [List.append_assoc] at hplain htraced
  exact ⟨h.stop, h.offset, h.stack, h.store, _, _, hplain, htraced, htraces.step hfirst⟩

/-- A traced step begins with two traces and is otherwise the step that is not
traced. -/
theorem tracedStep_of_live (h : m.Live chunk) (written : List Event) :
    ∃ stack line first, (∀ event ∈ first, event.stream = .printed) ∧
      (left (step chunk m)).written = m.written ++ first ∧
      tracedStep chunk true { m with written := written } =
        rewritten (written ++ ([⟨.traced, stack⟩, ⟨.traced, line⟩] ++ first)) (step chunk m) := by
  obtain ⟨stack, line, htrace⟩ :=
    trace_eq_of_live (m := { m with written := written }) h.stack h.constants
  obtain ⟨first, hfirst, hwritten, hstep⟩ :=
    step_appends chunk m (written ++ [⟨.traced, stack⟩, ⟨.traced, line⟩])
  refine ⟨stack, line, first, hfirst, hwritten, ?_⟩
  rw [← List.append_assoc, ← hstep]
  exact bind_ok htrace

/-- Where every handle names a string, a traced run begins as many steps as the
run that is not traced, and ends alike. -/
theorem endsAlike_of_live (h : m.Live chunk) (written : List Event) :
    stepsBegun chunk true { m with written := written } = stepsBegun chunk false m ∧
      EndsAlike (stepsBegun chunk false m) written m.written
        (run chunk true { m with written := written }) (run chunk false m) := by
  -- the plain run leads; the traced one has written more before each later step
  induction m using run.induct chunk false generalizing written with
  | case1 m hlt next hstep ih =>
    have hlt' : { m with written := written }.offset < chunk.length := hlt
    have hok : step chunk m = .ok () next := hstep
    have hlive := live_step h
    obtain ⟨stack, line, first, hfirst, hwritten, htraced⟩ := tracedStep_of_live h written
    rw [hok] at hwritten htraced hlive
    obtain ⟨hsteps, hends⟩ := ih hlive
      (written ++ ([⟨.traced, stack⟩, ⟨.traced, line⟩] ++ first))
    rw [run_ok hlt hstep, run_ok hlt' htraced, stepsBegun_ok hlt hstep,
      stepsBegun_ok hlt' htraced]
    exact ⟨congrArg (· + 1) hsteps, .step hfirst (hwritten ▸ hends)⟩
  | case2 m hlt stop last hstep =>
    have hlt' : { m with written := written }.offset < chunk.length := hlt
    have herror : step chunk m = .error stop last := hstep
    obtain ⟨stack, line, first, hfirst, hwritten, htraced⟩ := tracedStep_of_live h written
    rw [herror] at hwritten htraced
    rw [run_error hlt hstep, run_error hlt' htraced, stepsBegun_error hlt hstep,
      stepsBegun_error hlt' htraced]
    exact ⟨rfl, .step hfirst (hwritten ▸ EndsAlike.refl stop last _)⟩
  | case3 m hge =>
    have hge' : ¬ { m with written := written }.offset < chunk.length := hge
    rw [run_of_le hge, run_of_le hge', stepsBegun_of_le hge, stepsBegun_of_le hge']
    exact ⟨rfl, .refl _ m written⟩

/-- Tracing never affects execution.  On any code, from any machine whose
handles name strings, the traced run stops as the other one does, with the same
place, stack and store, and prints the same texts; besides it writes exactly two
traces for every step that it begins. -/
theorem run_traced (chunk : Chunk) (m : Machine) (h : m.Live chunk) :
    EndsAlike (m.stepsBegun chunk true) m.written m.written (m.run chunk true)
        (m.run chunk false) ∧
      m.stepsBegun chunk true = m.stepsBegun chunk false ∧
      printedTexts (m.run chunk true).2.written = printedTexts (m.run chunk false).2.written := by
  obtain ⟨hsteps, hends⟩ := endsAlike_of_live h m.written
  have hprinted : printedTexts (m.run chunk true).2.written =
      printedTexts (m.run chunk false).2.written := by
    obtain ⟨outputs, events, hplain, htraced, htraces⟩ := hends.written
    rw [hplain, htraced, printedTexts, printedTexts, List.filter_append, List.filter_append,
      htraces.filter_printed]
  exact ⟨hsteps ▸ hends, hsteps, hprinted⟩

/-- A string is pushed, and a byte that is no operation stops the machine: two
steps, and four traces. -/
theorem run_traced_corrupt :
    let chunk : Chunk := ⟨#[⟨1, 7⟩, ⟨0, 7⟩, ⟨99, 8⟩], #[.string ⟨0, 0⟩]⟩
    let m : Machine := .start ⟨(Heap.empty.allocate [unit 'a']).2, .empty⟩
    (m.run chunk true).1 = .broken (.unknownOpcode 99) ∧
      (m.run chunk true).2.written.countP (·.stream = .traced) = 4 := by
  intro chunk m
  have hlive : m.Live chunk := by
    refine ⟨.allocate .empty _, ?_, (fun _ hvalue => by cases hvalue),
      (fun _ _ hvalue => by cases hvalue)⟩
    intro value hvalue
    obtain rfl := List.mem_singleton.1 (Array.mem_toList_iff.2 hvalue)
    exact ⟨.text [unit 'a'], rfl⟩
  obtain ⟨hends, hsteps, -⟩ := run_traced chunk m hlive
  let next : Machine := { m with offset := 2, stack := [.string ⟨0, 0⟩] }
  have hfirst : tracedStep chunk false m = .ok () next := rfl
  have hsecond : tracedStep chunk false next =
      .error (.broken (.unknownOpcode 99)) { next with offset := 3 } := rfl
  have hlt : m.offset < chunk.length := by decide
  have hlt' : next.offset < chunk.length := by decide
  obtain ⟨outputs, events, -, htraced, htraces⟩ := hends.written
  refine ⟨?_, ?_⟩
  · rw [hends.stop, run_ok hlt hfirst, run_error hlt' hsecond]
  · rw [htraced, List.countP_append, htraces.traces, hsteps, stepsBegun_ok hlt hfirst,
      stepsBegun_error hlt' hsecond]
    rfl

end Machine

end Lox
