import Lox.Command
import Lox.Proofs.Footprint

/-!
# Lox.Proofs.Prompt

What a session at a prompt writes.

Typed text is cut into lines at its line ends (`Text.typed_iff`).  Each line is
run on the store that the line before it left, however that one ended; on such
a store no run breaks off, so a session always answers all of its lines
(`runCommand_prompt`).
-/

namespace Lox

/-! ## lines -/

namespace Text

/-- A text in which these lines are typed.  A line ends at a line feed, with or
without a carriage return before it; the last one may also end with the text,
if it is not empty. -/
inductive Typed : List Text → Text → Prop where
  | nil : Typed [] []
  | unended {line : Text} (hne : line ≠ []) (hline : newline ∉ line) : Typed [line] line
  | feed {line rest : Text} {lines : List Text} (hline : newline ∉ line)
      (hreturn : line.getLast? ≠ some (unit '\r')) (hrest : Typed lines rest) :
      Typed (line :: lines) (line ++ newline :: rest)
  | returnFeed {line rest : Text} {lines : List Text} (hline : newline ∉ line)
      (hrest : Typed lines rest) :
      Typed (line :: lines) (line ++ unit '\r' :: newline :: rest)

variable {u : CodeUnit} {line rest : Text}

theorem lines_newline (rest : Text) : lines (newline :: rest) = [] :: lines rest := by
  simp [lines]

theorem lines_return (rest : Text) :
    lines (unit '\r' :: newline :: rest) = [] :: lines rest := by
  have hne : unit '\r' ≠ newline := by decide
  simp [lines, hne]

/-- A unit that ends no line belongs to the first one. -/
theorem lines_cons (hu : u ≠ newline) (hreturn : u = unit '\r' → rest.head? ≠ some newline) :
    lines (u :: rest) = (u :: (lines rest).headD []) :: (lines rest).tail := by
  have hnot : ¬ (u == unit '\r' && rest.head? == some newline) = true := by simpa using hreturn
  rw [lines, if_neg (by simpa using hu), if_neg hnot]
  cases lines rest <;> rfl

theorem head?_ne_newline (hne : line ≠ []) (hline : newline ∉ line) (rest : Text) :
    (line ++ rest).head? ≠ some newline := by
  cases line with
  | nil => exact absurd rfl hne
  | cons u line =>
    simp only [List.mem_cons, not_or] at hline
    simpa using Ne.symm hline.1

theorem lines_unended (hne : line ≠ []) (hline : newline ∉ line) : lines line = [line] := by
  induction line with
  | nil => exact absurd rfl hne
  | cons u line ih =>
    simp only [List.mem_cons, not_or] at hline
    have hhead : line.head? ≠ some newline := fun h => hline.2 (List.mem_of_mem_head? h)
    rw [lines_cons (Ne.symm hline.1) fun _ => hhead]
    by_cases hempty : line = []
    · simp [hempty, lines]
    · simp [ih hempty hline.2]

theorem lines_feed (hline : newline ∉ line) (hreturn : line.getLast? ≠ some (unit '\r'))
    (rest : Text) : lines (line ++ newline :: rest) = line :: lines rest := by
  induction line with
  | nil => exact lines_newline rest
  | cons u line ih =>
    simp only [List.mem_cons, not_or] at hline
    by_cases hempty : line = []
    · have hu : u ≠ unit '\r' := by simpa [hempty] using hreturn
      rw [hempty, List.cons_append, lines_cons (Ne.symm hline.1) fun h => absurd h hu]
      simp [lines_newline]
    · have hlast : line.getLast? ≠ some (unit '\r') := by
        rwa [List.getLast?_cons_of_ne_nil hempty] at hreturn
      have hhead := head?_ne_newline hempty hline.2 (newline :: rest)
      rw [List.cons_append, lines_cons (Ne.symm hline.1) fun _ => hhead, ih hline.2 hlast]
      simp

theorem lines_returnFeed (hline : newline ∉ line) (rest : Text) :
    lines (line ++ unit '\r' :: newline :: rest) = line :: lines rest := by
  induction line with
  | nil => exact lines_return rest
  | cons u line ih =>
    simp only [List.mem_cons, not_or] at hline
    have hhead : (line ++ unit '\r' :: newline :: rest).head? ≠ some newline := by
      by_cases hempty : line = []
      · simp [hempty, unit, newline]
      · exact head?_ne_newline hempty hline.2 _
    rw [List.cons_append, lines_cons (Ne.symm hline.1) fun _ => hhead, ih hline.2]
    simp

/-- Typed lines are read again. -/
theorem Typed.lines_eq {all : List Text} {input : Text} (h : Typed all input) :
    lines input = all := by
  induction h with
  | nil => rfl
  | unended hne hline => exact lines_unended hne hline
  | feed hline hreturn _ ih => rw [lines_feed hline hreturn, ih]
  | returnFeed hline _ ih => rw [lines_returnFeed hline, ih]

/-- One more unit before the first line. -/
theorem Typed.cons {lines : List Text} {input : Text} (h : Typed (line :: lines) input)
    (hu : u ≠ newline) (hreturn : u = unit '\r' → input.head? ≠ some newline) :
    Typed ((u :: line) :: lines) (u :: input) := by
  have hkept : newline ∉ line → newline ∉ u :: line := fun hline => by
    simp [Ne.symm hu, hline]
  cases h with
  | unended hne hline => exact .unended (by simp) (hkept hline)
  | feed hline hlast hrest =>
    refine .feed (hkept hline) ?_ hrest
    by_cases hempty : line = []
    · rw [hempty] at hreturn ⊢
      have hne : u ≠ unit '\r' := fun h => hreturn h rfl
      simpa using hne
    · rwa [List.getLast?_cons_of_ne_nil hempty]
  | returnFeed hline hrest => exact .returnFeed (hkept hline) hrest

/-- Every text is typed as some lines. -/
theorem exists_typed (input : Text) : ∃ lines, Typed lines input := by
  match input with
  | [] => exact ⟨[], .nil⟩
  | u :: rest =>
    by_cases hu : u = newline
    · obtain ⟨lines, h⟩ := exists_typed rest
      exact ⟨[] :: lines, hu ▸ .feed List.not_mem_nil (by simp) h⟩
    by_cases hreturn : u = unit '\r' ∧ rest.head? = some newline
    · obtain ⟨rfl, hhead⟩ := hreturn
      obtain ⟨more, rfl⟩ := List.head?_eq_some_iff.1 hhead
      obtain ⟨lines, h⟩ := exists_typed more
      exact ⟨[] :: lines, .returnFeed List.not_mem_nil h⟩
    obtain ⟨lines, h⟩ := exists_typed rest
    cases lines with
    | nil =>
      cases h
      exact ⟨[[u]], .unended (by simp) (by simpa using Ne.symm hu)⟩
    | cons line lines => exact ⟨_, h.cons hu fun hu => not_and.1 hreturn hu⟩
termination_by input.length

/-- Cutting a text at its line ends gives the lines that are typed in it. -/
theorem typed_iff {all : List Text} {input : Text} : Typed all input ↔ lines input = all := by
  refine ⟨Typed.lines_eq, ?_⟩
  rintro rfl
  obtain ⟨all, h⟩ := exists_typed input
  rwa [h.lines_eq]

end Text

/-! ## what a run tells -/

/-- What is told about the end of a run: the diagnostics of a refused source, a
line each, or the error of a failed run and the line it comes from. -/
def Status.complaint : Status → Text
  | .refused diagnostics => diagnostics.flatMap fun d => d.report.render ++ [newline]
  | .failed error =>
    error.cause.message ++ newline :: text "[line " ++ Text.ofInt error.line ++
      text "] in script" ++ [newline]
  | _ => []

/-- On a store that earlier runs left, no run breaks off. -/
theorem runProgram_unbroken {store : Store} (hstore : store.Sound) (source : Text) (tracing : Bool)
    (defect : Defect) : (runProgram tracing source store).status ≠ .broken defect := by
  cases hcompile : Program.compile source store.heap with
  | mk result heap' =>
    cases result with
    | error diagnostics => simp [runProgram_of_error hcompile]
    | ok chunk =>
      obtain ⟨tokens, program, -, -, -, hagrees, -⟩ := runProgram_agrees hstore hcompile tracing
      cases hexec : program.exec ⟨store.environment, []⟩ with
      | ok result memory =>
        rw [hexec] at hagrees
        simp [hagrees.1]
      | error error memory =>
        rw [hexec] at hagrees
        simp [hagrees.1]

/-- A run that is not traced writes printed texts only. -/
theorem Machine.written_run (chunk : Chunk) (m : Machine) :
    ∃ events, (m.run chunk false).2.written = m.written ++ events ∧
      ∀ event ∈ events, event.stream = .printed := by
  have hkept : Kept chunk false fun m' => ∃ events, m'.written = m.written ++ events ∧
      ∀ event ∈ events, event.stream = .printed := by
    intro m' _ ⟨before, hbefore, hprinted⟩
    obtain ⟨events, hevents, hall⟩ := Move.written_step chunk m'
    refine ⟨before ++ events, ?_, fun event hevent => ?_⟩
    · rw [← List.append_assoc, ← hbefore]
      exact hevents
    · exact (List.mem_append.1 hevent).elim (hprinted event) (hall event)
  exact hkept.run ⟨[], by simp⟩

/-- Where all is written to one stream, a choice of streams keeps all or
nothing. -/
theorem filter_stream {events : List Event} {stream : Stream}
    (h : ∀ event ∈ events, event.stream = stream) (keeps : Stream → Bool) :
    events.filter (fun event => keeps event.stream) = if keeps stream then events else [] := by
  cases hkeeps : keeps stream with
  | true => exact List.filter_eq_self.2 fun event hevent => by rw [h event hevent, hkeeps]
  | false =>
    exact List.filter_eq_nil_iff.2 fun event hevent => by simp [h event hevent, hkeeps]

/-- Where nothing but printed texts is written, they are the output. -/
theorem Run.output_of_printed {run : Run} (h : ∀ event ∈ run.events, event.stream = .printed) :
    run.output = (printedTexts run.events).flatten ∧ run.diagnoses = [] := by
  have houtput : run.events.filter (·.stream ≠ .diagnosed) = run.events :=
    filter_stream h (· ≠ .diagnosed)
  have hprinted : run.events.filter (·.stream = .printed) = run.events :=
    filter_stream h (· = .printed)
  have hdiagnosed : run.events.filter (·.stream = .diagnosed) = [] :=
    filter_stream h (· = .diagnosed)
  constructor
  · rw [Run.output, houtput, printedTexts, hprinted, List.flatMap_def]
  · rw [Run.diagnoses, hdiagnosed, List.flatMap_nil]

/-- Diagnostics are told one after the other, and are no output. -/
theorem Run.diagnoses_of_diagnosed {run : Run} {diagnostics : List Diagnostic}
    (h : run.events = diagnostics.map Diagnostic.event) :
    run.output = [] ∧ printedTexts run.events = [] ∧
      run.diagnoses = diagnostics.flatMap fun d => d.report.render ++ [newline] := by
  have hstream : ∀ event ∈ run.events, event.stream = .diagnosed := by
    intro event hevent
    rw [h] at hevent
    obtain ⟨d, -, rfl⟩ := List.mem_map.1 hevent
    rfl
  have houtput : run.events.filter (·.stream ≠ .diagnosed) = [] :=
    filter_stream hstream (· ≠ .diagnosed)
  have hprinted : run.events.filter (·.stream = .printed) = [] :=
    filter_stream hstream (· = .printed)
  have hdiagnosed : run.events.filter (·.stream = .diagnosed) = run.events :=
    filter_stream hstream (· = .diagnosed)
  refine ⟨?_, ?_, ?_⟩
  · rw [Run.output, houtput, List.flatMap_nil]
  · rw [printedTexts, hprinted, List.map_nil]
  · rw [Run.diagnoses, hdiagnosed, h, List.flatMap_map]
    rfl

theorem RuntimeError.render_eq_complaint (error : RuntimeError) :
    error.render = (Status.failed error).complaint := by
  have hline : text "\n[line " = newline :: text "[line " := by decide
  have hend : text "] in script\n" = text "] in script" ++ [newline] := by decide
  simp only [render, hline, hend, Status.complaint, List.append_assoc, List.cons_append]

/-- Only a run that breaks off makes the command break off. -/
theorem Transcript.exit_ofRun_ne_broken {run : Run} (h : ∀ defect, run.status ≠ .broken defect) :
    (ofRun run).exit ≠ .broken := by
  cases hstatus : run.status with
  | broken defect => exact absurd hstatus (h defect)
  | _ => simp [ofRun, hstatus]

/-- A line's transcript: what the run printed, and how it ended. -/
theorem Transcript.ofRun_runProgram {store : Store} (hstore : store.Sound) (source : Text) :
    let run := runProgram false source store
    (ofRun run).output = (printedTexts run.events).flatten ∧
      (ofRun run).errors = run.status.complaint := by
  intro run
  cases hcompile : Program.compile source store.heap with
  | mk result heap' =>
    cases result with
    | error diagnostics =>
      have hrun : run = ⟨.refused diagnostics, diagnostics.map Diagnostic.event, _⟩ :=
        runProgram_of_error hcompile false
      obtain ⟨houtput, hprinted, hdiagnoses⟩ :=
        Run.diagnoses_of_diagnosed (congrArg Run.events hrun)
      have hstatus : run.status = .refused diagnostics := congrArg Run.status hrun
      simp only [ofRun, hstatus]
      rw [houtput, hprinted, hdiagnoses]
      exact ⟨rfl, rfl⟩
    | ok chunk =>
      have hrun := runProgram_of_ok hcompile false
      obtain ⟨events, hevents, hall⟩ :=
        Machine.written_run chunk (.start { store with heap := heap' })
      have hprinted : ∀ event ∈ run.events, event.stream = .printed := by
        have hwritten : run.events = [] ++ events := (congrArg Run.events hrun).trans hevents
        rw [hwritten]
        exact hall
      obtain ⟨houtput, hdiagnoses⟩ := Run.output_of_printed hprinted
      cases hstatus : run.status with
      | finished =>
        simp only [ofRun, hstatus]
        exact ⟨houtput, hdiagnoses⟩
      | refused diagnostics =>
        have hstop := (congrArg Run.status hrun).symm.trans hstatus
        exact absurd hstop (Status.ofStop_ne_refused _ diagnostics)
      | failed error =>
        simp only [ofRun, hstatus, hdiagnoses, List.nil_append]
        exact ⟨houtput, error.render_eq_complaint⟩
      | broken defect => exact absurd hstatus (runProgram_unbroken hstore source false defect)

/-! ## sessions -/

/-- On a store that earlier runs left, however those ended, no later run breaks
off. -/
theorem runPrograms_unbroken {store : Store} (hstore : store.Reachable) (tracing : Bool)
    (sources : List Text) :
    ∀ run ∈ runPrograms tracing sources store, ∀ defect, run.status ≠ .broken defect := by
  induction sources generalizing store with
  | nil => simp [runPrograms]
  | cons source rest ih =>
    intro run hrun
    rcases List.mem_cons.1 hrun with rfl | hlater
    · exact runProgram_unbroken hstore.sound source tracing
    · exact ih (hstore.run tracing source) run hlater

/-- A prompt answers all of its lines. -/
theorem promptLines_eq {session : Session} (htracing : session.tracing = false)
    (hstore : session.store.Reachable) (lines : List Text) :
    let runs := runPrograms false lines session.store
    promptLines session lines = ⟨.success,
      promptMark ++ runs.flatMap fun run => (printedTexts run.events).flatten ++ promptMark,
      runs.flatMap fun run => run.status.complaint⟩ := by
  induction lines generalizing session with
  | nil => simp [promptLines, runPrograms]
  | cons line rest ih =>
    have hrun : (session.submit line).1 = runProgram false line session.store := by
      rw [Session.submit, htracing]
    have hsession : (session.submit line).2.tracing = false := htracing
    have hafter : (session.submit line).2.store = (runProgram false line session.store).store := by
      rw [Session.submit, htracing]
    have hrest := ih hsession (by rw [hafter]; exact hstore.run false line)
    obtain ⟨houtput, herrors⟩ := Transcript.ofRun_runProgram hstore.sound line
    -- the line does not end the session, so the later lines are answered
    have hexit : (Transcript.ofRun (runProgram false line session.store)).exit ≠ .broken :=
      Transcript.exit_ofRun_ne_broken (runProgram_unbroken hstore.sound line false)
    simp only [promptLines, hrun, if_neg hexit, runPrograms, hrest, hafter, houtput, herrors,
      List.flatMap_cons, List.append_assoc]

/-- No line ends a session.  Without a path and with tracing off, all lines that
are typed are run in order on one store, each on what the line before it left,
and none of the runs breaks off, whatever the earlier lines were.  The command
succeeds; it writes a prompt, and for each line what the run printed and
another prompt; and it tells the diagnostics of a refused line, or the error of
a failed one. -/
theorem runCommand_prompt {arguments : List Text} {environment : List (Text × Text)}
    (h : Invocation.ofArguments (.ofEnvironment environment) arguments = ⟨.prompt, false⟩)
    (files : Directory) (input : Text) :
    let told := runCommand arguments environment files input
    ∃ lines, (∀ other, Text.Typed other input ↔ other = lines) ∧
      let runs := runPrograms false lines .empty
      told.exit.number = 0 ∧
      told.output = promptMark ++
        runs.flatMap (fun run => (printedTexts run.events).flatten ++ promptMark) ∧
      told.errors = runs.flatMap (fun run => run.status.complaint) ∧
      ∀ run ∈ runs, ∀ defect, run.status ≠ .broken defect := by
  intro told
  have hfresh : (Session.start false).tracing = false := rfl
  have hlines := promptLines_eq hfresh .empty (Text.lines input)
  have htold : told = promptLines (.start false) (Text.lines input) := by
    simp only [told, runCommand, h, runPrompt]
  rw [hlines] at htold
  have htyped (other : List Text) : Text.Typed other input ↔ other = Text.lines input :=
    Text.typed_iff.trans eq_comm
  refine ⟨Text.lines input, htyped, ?_, ?_, ?_, runPrograms_unbroken .empty false _⟩
  · rw [htold]
    rfl
  · rw [htold]
    rfl
  · rw [htold]
    rfl

/-- A session that goes on after a line that is refused and one that fails. -/
theorem runCommand_prompt_failing_lines :
    let told := runCommand [] [] ⟨[]⟩ (text "var a = \"x\";\n)\r\nprint b;\nprint a + a;")
    told.exit.number = 0 ∧ told.output = text "> > > > xx\n> " ∧
      told.errors = text ("[line 1] Error at ')': Expect expression.\n" ++
        "Undefined variable 'b'.\n[line 1] in script\n") := by
  intro told
  have hprompt : Invocation.ofArguments (.ofEnvironment []) [] = ⟨.prompt, false⟩ := rfl
  obtain ⟨lines, htyped, hexit, houtput, herrors, -⟩ :=
    runCommand_prompt hprompt ⟨[]⟩ (text "var a = \"x\";\n)\r\nprint b;\nprint a + a;")
  obtain rfl := Text.typed_iff.1 ((htyped lines).2 rfl)
  refine ⟨hexit, houtput.trans ?_, herrors.trans ?_⟩
  · decide +kernel
  · decide +kernel

end Lox
