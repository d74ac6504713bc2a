import Lox.Proofs.Effect
import Lox.Proofs.Footprint
import Lox.Proofs.Lexical

/-!
# Lox.Proofs.Noninterference

Two runs of a source on stores that agree on its names.

Frames that agree on the names that an instruction uses lead to frames that
agree on them (`Instruction.perform_agree`).  So two machines that run the same
code on stores of their own go through the code side by side and write the same
events, whatever their handles are and whatever else they hold
(`Machine.Twins.ends_together`).
-/

namespace Lox

/-! ## agreement of memories and frames -/

/-- Memories that printed the same and give some names the same contents. -/
structure Memory.AgreeOn (names : Text → Prop) (a b : Memory) : Prop where
  environment : ∀ name, names name → a.environment name = b.environment name
  printed : a.printed = b.printed

/-- Frames with the same stack, on memories that agree. -/
structure Frame.AgreeOn (names : Text → Prop) (a b : Frame) : Prop where
  stack : a.stack = b.stack
  memory : a.memory.AgreeOn names b.memory

/-- The same kind of progress, to frames or memories that agree. -/
inductive Progress.AgreeOn (names : Text → Prop) : Progress → Progress → Prop where
  | next {a b : Frame} (h : a.AgreeOn names b) : AgreeOn names (.next a) (.next b)
  | failed (error : RuntimeError) {a b : Memory} (h : a.AgreeOn names b) :
      AgreeOn names (.failed error a) (.failed error b)
  | stuck : AgreeOn names .stuck .stuck

section

variable {names : Text → Prop} {a b : Memory} {pool : List Content} {name : Text} {c : Content}
  {stack : List Content} {line : Nat}

theorem Memory.AgreeOn.print (h : a.AgreeOn names b) (c : Content) :
    (a.print c).AgreeOn names (b.print c) := by
  refine ⟨h.environment, ?_⟩
  rw [Memory.print, Memory.print, h.printed]

theorem Memory.AgreeOn.define (h : a.AgreeOn names b) (name : Text) (c : Content) :
    (a.define name c).AgreeOn names (b.define name c) := by
  refine ⟨fun other hother => ?_, h.printed⟩
  rw [Memory.define, Memory.define]
  simp only
  split
  · rfl
  · exact h.environment other hother

namespace Frame

theorem push_agree (h : a.AgreeOn names b) (stack : List Content) (c : Content) :
    (push ⟨stack, a⟩ c).AgreeOn names (push ⟨stack, b⟩ c) := by
  unfold push
  split
  · exact .next ⟨rfl, h⟩
  · exact .stuck

theorem operate_agree (h : a.AgreeOn names b) (stack : List Content)
    (result : Except OperatorError Content) (line : Nat) :
    (Progress.ofContent stack (Evaluation.operate result line a)).AgreeOn names
      (Progress.ofContent stack (Evaluation.operate result line b)) := by
  cases result with
  | ok c => exact .next ⟨rfl, h⟩
  | error error => exact .failed _ h

theorem unary_agree (h : a.AgreeOn names b) (stack : List Content) (op : UnaryOp) (line : Nat) :
    (unary ⟨stack, a⟩ op line).AgreeOn names (unary ⟨stack, b⟩ op line) := by
  cases stack with
  | nil => exact .stuck
  | cons c rest => exact operate_agree h rest (op.apply c) line

theorem binary_agree (h : a.AgreeOn names b) (stack : List Content) (op : BinaryOp) (line : Nat) :
    (binary ⟨stack, a⟩ op line).AgreeOn names (binary ⟨stack, b⟩ op line) := by
  match stack with
  | [] => exact .stuck
  | [_] => exact .stuck
  | right :: left :: rest => exact operate_agree h rest (op.apply left right) line

theorem withTop_agree {onward onward' : Content → List Content → Progress}
    (stack : List Content)
    (honward : ∀ c rest, (onward c rest).AgreeOn names (onward' c rest)) :
    (withTop ⟨stack, a⟩ onward).AgreeOn names (withTop ⟨stack, b⟩ onward') := by
  cases stack with
  | nil => exact .stuck
  | cons c rest => exact honward c rest

/-- Variables of the names agreed upon are found alike. -/
theorem withVariable_agree {onward onward' : Content → Progress} (h : a.AgreeOn names b)
    (hname : names name) (stack : List Content) (line : Nat)
    (honward : ∀ c, (onward c).AgreeOn names (onward' c)) :
    (withVariable ⟨stack, a⟩ name line onward).AgreeOn names
      (withVariable ⟨stack, b⟩ name line onward') := by
  unfold withVariable
  simp only [← h.environment name hname]
  cases a.environment name with
  | none => exact .failed _ h
  | some c => exact honward c

end Frame

open Lox.Frame

theorem Instruction.withContent_agree (instruction : Instruction)
    {onward onward' : Content → Progress}
    (honward : ∀ c, (onward c).AgreeOn names (onward' c)) :
    (instruction.withContent pool onward).AgreeOn names
      (instruction.withContent pool onward') := by
  unfold withContent
  split
  · split
    · exact honward _
    · exact .stuck
  · exact .stuck

theorem Instruction.withName_agree (instruction : Instruction) {onward onward' : Text → Progress}
    (honward : ∀ name, instruction.name? pool = some name →
      (onward name).AgreeOn names (onward' name)) :
    (instruction.withName pool onward).AgreeOn names (instruction.withName pool onward') := by
  rw [instruction.withName_eq, instruction.withName_eq]
  cases hname : instruction.name? pool with
  | none => exact .stuck
  | some name => exact honward name hname

/-- Where frames agree on the name that an instruction uses, it leads to frames
that agree. -/
theorem Instruction.perform_agree {instruction : Instruction} {frame frame' : Frame}
    (hname : ∀ use name, instruction.use? pool = some (use, name) → names name)
    (h : frame.AgreeOn names frame') :
    (instruction.perform pool frame).AgreeOn names (instruction.perform pool frame') := by
  obtain ⟨stack, a⟩ := frame
  obtain ⟨stack', b⟩ := frame'
  obtain ⟨hstack, hmemory⟩ := h
  obtain rfl : stack = stack' := hstack
  replace hmemory : a.AgreeOn names b := hmemory
  have huse {use : Use} (hopcode : instruction.opcode.use? = some use) {name : Text}
      (hnamed : instruction.name? pool = some name) : names name := by
    refine hname use name ?_
    rw [use?, hopcode, Option.bind_some, hnamed, Option.map_some]
  unfold perform
  cases hop : instruction.opcode <;> rw [hop] at huse
  case ret => exact .stuck
  case constant => exact withContent_agree instruction fun c => push_agree hmemory stack c
  case pushNil => exact push_agree hmemory stack _
  case pushTrue => exact push_agree hmemory stack _
  case pushFalse => exact push_agree hmemory stack _
  case negate => exact unary_agree hmemory stack _ _
  case not => exact unary_agree hmemory stack _ _
  case add => exact binary_agree hmemory stack _ _
  case subtract => exact binary_agree hmemory stack _ _
  case multiply => exact binary_agree hmemory stack _ _
  case divide => exact binary_agree hmemory stack _ _
  case equal => exact binary_agree hmemory stack _ _
  case greater => exact binary_agree hmemory stack _ _
  case less => exact binary_agree hmemory stack _ _
  case print => exact withTop_agree stack fun c rest => .next ⟨rfl, hmemory.print c⟩
  case pop => exact withTop_agree stack fun _ rest => .next ⟨rfl, hmemory⟩
  case defineGlobal =>
    exact withName_agree instruction fun name _ =>
      withTop_agree stack fun c rest => .next ⟨rfl, hmemory.define name c⟩
  case getGlobal =>
    exact withName_agree instruction fun name hnamed =>
      withVariable_agree hmemory (huse rfl hnamed) stack _ fun c => push_agree hmemory stack c
  case setGlobal =>
    exact withName_agree instruction fun name hnamed =>
      withVariable_agree hmemory (huse rfl hnamed) stack _ fun _ =>
        withTop_agree stack fun c rest => .next ⟨rfl, hmemory.define name c⟩

end

/-! ## traces show contents -/

section

variable {heap heap' : Heap} {pool : List Content} {values values' : List Value}
  {contents : List Content}

theorem Heap.displays_of_views (h : values.map heap.view? = contents.map some) :
    values.map (·.display heap) = contents.map fun c => .ok c.display := by
  induction values generalizing contents with
  | nil =>
    obtain rfl := List.map_eq_nil_iff.1 h.symm
    rfl
  | cons value values ih =>
    cases contents with
    | nil => cases h
    | cons c contents =>
      rw [List.map_cons, List.map_cons, List.cons.injEq] at h
      rw [List.map_cons, List.map_cons, (Heap.shows_iff.2 h.1).display, ih h.2]

/-- How a stack is shown depends on the contents on it alone. -/
theorem Value.displayStack_congr (h : values.map heap.view? = contents.map some)
    (h' : values'.map heap'.view? = contents.map some) :
    displayStack heap values = displayStack heap' values' := by
  have hdisplays : values.map (·.display heap) = values'.map (·.display heap') :=
    (Heap.displays_of_views h).trans (Heap.displays_of_views h').symm
  have hfold (heap : Heap) (values : List Value) : displayStack heap values =
      (values.map (·.display heap)).reverse.foldlM (fun shown displayed => do
        let content ← displayed
        pure (shown ++ text "[ " ++ content ++ text " ]")) [] := by
    rw [displayStack, ← List.map_reverse, List.foldlM_map]
  rw [hfold, hfold, hdisplays]

/-- How a constant is shown depends on the content of the pool alone. -/
theorem Chunk.displayConstant_congr {chunk chunk' : Chunk}
    (h : chunk.constants.toList.map heap.view? = pool.map some)
    (h' : chunk'.constants.toList.map heap'.view? = pool.map some) (index : Option Int) :
    chunk.displayConstant heap index = chunk'.displayConstant heap' index := by
  have hentry {chunk : Chunk} {heap : Heap}
      (h : chunk.constants.toList.map heap.view? = pool.map some) (entry : Nat) :
      chunk.displayConstant heap (some entry) =
        (pool[entry]?).elim (.ok (text "<undef>")) fun c => .ok c.display := by
    have hdisplay := congrArg (·[entry]?) (Heap.displays_of_views h)
    simp only [List.getElem?_map, Array.getElem?_toList] at hdisplay
    have hconstant : chunk.constant? (some (entry : Int)) = chunk.constants[entry]? := rfl
    rw [displayConstant, hconstant]
    cases hvalue : chunk.constants[entry]? with
    | none =>
      rw [hvalue] at hdisplay
      rw [Option.map_eq_none_iff.1 hdisplay.symm]
      rfl
    | some value =>
      rw [hvalue, Option.map_some] at hdisplay
      obtain ⟨c, hc, hshown⟩ := Option.map_eq_some_iff.1 hdisplay.symm
      rw [hc]
      exact hshown.symm
  obtain _ | (entry | _) := index
  · rfl
  · exact (hentry h entry).trans (hentry h' entry).symm
  · rfl

/-- How an instruction is shown depends on the code and on the content of the
pool alone. -/
theorem Chunk.listInstruction_congr {chunk chunk' : Chunk} (hcode : chunk.code = chunk'.code)
    (h : chunk.constants.toList.map heap.view? = pool.map some)
    (h' : chunk'.constants.toList.map heap'.view? = pool.map some) (offset : Int) :
    chunk.listInstruction heap offset = chunk'.listInstruction heap' offset := by
  have hconstant := displayConstant_congr h h'
  obtain ⟨code, constants⟩ := chunk
  obtain ⟨code', constants'⟩ := chunk'
  obtain rfl : code = code' := hcode
  simp only [listInstruction, hconstant]
  rfl

end

/-! ## machines side by side -/

namespace Machine

open Move

/-- Two machines at the same place, with the same output, that show frames
which agree on some names. -/
structure Twins (names : Text → Prop) (chunk chunk' : Chunk) (pool : List Content)
    (m m' : Machine) (frame frame' : Frame) : Prop where
  code : chunk.code = chunk'.code
  left : m.Shows chunk pool frame
  right : m'.Shows chunk' pool frame'
  agree : frame.AgreeOn names frame'
  offset : m.offset = m'.offset
  written : m.written = m'.written

variable {names : Text → Prop} {chunk chunk' : Chunk} {pool : List Content} {m m' : Machine}
  {frame frame' : Frame} {memory memory' : Memory} {instruction : Instruction}
  {code : List Instruction}

theorem Recalls.storeAgreeOn (h : m.Recalls chunk pool memory)
    (h' : m'.Recalls chunk' pool memory') (hagree : memory.AgreeOn names memory') :
    m.store.AgreeOn names m'.store := by
  intro name hname
  rw [h.globals, h'.globals, hagree.environment name hname]

/-- Output that grew by printed texts to the same printed texts is the same. -/
theorem written_eq_of_printed {before events events' : List Event}
    (h : ∀ event ∈ events, event.stream = .printed)
    (h' : ∀ event ∈ events', event.stream = .printed)
    (htexts : printedTexts (before ++ events) = printedTexts (before ++ events')) :
    before ++ events = before ++ events' := by
  rw [printedTexts_append, printedTexts_append] at htexts
  rw [← map_printedTexts h, ← map_printedTexts h', List.append_cancel_left htexts]

namespace Twins

variable {names : Text → Prop} {chunk chunk' : Chunk} {pool : List Content} {m m' : Machine}
  {frame frame' : Frame} {memory memory' : Memory} {instruction : Instruction}
  {code : List Instruction}

theorem goesOn (h : Twins names chunk chunk' pool m m' frame frame')
    (hcode : chunk.GoesOn m.offset code) : chunk'.GoesOn m'.offset code := by
  rw [Chunk.GoesOn, ← h.code, ← h.offset]
  exact hcode

/-- Both machines write the same trace. -/
theorem trace (h : Twins names chunk chunk' pool m m' frame frame') :
    ∃ events, Move.trace chunk m = .ok () { m with written := m.written ++ events } ∧
      Move.trace chunk' m' = .ok () { m' with written := m'.written ++ events } ∧
      Twins names chunk chunk' pool { m with written := m.written ++ events }
        { m' with written := m'.written ++ events } frame frame' := by
  obtain ⟨shown, hshown⟩ := Heap.Live.displayStack h.left.live_stack
  obtain ⟨next, line, hlisted⟩ := Chunk.listInstruction_of_live h.left.live_constants m.offset
  have hstack : m'.stack.map m'.store.heap.view? = frame.stack.map some := by
    rw [h.agree.stack]
    exact h.right.stack
  have hshown' : Value.displayStack m'.store.heap m'.stack = .ok shown := by
    rw [← Value.displayStack_congr h.left.stack hstack, hshown]
  have hlisted' : chunk'.listInstruction m'.store.heap m'.offset = .ok (next, line) := by
    rw [← h.offset, ← Chunk.listInstruction_congr h.code h.left.recalls.constants
      h.right.recalls.constants, hlisted]
  refine ⟨_, trace_of_shown hshown hlisted, trace_of_shown hshown' hlisted', h.code, ?_, ?_,
    h.agree, h.offset, congrArg (· ++ _) h.written⟩
  · exact ⟨h.left.recalls.write_traced (by simp), h.left.stack, h.left.room⟩
  · exact ⟨h.right.recalls.write_traced (by simp), h.right.stack, h.right.room⟩

/-- Traced or not, both machines are about to take their steps side by side. -/
theorem tracedStep (h : Twins names chunk chunk' pool m m' frame frame') (tracing : Bool) :
    ∃ n n', Move.tracedStep chunk tracing m = step chunk n ∧
      Move.tracedStep chunk' tracing m' = step chunk' n' ∧ n.offset = m.offset ∧
      Twins names chunk chunk' pool n n' frame frame' := by
  cases tracing with
  | false => exact ⟨m, m', rfl, rfl, rfl, h⟩
  | true =>
    obtain ⟨events, htrace, htrace', htwins⟩ := h.trace
    exact ⟨_, _, bind_ok htrace, bind_ok htrace', rfl, htwins⟩

/-- After a step both machines have written the same, if they have printed the
same. -/
theorem written_step (h : Twins names chunk chunk' pool m m' frame frame')
    (hprinted : printedTexts (Move.left (step chunk m)).written =
      printedTexts (Move.left (step chunk' m')).written) :
    (Move.left (step chunk m)).written = (Move.left (step chunk' m')).written := by
  obtain ⟨events, hwritten, hevents⟩ := Move.written_step chunk m
  obtain ⟨events', hwritten', hevents'⟩ := Move.written_step chunk' m'
  rw [hwritten, hwritten', ← h.written] at hprinted ⊢
  exact written_eq_of_printed hevents hevents' hprinted

end Twins

/-- Two runs end with the same status and the same output, on stores that
agree. -/
structure EndTogether (names : Text → Prop) (result result' : Stop × Machine) : Prop where
  status : Status.ofStop result.1 = .ofStop result'.1
  written : result.2.written = result'.2.written
  store : result.2.store.AgreeOn names result'.2.store

/-- Machines side by side run through their code side by side. -/
theorem Twins.ends_together {line : Nat} (h : Twins names chunk chunk' pool m m' frame frame')
    (hcode : chunk.GoesOn m.offset (code ++ [⟨.ret, [], line⟩]))
    (hpool : pool.length ≤ poolCapacity) (hstuck : frame.run pool code ≠ .stuck)
    (hnames : ∀ instruction ∈ code, ∀ use name,
      instruction.use? pool = some (use, name) → names name)
    (tracing : Bool) : EndTogether names (m.run chunk tracing) (m'.run chunk' tracing) := by
  -- on the code ahead: after each instruction the machines are twins again
  induction code generalizing m m' frame frame' with
  | nil =>
    have hcode' := h.goesOn hcode
    obtain ⟨n, n', hstep, hstep', hoffset, htwins⟩ := h.tracedStep tracing
    have hgoes : chunk.GoesOn n.offset [⟨.ret, [], line⟩] := by rwa [hoffset]
    rw [step_of_goesOn hgoes] at hstep
    rw [step_of_goesOn (htwins.goesOn hgoes)] at hstep'
    rw [run_error hcode.lt_length hstep, run_error hcode'.lt_length hstep']
    have hstore := htwins.left.recalls.storeAgreeOn htwins.right.recalls htwins.agree.memory
    exact ⟨rfl, htwins.written, hstore⟩
  | cons instruction code ih =>
    have hcode' := h.goesOn hcode
    obtain ⟨n, n', hstep, hstep', hoffset, htwins⟩ := h.tracedStep tracing
    have hgoes : chunk.GoesOn n.offset (instruction :: (code ++ [⟨.ret, [], line⟩])) := by
      rwa [hoffset]
    have hfollows := step_follows hgoes hpool htwins.left
    have hfollows' := step_follows (htwins.goesOn hgoes) hpool htwins.right
    have hwritten := htwins.written_step
    have hagree := Instruction.perform_agree (hnames instruction (.head _)) htwins.agree
    rw [Frame.run] at hstuck
    generalize instruction.perform pool frame = progress at hagree hfollows hstuck
    generalize instruction.perform pool frame' = progress' at hagree hfollows'
    cases hagree with
    | stuck => exact absurd rfl hstuck
    | @failed error memory memory' hmemory =>
      obtain ⟨last, herror, hrecalls⟩ := hfollows
      obtain ⟨last', herror', hrecalls'⟩ := hfollows'
      rw [herror, herror'] at hwritten
      rw [run_error hcode.lt_length (hstep.trans herror),
        run_error hcode'.lt_length (hstep'.trans herror')]
      refine ⟨rfl, hwritten ?_, hrecalls.storeAgreeOn hrecalls' hmemory⟩
      exact hrecalls.printed.trans (hmemory.printed.trans hrecalls'.printed.symm)
    | @next next next' hframe =>
      obtain ⟨last, hok, hlast, hshows⟩ := hfollows
      obtain ⟨last', hok', hlast', hshows'⟩ := hfollows'
      rw [hok, hok'] at hwritten
      rw [run_ok hcode.lt_length (hstep.trans hok), run_ok hcode'.lt_length (hstep'.trans hok')]
      have hprinted : printedTexts last.written = printedTexts last'.written :=
        hshows.recalls.printed.trans
          (hframe.memory.printed.trans hshows'.recalls.printed.symm)
      have hgoes' : chunk.GoesOn last.offset (code ++ [⟨.ret, [], line⟩]) := by
        rw [hlast]
        exact hgoes.tail
      have hoffset' : last.offset = last'.offset := by rw [hlast, hlast', htwins.offset]
      exact ih ⟨h.code, hshows, hshows', hframe, hoffset', hwritten hprinted⟩ hgoes' hstuck
        fun i hi => hnames i (.tail _ hi)

end Machine

/-! ## runs of sources -/

/-- A name stands in a source, as one of its identifiers. -/
def Mentions (source : Text) (name : Text) : Prop :=
  ∃ token, Outcome.token token ∈ scan source ∧ token.kind = .identifier ∧ token.lexeme = name

/-- Whether a source is accepted, and as what, does not depend on the heap. -/
theorem Program.compile_eq (source : Text) (heap : Heap) :
    Program.compile source heap =
      let placed := Constant.placeAll heap (Program.parse source).constants
      ((Program.parse source).result.map fun program =>
        Chunk.ofCode program.code placed.1, placed.2) := rfl

theorem Chunk.code_ofCode_congr (code : List Instruction) (constants constants' : List Value) :
    (ofCode code constants).code = (ofCode code constants').code := by
  rw [← Array.toList_inj, (code_ofCode code constants).1, (code_ofCode code constants').1]

section

variable {source : Text} {a b : Store} {chunk chunk' : Chunk} {heap heap' : Heap}

/-- The runs of an accepted source, on stores that agree on its names. -/
theorem ends_together_of_compile (ha : a.Sound) (hb : b.Sound)
    (hcompile : Program.compile source a.heap = (.ok chunk, heap))
    (hcompile' : Program.compile source b.heap = (.ok chunk', heap'))
    (hcode : chunk.code = chunk'.code)
    (hagree : Store.AgreeOn (Mentions source) ⟨heap, a.globals⟩ ⟨heap', b.globals⟩)
    (tracing : Bool) :
    Machine.EndTogether (Mentions source)
      ((Machine.start ⟨heap, a.globals⟩).run chunk tracing)
      ((Machine.start ⟨heap', b.globals⟩).run chunk' tracing) := by
  have hplaced := Constant.extends_of_compile ha source
  have hplaced' := Constant.extends_of_compile hb source
  rw [hcompile] at hplaced
  rw [hcompile'] at hplaced'
  have hstored := ha.setHeap hplaced.1 hplaced.2
  have hstored' := hb.setHeap hplaced'.1 hplaced'.2
  obtain ⟨tokens, program, hscan, hparse, hderives, hready, hrun⟩ :=
    Program.ready_of_compile ha.built hcompile hstored.live
  obtain ⟨_, program', -, hparse', -, hready', -⟩ :=
    Program.ready_of_compile hb.built hcompile' hstored'.live
  obtain rfl : program' = program := Except.ok.inj (hparse'.symm.trans hparse)
  have hstuck : Frame.run (program'.constants.map Constant.content)
      (Stmt.codeAll 0 program'.statements) ⟨[], ⟨Store.environment ⟨heap, a.globals⟩, []⟩⟩ ≠
        .stuck := by
    rw [hrun]
    exact Progress.ofUnit_ne_stuck _
  have hnames : ∀ instruction ∈ Stmt.codeAll 0 program'.statements, ∀ use name,
      instruction.use? (program'.constants.map Constant.content) = some (use, name) →
        Mentions source name := by
    intro instruction hinstruction use name huse
    have hmem := List.mem_filterMap.2 ⟨instruction, hinstruction, huse⟩
    rw [program'.filterMap_use?_code] at hmem
    obtain ⟨token, htoken, hname⟩ := hderives.names_of_uses hmem
    exact ⟨token, hscan ▸ List.mem_map_of_mem htoken, hname⟩
  have henvironment := (hstored.agreeOn_iff hstored').1 hagree
  exact Machine.Twins.ends_together
    ⟨hcode, hready.shows, hready'.shows, ⟨rfl, henvironment, rfl⟩, rfl, rfl⟩
    hready.code hready.room hstuck hnames tracing

end

/-- A run depends on the contents of the variables that its source mentions,
and on nothing else.  From stores that agree on these it ends with the same
status, diagnostics and errors included, writes the same texts in the same
order, and leaves stores that agree on them again. -/
theorem runProgram_depends_on_mentions {a b : Store} (ha : a.Sound) (hb : b.Sound)
    (source : Text) (hagree : a.AgreeOn (Mentions source) b) (tracing : Bool) :
    (runProgram tracing source a).status = (runProgram tracing source b).status ∧
      (runProgram tracing source a).events = (runProgram tracing source b).events ∧
      (runProgram tracing source a).store.AgreeOn (Mentions source)
        (runProgram tracing source b).store := by
  obtain ⟨hextends, hbuilt⟩ := Constant.extends_of_compile ha source
  obtain ⟨hextends', hbuilt'⟩ := Constant.extends_of_compile hb source
  have hplaced := hagree.setHeap ha hb hextends hbuilt hextends' hbuilt'
  have hcompile := Program.compile_eq source a.heap
  have hcompile' := Program.compile_eq source b.heap
  cases hparse : (Program.parse source).result with
  | error diagnostics =>
    rw [hparse] at hcompile hcompile'
    rw [hcompile, hcompile'] at hplaced
    rw [runProgram_of_error hcompile, runProgram_of_error hcompile']
    exact ⟨rfl, rfl, hplaced⟩
  | ok program =>
    rw [hparse] at hcompile hcompile'
    have hcode := Chunk.code_ofCode_congr program.code
      (Constant.placeAll a.heap (Program.parse source).constants).1
      (Constant.placeAll b.heap (Program.parse source).constants).1
    rw [hcompile, hcompile'] at hplaced
    have hends := ends_together_of_compile ha hb hcompile hcompile' hcode hplaced tracing
    rw [runProgram_of_ok hcompile, runProgram_of_ok hcompile']
    exact ⟨hends.status, hends.written, hends.store⟩

/-- A variable is printed, on two stores that hold its string under different
handles and one of which has another variable besides. -/
theorem runProgram_prints_global :
    let a : Store := ⟨(Heap.empty.allocate [unit 'v']).2, ⟨[([unit 'x'], .string ⟨0, 0⟩)]⟩⟩
    let b : Store := ⟨((Heap.empty.allocate [unit 'w']).2.allocate [unit 'v']).2,
      ⟨[([unit 'y'], .string ⟨0, 0⟩), ([unit 'x'], .string ⟨1, 0⟩)]⟩⟩
    (runProgram true (text "print x;") a).status = (runProgram true (text "print x;") b).status ∧
      (runProgram true (text "print x;") a).events =
        (runProgram true (text "print x;") b).events := by
  intro a b
  have hsource : text "print x;" =
      Keyword.printWord.spelling ++ [unit ' ', unit 'x', unit ';'] := by decide
  have hspells : Spells [⟨.keyword .printWord, Keyword.printWord.spelling⟩,
      ⟨.identifier, [unit 'x']⟩, ⟨.semicolon, [unit ';']⟩] (text "print x;") := by
    have hname : Word.Formed ⟨.identifier, [unit 'x']⟩ :=
      .name rfl (List.forall_mem_nil _) fun k => by cases k <;> decide
    have hblank : Gap [unit ' '] := .blank rfl .nil
    have hends {word : Word} {u : CodeUnit} {rest : Text} (h : u = unit ' ' ∨ u = unit ';') :
        word.Ends (u :: rest) := by
      rcases h with rfl | rfl <;> exact Word.ends_of_cons rfl (by decide) (by decide) (by decide)
    rw [hsource]
    refine .word .nil (.keyword _) (hends (.inl rfl)) ?_
    refine .word hblank hname (hends (.inr rfl)) ?_
    exact .word .nil (.symbol rfl) trivial (.gap .nil)
  have hmentions : ∀ name, Mentions (text "print x;") name → name = [unit 'x'] := by
    rintro name ⟨token, htoken, hkind, rfl⟩
    obtain ⟨tokens, hscan, hwords⟩ := hspells.scan
    rw [hscan] at htoken
    obtain ⟨_, hmem, hsame⟩ := List.mem_map.1 htoken
    obtain rfl := Outcome.token.inj hsame
    have hword := List.mem_map_of_mem (f := Token.word) hmem
    rw [hwords] at hword
    simpa [Token.word, hkind, Word.endOfInput] using hword
  have hagree : a.AgreeOn (Mentions (text "print x;")) b := by
    intro name hname
    rw [hmentions name hname]
    rfl
  have ha : a.Sound := by
    refine ⟨.allocate .empty _, fun name value hvalue => ?_⟩
    simp only [a, Globals.get?, List.lookup_cons] at hvalue
    split at hvalue
    · cases hvalue
      exact ⟨.text [unit 'v'], rfl⟩
    · cases hvalue
  have hb : b.Sound := by
    refine ⟨.allocate (.allocate .empty _) _, fun name value hvalue => ?_⟩
    simp only [b, Globals.get?, List.lookup_cons] at hvalue
    split at hvalue
    · cases hvalue
      exact ⟨.text [unit 'w'], rfl⟩
    · split at hvalue
      · cases hvalue
        exact ⟨.text [unit 'v'], rfl⟩
      · cases hvalue
  obtain ⟨hstatus, hevents, -⟩ :=
    runProgram_depends_on_mentions ha hb (text "print x;") hagree true
  exact ⟨hstatus, hevents⟩

end Lox
