import Lox.Proofs.Refinement
import Lox.Proofs.Relocation

/-!
# Lox.Proofs.Sequence

Running two sources as one.

Joined by a line separator, two accepted sources that fit into one pool are the
program that has the statements of the one and then, further down, those of the
other (`Program.parse_join`).  Running it is running the sources in turn on one
store (`runProgram_join`).
-/

namespace Lox

/-! ## pooled tokens of sources -/

/-- Is this a token that takes an entry of the constant pool? -/
def Outcome.isPooled : Outcome → Bool
  | token found => found.kind.isPooled
  | fault _ => false

/-- How many number, string and identifier tokens a source has. -/
def pooledOutcomes (source : Text) : Nat := (scan source).countP Outcome.isPooled

section

variable {source first second : Text} {program a b : Program} {tokens : List Token}

theorem pooledOutcomes_of_scan (h : scan source = tokens.map .token) :
    pooledOutcomes source = pooledTokens tokens := by
  rw [pooledOutcomes, h, List.countP_map]
  rfl

/-- The pooled tokens of a source are the constants of its program. -/
theorem pooledOutcomes_of_parse (h : (Program.parse source).result = .ok program) :
    pooledOutcomes source = program.constants.length := by
  obtain ⟨tokens, hscan, hderives, -, -⟩ := Program.derives_of_parse h
  rw [pooledOutcomes_of_scan hscan, hderives.pooledTokens]

/-! ## joined sources -/

/-- The program of two joined sources. -/
def Program.join (lines : Nat) (a b : Program) : Program :=
  ⟨a.statements ++ b.statements.map (Stmt.moved lines), b.endLine + lines⟩

theorem Program.length_constants_join (lines : Nat) (a b : Program) :
    (a.join lines b).constants.length = a.constants.length + b.constants.length := by
  have hmoved : (b.statements.map (Stmt.moved lines)).flatMap Stmt.constants =
      b.statements.flatMap Stmt.constants := by
    rw [List.flatMap_map, funext (Stmt.constants_moved lines)]
  rw [constants, join, List.flatMap_append, hmoved, List.length_append]
  rfl

/-- Two sources without faults are scanned one after the other. -/
theorem scan_join {tokens more : List Token} {last final : Token}
    (hfirst : scan first = (tokens ++ [last]).map .token)
    (hsecond : scan second = (more ++ [final]).map .token) :
    scan (first ++ newline :: second) =
      (tokens ++ more.map (Token.moved (Text.newlines first + 1)) ++
        [final.moved (Text.newlines first + 1)]).map Outcome.token := by
  have hopen : ∀ outcome ∈ scan first, outcome.isOpenString = false := by
    rw [hfirst]
    intro outcome houtcome
    obtain ⟨token, -, rfl⟩ := List.mem_map.1 houtcome
    rfl
  rw [scan_append second hopen, hfirst, hsecond, List.append_assoc, List.map_append,
    List.map_singleton, List.dropLast_concat]
  simp only [List.map_append, List.map_map, List.map_singleton]
  rfl

/-- Two accepted sources that fit into one pool are accepted when joined. -/
theorem Program.parse_join (ha : (Program.parse first).result = .ok a)
    (hb : (Program.parse second).result = .ok b)
    (hroom : pooledOutcomes first + pooledOutcomes second ≤ poolCapacity) :
    (Program.parse (first ++ newline :: second)).result =
      .ok (a.join (Text.newlines first + 1) b) := by
  rw [pooledOutcomes_of_parse ha, pooledOutcomes_of_parse hb] at hroom
  obtain ⟨_, hscan, ⟨body, last, rfl, hlast, hbody, hend⟩, hdepth, -⟩ :=
    Program.derives_of_parse ha
  obtain ⟨_, hscan', ⟨body', last', rfl, hlast', hbody', hend'⟩, hdepth', -⟩ :=
    Program.derives_of_parse hb
  have hjoined := scan_join hscan hscan'
  have hderives : (a.join (Text.newlines first + 1) b).Derives
      (body ++ body'.map (Token.moved (Text.newlines first + 1)) ++
        [last'.moved (Text.newlines first + 1)]) :=
    ⟨_, _, rfl, hlast', hbody.append (hbody'.moved _), congrArg (· + _) hend'⟩
  have hshallow : ∀ statement ∈ (a.join (Text.newlines first + 1) b).statements,
      statement.Shallow := by
    intro statement hstatement
    rcases List.mem_append.1 hstatement with hleft | hright
    · exact hdepth statement hleft
    · obtain ⟨original, horiginal, rfl⟩ := List.mem_map.1 hright
      exact (hdepth' original horiginal).moved _
  rw [Program.parse_of_derives hjoined hderives hshallow
    (by rw [Program.length_constants_join]; exact hroom)]

/-- The program of two joined sources does what the one and then the other
does. -/
theorem Program.exec_join (lines : Nat) (a b : Program) :
    (a.join lines b).exec = a.exec >>= fun _ => b.exec.moved lines := by
  rw [exec, join, Stmt.execAll_append, Stmt.execAll_moved]
  rfl

/-! ## runs -/

/-- An error status, some lines further down. -/
def Status.moved (lines : Nat) : Status → Status
  | failed error => failed (error.moved lines)
  | status => status

/-- Run a source and then, if that finishes, another one on the store that it
leaves.  The lines of the second source are counted on from the first one. -/
def runInTurn (tracing : Bool) (first second : Text) (store : Store) : Run :=
  let run := runProgram tracing first store
  match run.status with
  | .finished =>
    let next := runProgram tracing second run.store
    ⟨next.status.moved (Text.newlines first + 1), run.events ++ next.events, next.store⟩
  | _ => run

variable {store : Store}

theorem runProgram_agrees_of_parse (hstore : store.Sound)
    (h : (Program.parse source).result = .ok program) (tracing : Bool) :
    (runProgram tracing source store).Agrees (program.exec ⟨store.environment, []⟩) ∧
      (runProgram tracing source store).store.Sound := by
  obtain ⟨chunk, hchunk⟩ := (Parsed.exists_compile_iff (Program.parse source) Program.code
    store.heap).2 ⟨program, h⟩
  obtain ⟨_, found, -, hparse, -, hagrees, hsound⟩ :=
    runProgram_agrees hstore (Prod.ext hchunk rfl) tracing
  rw [h] at hparse
  obtain rfl := Except.ok.inj hparse
  exact ⟨hagrees, hsound⟩

theorem runInTurn_of_finished {tracing : Bool}
    (h : (runProgram tracing first store).status = .finished) :
    runInTurn tracing first second store =
      let run := runProgram tracing first store
      let next := runProgram tracing second run.store
      ⟨next.status.moved (Text.newlines first + 1), run.events ++ next.events, next.store⟩ := by
  simp only [runInTurn, h]

theorem runInTurn_of_failed {tracing : Bool} {error : RuntimeError}
    (h : (runProgram tracing first store).status = .failed error) :
    runInTurn tracing first second store = runProgram tracing first store := by
  simp only [runInTurn, h]

/-- A run that comes after other output, and further down. -/
theorem Run.Agrees.after {run : Run} {result : EStateM.Result RuntimeError Memory Unit}
    (h : run.Agrees result) (before : List Event) (lines : Nat) :
    Run.Agrees ⟨run.status.moved lines, before ++ run.events, run.store⟩
      (Evaluation.below lines (Evaluation.printing (printedTexts before) result)) := by
  cases result with
  | ok value memory =>
    exact ⟨congrArg (Status.moved lines) h.1,
      (printedTexts_append before run.events).trans (congrArg (_ ++ ·) h.2.1), h.2.2⟩
  | error error memory =>
    exact ⟨congrArg (Status.moved lines) h.1,
      (printedTexts_append before run.events).trans (congrArg (_ ++ ·) h.2.1), h.2.2⟩

/-- Sources that are run in turn do what their programs do one after the
other. -/
theorem runInTurn_agrees (hstore : store.Sound) (ha : (Program.parse first).result = .ok a)
    (hb : (Program.parse second).result = .ok b) (tracing : Bool) :
    (runInTurn tracing first second store).Agrees
        ((a.join (Text.newlines first + 1) b).exec ⟨store.environment, []⟩) ∧
      (runInTurn tracing first second store).store.Sound := by
  obtain ⟨hagrees, hsound⟩ := runProgram_agrees_of_parse hstore ha tracing
  rw [Program.exec_join]
  cases hexec : a.exec ⟨store.environment, []⟩ with
  | error error memory =>
    rw [hexec] at hagrees
    rw [bind_error hexec, runInTurn_of_failed hagrees.1]
    exact ⟨hagrees, hsound⟩
  | ok value memory =>
    rw [hexec] at hagrees
    obtain ⟨hstatus, hprinted, henvironment⟩ := hagrees
    obtain ⟨hagrees', hsound'⟩ := runProgram_agrees_of_parse hsound hb tracing
    rw [bind_ok hexec, runInTurn_of_finished hstatus]
    refine ⟨?_, hsound'⟩
    -- the second program does the same after what the first one printed
    have hmemory : Memory.after memory.printed
        ⟨(runProgram tracing first store).store.environment, []⟩ = memory := by
      rw [henvironment, Memory.after, List.append_nil]
    have hsame := b.oblivious_exec memory.printed
      ⟨(runProgram tracing first store).store.environment, []⟩
    rw [hmemory] at hsame
    rw [Evaluation.moved, hsame, ← hprinted]
    exact hagrees'.after _ _

/-- Runs that agree with one evaluation end alike. -/
theorem Run.Agrees.alike {run run' : Run} {result : EStateM.Result RuntimeError Memory Unit}
    (h : run.Agrees result) (h' : run'.Agrees result) :
    run.status = run'.status ∧ printedTexts run.events = printedTexts run'.events ∧
      run.store.environment = run'.store.environment := by
  cases result with
  | ok value memory =>
    exact ⟨h.1.trans h'.1.symm, h.2.1.trans h'.2.1.symm, h.2.2.trans h'.2.2.symm⟩
  | error error memory =>
    exact ⟨h.1.trans h'.1.symm, h.2.1.trans h'.2.1.symm, h.2.2.trans h'.2.2.symm⟩

/-- A script is its lines run one by one.  Two sources that compile on their own
and together have no more than 256 pooled tokens end, when joined by a line
separator, as they do when run in turn on one store: with the same status,
where an error of the second source is as many lines further down as the first
one and the separator take, the same printed texts, and the same contents of
all variables. -/
theorem runProgram_join {heap heap' : Heap} (hstore : store.Reachable)
    (hfirst : ∃ chunk, (Program.compile first heap).1 = .ok chunk)
    (hsecond : ∃ chunk, (Program.compile second heap').1 = .ok chunk)
    (hroom : pooledOutcomes first + pooledOutcomes second ≤ 256) (tracing : Bool) :
    let whole := runProgram tracing (first ++ newline :: second) store
    let turns := runInTurn tracing first second store
    whole.status = turns.status ∧ printedTexts whole.events = printedTexts turns.events ∧
      whole.store.AgreeOn (fun _ => True) turns.store := by
  intro whole turns
  obtain ⟨a, ha⟩ := (Parsed.exists_compile_iff _ _ _).1 hfirst
  obtain ⟨b, hb⟩ := (Parsed.exists_compile_iff _ _ _).1 hsecond
  obtain ⟨hwhole, hsound⟩ := runProgram_agrees_of_parse hstore.sound
    (Program.parse_join ha hb hroom) tracing
  obtain ⟨hturns, hsound'⟩ := runInTurn_agrees hstore.sound ha hb tracing
  obtain ⟨hstatus, hprinted, henvironment⟩ := hwhole.alike hturns
  exact ⟨hstatus, hprinted, (hsound.agreeOn_iff hsound').2 fun name _ =>
    congrFun henvironment name⟩

end

/-- Two programs that print strings put together, on a line each. -/
theorem runProgram_join_concatenations :
    printedTexts (runProgram true
      (text "print\"a\"+\"b\";" ++ newline :: text "print\"a\"+\"b\";") .empty).events =
        [[unit 'a', unit 'b', newline], [unit 'a', unit 'b', newline]] := by
  obtain ⟨program, hparse, l₁, l₂, l₃, l₄, rfl⟩ := Program.parse_concatenation
  have hresult := congrArg Parsed.result hparse
  have haccepted : ∃ chunk,
      (Program.compile (text "print\"a\"+\"b\";") Heap.empty).1 = .ok chunk :=
    (Parsed.exists_compile_iff _ _ _).2 ⟨_, hresult⟩
  have hroom : pooledOutcomes (text "print\"a\"+\"b\";") = 2 := pooledOutcomes_of_parse hresult
  obtain ⟨-, hprinted, -⟩ := runProgram_join .empty haccepted haccepted
    (by rw [hroom]; decide) true
  obtain ⟨hfirst, hsound⟩ := runProgram_agrees_of_parse Store.Reachable.empty.sound hresult true
  obtain ⟨hsecond, -⟩ := runProgram_agrees_of_parse hsound hresult true
  rw [hprinted, runInTurn_of_finished hfirst.1, printedTexts_append, hfirst.2.1, hsecond.2.1]
  rfl

end Lox
