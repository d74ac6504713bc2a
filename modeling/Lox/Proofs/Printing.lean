import Lox.Proofs.Safety
import Lox.Proofs.Sequence

/-!
# Lox.Proofs.Printing

A lone expression, and the program that prints it.

Behind the word `print`, and with a semicolon on the next line, the tokens of a
lone expression are those of a program with one statement
(`Program.parse_printing`).  Running that program is evaluating the expression
and showing its value (`runProgram_prints_query`).
-/

namespace Lox

/-- The program that prints the value of a source.  Its semicolon is on a line
of its own, since the source may end in a comment. -/
def Text.printing (source : Text) : Text := text "print " ++ source ++ text "\n;"

variable {source : Text}

/-! ## tokens -/

/-- A blank before a token is passed as any gap. -/
theorem Cursor.next_blank (rest : Text) (offset line : Nat) :
    Cursor.next ⟨unit ' ' :: rest, offset, line⟩ = Cursor.next ⟨rest, offset + 1, line⟩ := by
  have hgap : splitGap false (unit ' ' :: rest) =
      (unit ' ' :: (splitGap false rest).1, (splitGap false rest).2) := rfl
  have hnewlines : Text.newlines (unit ' ' :: (splitGap false rest).1) =
      Text.newlines (splitGap false rest).1 := rfl
  rw [next_eq, next_eq ⟨rest, offset + 1, line⟩, hgap, hnewlines, List.length_cons,
    Nat.add_assoc, Nat.add_comm 1]

/-- The word `print` and a blank are one token, and six units. -/
theorem scan_print (source : Text) :
    scan (text "print " ++ source) =
      .token ⟨.keyword .printWord, Keyword.printWord.spelling, 1⟩ ::
        (scan source).map (Outcome.moved 6 0) := by
  have htext : text "print " ++ source = [unit 'p', unit 'r', unit 'i', unit 'n', unit 't'] ++
      unit ' ' :: source := by
    have hprint : text "print " = [unit 'p', unit 'r', unit 'i', unit 'n', unit 't', unit ' '] := by
      decide
    rw [hprint]
    rfl
  have hnext : (Cursor.start (text "print " ++ source)).next =
      (.token ⟨.keyword .printWord, Keyword.printWord.spelling, 1⟩,
        ⟨unit ' ' :: source, 5, 1⟩) := by
    rw [htext]
    rfl
  have hafter : Cursor.next ⟨unit ' ' :: source, 5, 1⟩ =
      ((Cursor.start source).moved 6 0).next := Cursor.next_blank source 5 1
  have hrun := Cursor.run_cons (congrArg Prod.fst hnext) (by decide)
  rw [hnext, Cursor.run_congr hafter, Cursor.run_moved] at hrun
  exact hrun

theorem scan_semicolon :
    scan (text ";") = [⟨.semicolon, [unit ';'], 1⟩, ⟨.endOfInput, [], 1⟩].map Outcome.token := by
  have htake : (Cursor.start (text ";")).take 2 =
      [.token ⟨.semicolon, [unit ';'], 1⟩] ++ [.token ⟨.endOfInput, [], 1⟩] := by decide
  exact Cursor.run_of_take htake rfl (by decide)

/-- The tokens of an expression stand in those of the program that prints it. -/
theorem scan_printing {body : List Token} {last : Token}
    (hscan : scan source = (body ++ [last]).map .token) :
    ∃ intro semicolon final : Token, scan (Text.printing source) =
        (intro :: body ++ [semicolon] ++ [final]).map .token ∧
      intro.kind = .keyword .printWord ∧ semicolon.kind = .semicolon ∧
      final.kind = .endOfInput := by
  let intro : Token := ⟨.keyword .printWord, Keyword.printWord.spelling, 1⟩
  let semicolon : Token := ⟨.semicolon, [unit ';'], 1⟩
  let final : Token := ⟨.endOfInput, [], 1⟩
  have hfirst : scan (text "print " ++ source) = (intro :: body ++ [last]).map .token := by
    rw [scan_print, hscan, List.map_map]
    rfl
  have hsecond : scan (text ";") = ([semicolon] ++ [final]).map .token := scan_semicolon
  have hjoined := scan_join hfirst hsecond
  have hsource : (text "print " ++ source) ++ newline :: text ";" = Text.printing source := by
    have hend : text "\n;" = newline :: text ";" := by decide
    rw [Text.printing, hend]
  rw [hsource] at hjoined
  exact ⟨_, _, _, hjoined, rfl, rfl, rfl⟩

/-- A lone expression that is accepted is accepted as the value of a print. -/
theorem Program.parse_printing {query : Query} (h : (Query.parse source).result = .ok query) :
    ∃ line endLine, (Program.parse (Text.printing source)).result =
      .ok ⟨[.print query.expression line], endLine⟩ := by
  obtain ⟨_, hscan, ⟨body, last, rfl, -, hbody, -⟩, hdepth, hroom⟩ := Query.derives_of_parse h
  obtain ⟨intro, semicolon, final, hprinting, hintro, hsemicolon, hfinal⟩ := scan_printing hscan
  let statement := Stmt.print query.expression semicolon.line
  have hstatement : statement.Derives (intro :: body ++ [semicolon]) :=
    .print hintro hbody hsemicolon
  have hall : Stmt.DerivesAll (intro :: body ++ [semicolon]) [statement] := by
    have hcons := Stmt.DerivesAll.cons hstatement .nil
    rwa [List.append_nil] at hcons
  have hderives : Program.Derives (intro :: body ++ [semicolon] ++ [final])
      ⟨[statement], final.line⟩ := ⟨_, final, rfl, hfinal, hall, rfl⟩
  have hshallow : ∀ s ∈ [statement], s.Shallow := by
    intro s hs e he
    obtain rfl := List.mem_singleton.1 hs
    obtain rfl := Option.some.inj he
    exact hdepth
  have hconstants : Program.constants ⟨[statement], final.line⟩ = query.expression.constants :=
    List.append_nil _
  have hparse := Program.parse_of_derives hprinting hderives hshallow (by rwa [hconstants])
  exact ⟨_, _, congrArg Parsed.result hparse⟩

/-! ## evaluations that print nothing -/

namespace Evaluation

variable {α β : Type}

/-- The memory that an evaluation leaves, whether it has a value or fails. -/
def left : EStateM.Result RuntimeError Memory α → Memory
  | .ok _ memory => memory
  | .error _ memory => memory

/-- An evaluation that prints nothing. -/
def Silent (evaluation : Evaluation α) : Prop :=
  ∀ memory, (left (evaluation memory)).printed = memory.printed

namespace Silent

variable {evaluation : Evaluation α} {next : α → Evaluation β}

theorem bind (h : evaluation.Silent) (hnext : ∀ value, (next value).Silent) :
    (evaluation >>= next).Silent := by
  intro memory
  have hfirst := h memory
  cases hresult : evaluation memory with
  | ok value memory' =>
    rw [hresult] at hfirst
    rw [bind_ok hresult, hnext value memory']
    exact hfirst
  | error error memory' =>
    rw [hresult] at hfirst
    rw [bind_error hresult]
    exact hfirst

theorem pure (value : α) : Silent (Pure.pure value) := fun _ => rfl

theorem define (name : Text) (content : Content) :
    Silent (modify fun memory => memory.define name content) := fun _ => rfl

theorem lookUp (name : Text) (line : Nat) : Silent (Evaluation.lookUp name line) := by
  intro memory
  unfold Evaluation.lookUp
  split <;> rfl

theorem operate (result : Except OperatorError Content) (line : Nat) :
    Silent (Evaluation.operate result line) := by
  intro memory
  unfold Evaluation.operate
  split <;> rfl

end Silent

end Evaluation

open Evaluation

/-- Only statements print. -/
theorem Expr.silent_eval (e : Expr) : e.eval.Silent := by
  induction e with
  | literal value line => exact .pure _
  | global name line => exact .lookUp name line
  | assign name value ih =>
    exact ih.bind fun _ => (Silent.lookUp _ _).bind fun _ => (Silent.define _ _).bind fun _ =>
      .pure _
  | group inner line ih => exact ih
  | unary op operand ih => exact ih.bind fun _ => .operate _ _
  | binary op left right ihleft ihright =>
    exact ihleft.bind fun _ => ihright.bind fun _ => .operate _ _

/-- A program with one print evaluates its expression, and shows the value if
there is one. -/
theorem Program.exec_print (e : Expr) (line endLine : Nat) (memory : Memory) :
    Program.exec ⟨[.print e line], endLine⟩ memory = match e.eval memory with
      | .ok content memory' => .ok () (memory'.print content)
      | .error error memory' => .error error memory' := by
  show ((e.eval >>= fun content => modify fun memory => memory.print content) >>= fun _ =>
    pure ()) memory = _
  cases heval : e.eval memory with
  | ok content memory' => rw [bind_assoc, bind_ok heval]; rfl
  | error error memory' => rw [bind_assoc, bind_error heval]

/-! ## runs -/

/-- How the run of a lone expression ended, compared with an evaluation. -/
def Machine.Answers (result : Stop × Machine) : EStateM.Result RuntimeError Memory Content → Prop
  | .ok content memory => ∃ value, result.1 = .returned (some value) ∧
      result.2.store.heap.Shows value content ∧
      result.2.store.environment = memory.environment
  | .error error memory => result.1 = .failed error ∧
      result.2.store.environment = memory.environment

variable {store : Store} {heap' : Heap} {chunk : Chunk}

/-- The unit of a lone expression does on a store what its evaluation does, and
the store stays sound. -/
theorem Query.run_answers (hstore : store.Sound)
    (hcompile : Query.compile source store.heap = (.ok chunk, heap')) (tracing : Bool) :
    let result := (Machine.start { store with heap := heap' }).run chunk tracing
    ∃ query, (Query.parse source).result = .ok query ∧
      Machine.Answers result (query.expression.eval ⟨store.environment, []⟩) ∧
      result.2.store.Sound := by
  intro result
  have hplaced : store.heap.Extends (Query.compile source store.heap).2 ∧
      (Query.compile source store.heap).2.Built :=
    (Constant.placeAll_spec hstore.built (Query.parse source).constants).2
  rw [hcompile] at hplaced
  obtain ⟨hextends, hbuilt⟩ := hplaced
  have hlive := (hstore.setHeap hextends hbuilt).live
  obtain ⟨_, query, -, hparse, -, hready, hrun⟩ :=
    Query.ready_of_compile hstore.built hcompile hlive
  rw [hstore.environment_setHeap hextends] at hready
  have hcompletes := hready.completes tracing
  rw [hrun] at hcompletes
  refine ⟨query, hparse, ?_⟩
  cases heval : query.expression.eval ⟨store.environment, []⟩ with
  | ok content memory =>
    rw [heval] at hcompletes
    obtain ⟨m, heq, hshows⟩ := hcompletes
    obtain ⟨value, hstack⟩ := hshows.stack_eq_singleton
    have hresult : result = (.returned (some value), m) := by
      rw [hstack] at heq
      exact heq
    have hview : m.store.heap.view? value = some content := by
      have hviews := hshows.stack
      rw [hstack] at hviews
      exact (List.cons.inj hviews).1
    rw [hresult]
    exact ⟨⟨value, rfl, Heap.shows_iff.2 hview, hshows.recalls.environment⟩,
      hshows.recalls.sound⟩
  | error error memory =>
    rw [heval] at hcompletes
    obtain ⟨m, heq, hrecalls⟩ := hcompletes
    have hresult : result = (.failed error, m) := heq
    rw [hresult]
    exact ⟨⟨rfl, hrecalls.environment⟩, hrecalls.sound⟩

/-- The two ways to have an expression evaluated agree.  Whatever text compiles
as a lone expression, and on every reachable store: behind `print` it compiles
as a program; if the unit of the expression returns a value, the program prints
this value as it is shown, and finishes; if it fails, the program fails with the
same error at the same line and prints nothing; and the variables have the same
contents afterwards.  What is traced does not matter to either. -/
theorem runProgram_prints_query (hstore : store.Reachable)
    (hcompile : Query.compile source store.heap = (.ok chunk, heap')) (tracing tracing' : Bool) :
    let result := (Machine.start { store with heap := heap' }).run chunk tracing
    let run := runProgram tracing' (Text.printing source) store
    (∃ chunk', (Program.compile (Text.printing source) store.heap).1 = .ok chunk') ∧
      ((∃ value shown, result.1 = .returned (some value) ∧
          value.display result.2.store.heap = .ok shown ∧ run.status = .finished ∧
          printedTexts run.events = [shown ++ [newline]]) ∨
        ∃ error, result.1 = .failed error ∧ run.status = .failed error ∧
          printedTexts run.events = []) ∧
      result.2.store.AgreeOn (fun _ => True) run.store := by
  intro result run
  obtain ⟨query, hquery, hanswers, hsound⟩ := Query.run_answers hstore.sound hcompile tracing
  obtain ⟨line, endLine, hprogram⟩ := Program.parse_printing hquery
  obtain ⟨hagrees, hsound'⟩ := runProgram_agrees_of_parse hstore.sound hprogram tracing'
  refine ⟨(Parsed.exists_compile_iff _ _ _).2 ⟨_, hprogram⟩, ?_⟩
  rw [hsound.agreeOn_iff hsound']
  have hsilent := query.expression.silent_eval ⟨store.environment, []⟩
  rw [Program.exec_print] at hagrees
  cases heval : query.expression.eval ⟨store.environment, []⟩ with
  | ok content memory =>
    rw [heval] at hanswers hagrees hsilent
    obtain ⟨value, hstop, hshows, henvironment⟩ := hanswers
    obtain ⟨hstatus, hprinted, henvironment'⟩ := hagrees
    have hempty : memory.printed = [] := hsilent
    have hshown : printedTexts run.events = [content.display ++ [newline]] := by
      rw [hprinted, Memory.print, hempty]
      rfl
    exact ⟨.inl ⟨value, content.display, hstop, hshows.display, hstatus, hshown⟩,
      fun name _ => congrFun (henvironment.trans henvironment'.symm) name⟩
  | error error memory =>
    rw [heval] at hanswers hagrees hsilent
    obtain ⟨hstop, henvironment⟩ := hanswers
    obtain ⟨hstatus, hprinted, henvironment'⟩ := hagrees
    exact ⟨.inr ⟨error, hstop, hstatus, hprinted.trans hsilent⟩,
      fun name _ => congrFun (henvironment.trans henvironment'.symm) name⟩

/-- The comment that ends the expression does not swallow the semicolon. -/
theorem runProgram_prints_query_comment :
    let run := runProgram true (Text.printing (text "!nil//")) .empty
    run.status = .finished ∧ printedTexts run.events = [text "true" ++ [newline]] := by
  intro run
  let bang : Token := ⟨.bang, [unit '!'], 1⟩
  let word : Token := ⟨.keyword .nilWord, Keyword.nilWord.spelling, 1⟩
  let last : Token := ⟨.endOfInput, [], 1⟩
  let query : Query := ⟨.unary .not (.literal .nil 1), 1⟩
  have htake : (Cursor.start (text "!nil//")).take 3 =
      [.token bang, .token word] ++ [.token last] := by decide
  have hscan : scan (text "!nil//") = [bang, word, last].map .token :=
    Cursor.run_of_take htake rfl (by decide)
  have hnil : Level.unary.Derives [word] (.literal .nil 1) :=
    .of_primary (.literal (.nil Keyword.nilWord.spelling))
  have hnot : Level.unary.Derives [bang, word] query.expression := .unary .not hnil
  have hquery : query.Derives ([bang, word] ++ [last]) :=
    ⟨[bang, word], last, rfl, rfl, hnot.loosen (by decide), rfl⟩
  have hparse := Query.parse_of_derives hscan hquery (by decide) (by decide)
  obtain ⟨chunk, heap', hcompile⟩ :
      ∃ chunk heap', Query.compile (text "!nil//") Heap.empty = (.ok chunk, heap') := by
    rw [Query.compile, hparse]
    exact ⟨_, _, rfl⟩
  obtain ⟨-, hends, -⟩ := runProgram_prints_query .empty hcompile true true
  obtain ⟨found, hfound, hanswers, -⟩ :=
    Query.run_answers Store.Reachable.empty.sound hcompile true
  rw [hparse] at hfound
  obtain rfl := Except.ok.inj hfound
  obtain ⟨value, hstop, hshows, -⟩ := hanswers
  obtain ⟨value', shown, hstop', hshown, hstatus, hprinted⟩ | ⟨error, hstop', -⟩ := hends
  · rw [hstop] at hstop'
    cases hstop'
    rw [hshows.display] at hshown
    cases hshown
    exact ⟨hstatus, hprinted⟩
  · rw [hstop] at hstop'
    cases hstop'

end Lox
