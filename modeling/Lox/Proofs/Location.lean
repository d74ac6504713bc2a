import Lox.Proofs.Blame
import Lox.Proofs.Completion

/-!
# Lox.Proofs.Location

Where in a source an error lies.

An evaluation fails exactly if it comes to an expression all parts of which have
values, but whose own operation has none, and the line of the error is the last
one of that expression (`Expr.eval_eq_error_iff`).  The expression is a phrase of
the tokens, and the line is that of its last token (`ComesUp.exists_phrase`).
Together with the completions this makes the lines of units exact
(`lines_are_exact`).
-/

namespace Lox

open Evaluation

/-! ## operations that fail -/

/-- All parts of an expression have values, but its own operation has none.  The
cause is known, and so is the memory when the parts have been evaluated. -/
inductive Expr.Breaks : Expr → Memory → Cause → Memory → Prop where
  | global {name : Text} {line : Nat} {memory : Memory} (h : memory.environment name = none) :
      Expr.Breaks (.global name line) memory (.undefinedVariable name) memory
  | assign {name : Text} {value : Expr} {content : Content} {memory memory' : Memory}
      (hvalue : value.eval memory = .ok content memory') (h : memory'.environment name = none) :
      Expr.Breaks (.assign name value) memory (.undefinedVariable name) memory'
  | unary {op : UnaryOp} {operand : Expr} {content : Content} {error : OperatorError}
      {memory memory' : Memory} (hoperand : operand.eval memory = .ok content memory')
      (h : op.apply content = .error error) :
      Expr.Breaks (.unary op operand) memory (.operator error) memory'
  | binary {op : BinaryOp} {left right : Expr} {a b : Content} {error : OperatorError}
      {memory between memory' : Memory} (hleft : left.eval memory = .ok a between)
      (hright : right.eval between = .ok b memory') (h : op.apply a b = .error error) :
      Expr.Breaks (.binary op left right) memory (.operator error) memory'

/-- The evaluation of an expression comes to that of a part, in a memory that
may have changed on the way. -/
inductive Expr.ComesUp (part : Expr) (between : Memory) : Expr → Memory → Prop where
  | self : part.ComesUp between part between
  | value {name : Text} {value : Expr} {memory : Memory} (h : part.ComesUp between value memory) :
      part.ComesUp between (.assign name value) memory
  | inner {inner : Expr} {line : Nat} {memory : Memory} (h : part.ComesUp between inner memory) :
      part.ComesUp between (.group inner line) memory
  | operand {op : UnaryOp} {operand : Expr} {memory : Memory}
      (h : part.ComesUp between operand memory) :
      part.ComesUp between (.unary op operand) memory
  | left {op : BinaryOp} {left right : Expr} {memory : Memory}
      (h : part.ComesUp between left memory) :
      part.ComesUp between (.binary op left right) memory
  | right {op : BinaryOp} {left right : Expr} {a : Content} {memory memory' : Memory}
      (hleft : left.eval memory = .ok a memory') (h : part.ComesUp between right memory') :
      part.ComesUp between (.binary op left right) memory

namespace Expr

variable {e part : Expr} {memory memory' between : Memory} {cause : Cause} {error : RuntimeError}

theorem Breaks.eval (h : e.Breaks memory cause memory') :
    e.eval memory = .error ⟨cause, e.lastLine⟩ memory' := by
  cases h with
  | global h =>
    rw [Expr.eval, Evaluation.lookUp, h]
    rfl
  | assign hvalue h =>
    rw [Expr.eval, bind_ok hvalue]
    refine bind_error ?_
    rw [Evaluation.lookUp, h]
    rfl
  | unary hoperand h =>
    rw [Expr.eval, bind_ok hoperand, h]
    rfl
  | binary hleft hright h =>
    rw [Expr.eval, bind_ok hleft, bind_ok hright, h]
    rfl

/-- An error of a part is an error of the whole. -/
theorem ComesUp.eval (h : part.ComesUp between e memory)
    (herror : part.eval between = .error error memory') : e.eval memory = .error error memory' := by
  induction h with
  | self => exact herror
  | value _ ih => exact bind_error ih
  | inner _ ih => exact ih
  | operand _ ih => exact bind_error ih
  | left _ ih => exact bind_error ih
  | right hleft _ ih => exact (bind_ok hleft).trans (bind_error ih)

/-- An error comes from a part that is broken. -/
theorem exists_breaks (e : Expr) (h : e.eval memory = .error error memory') :
    ∃ (part : Expr) (between : Memory), part.ComesUp between e memory ∧
      part.Breaks between error.cause memory' ∧ error.line = part.lastLine := by
  induction e generalizing memory with
  | literal value line => cases h
  | global name line =>
    obtain ⟨hname, rfl, rfl⟩ := lookUp_error h
    exact ⟨_, _, .self, .global hname, rfl⟩
  | assign name value ih =>
    obtain hvalue | ⟨content, middle, hvalue, hrest⟩ := bind_error_cases h
    · obtain ⟨part, between, hpart, hbroken⟩ := ih hvalue
      exact ⟨part, between, .value hpart, hbroken⟩
    · obtain hlookUp | ⟨old, last, -, hset⟩ := bind_error_cases hrest
      · obtain ⟨hname, rfl, rfl⟩ := lookUp_error hlookUp
        exact ⟨_, _, .self, .assign hvalue hname, rfl⟩
      · cases hset
  | group inner line ih =>
    obtain ⟨part, between, hpart, hbroken⟩ := ih h
    exact ⟨part, between, .inner hpart, hbroken⟩
  | unary op operand ih =>
    obtain hoperand | ⟨content, middle, hoperand, hrest⟩ := bind_error_cases h
    · obtain ⟨part, between, hpart, hbroken⟩ := ih hoperand
      exact ⟨part, between, .operand hpart, hbroken⟩
    · obtain ⟨cause, hop, rfl, rfl⟩ := operate_error hrest
      exact ⟨_, _, .self, .unary hoperand hop, rfl⟩
  | binary op left right ihleft ihright =>
    obtain hleft | ⟨a, middle, hleft, hrest⟩ := bind_error_cases h
    · obtain ⟨part, between, hpart, hbroken⟩ := ihleft hleft
      exact ⟨part, between, .left hpart, hbroken⟩
    · obtain hright | ⟨b, last, hright, hrest⟩ := bind_error_cases hrest
      · obtain ⟨part, between, hpart, hbroken⟩ := ihright hright
        exact ⟨part, between, .right hleft hpart, hbroken⟩
      · obtain ⟨cause, hop, rfl, rfl⟩ := operate_error hrest
        exact ⟨_, _, .self, .binary hleft hright hop, rfl⟩

/-- An evaluation fails exactly if it comes to a part that is broken, and the
line is the last one of that part. -/
theorem eval_eq_error_iff (e : Expr) :
    e.eval memory = .error error memory' ↔
      ∃ (part : Expr) (between : Memory), part.ComesUp between e memory ∧
        part.Breaks between error.cause memory' ∧ error.line = part.lastLine := by
  refine ⟨e.exists_breaks, fun ⟨part, between, hpart, hbroken, hline⟩ => ?_⟩
  obtain ⟨cause, line⟩ := error
  obtain rfl : line = part.lastLine := hline
  exact hpart.eval hbroken.eval

end Expr

/-! ## statements -/

/-- The execution of a program comes to the evaluation of an expression. -/
def Program.ComesTo (program : Program) (memory : Memory) (part : Expr) (between : Memory) :
    Prop :=
  ∃ before statement after e middle, program.statements = before ++ statement :: after ∧
    Stmt.execAll before memory = .ok () middle ∧ statement.expression? = some e ∧
    part.ComesUp between e middle

section

variable {memory memory' : Memory} {error : RuntimeError}

/-- A statement fails where its expression does. -/
theorem Stmt.eval_of_exec (statement : Stmt) (h : statement.exec memory = .error error memory') :
    ∃ e, statement.expression? = some e ∧ e.eval memory = .error error memory' := by
  have hvalue {α : Type} (e : Expr) {next : Content → Evaluation α}
      (hnext : ∀ content between, next content between ≠ .error error memory')
      (h : (e.eval >>= next) memory = .error error memory') :
      e.eval memory = .error error memory' := by
    obtain herror | ⟨content, between, -, hrest⟩ := bind_error_cases h
    · exact herror
    · exact absurd hrest (hnext content between)
  cases statement with
  | var name nameLine initial line =>
    cases initial with
    | none => cases h
    | some e => exact ⟨e, rfl, hvalue e (by rintro _ _ ⟨⟩) h⟩
  | print e line => exact ⟨e, rfl, hvalue e (by rintro _ _ ⟨⟩) h⟩
  | expression e line => exact ⟨e, rfl, hvalue e (by rintro _ _ ⟨⟩) h⟩

/-- Consecutive statements fail at the first that does. -/
theorem Stmt.exists_of_execAll (statements : List Stmt)
    (h : Stmt.execAll statements memory = .error error memory') :
    ∃ before statement after middle, statements = before ++ statement :: after ∧
      Stmt.execAll before memory = .ok () middle ∧
      statement.exec middle = .error error memory' := by
  induction statements generalizing memory with
  | nil => cases h
  | cons statement rest ih =>
    obtain hfails | ⟨_, between, hexec, hrest⟩ := bind_error_cases h
    · exact ⟨[], statement, rest, memory, rfl, rfl, hfails⟩
    · obtain ⟨before, failing, after, middle, rfl, hbefore, hfails⟩ := ih hrest
      exact ⟨statement :: before, failing, after, middle, rfl, (bind_ok hexec).trans hbefore,
        hfails⟩

/-- A program that fails comes to an expression that is broken. -/
theorem Program.exists_breaks (program : Program)
    (h : program.exec memory = .error error memory') :
    ∃ (part : Expr) (between : Memory), program.ComesTo memory part between ∧
      part.Breaks between error.cause memory' ∧ error.line = part.lastLine := by
  obtain ⟨before, statement, after, middle, hstatements, hbefore, hfails⟩ :=
    Stmt.exists_of_execAll program.statements h
  obtain ⟨e, he, herror⟩ := statement.eval_of_exec hfails
  obtain ⟨part, between, hpart, hbroken⟩ := e.exists_breaks herror
  exact ⟨part, between, ⟨before, statement, after, e, middle, hstatements, hbefore, he, hpart⟩,
    hbroken⟩

end

/-! ## phrases -/

/-- The expressions that an expression is put together from. -/
def Expr.parts : Expr → List Expr
  | literal _ _ => []
  | global _ _ => []
  | assign _ value => [value]
  | group inner _ => [inner]
  | unary _ operand => [operand]
  | binary _ left right => [left, right]

/-- Tokens within others that some level derives an expression from. -/
def Expr.IsPhrase (e : Expr) (phrase tokens : List Token) : Prop :=
  phrase <:+: tokens ∧ ∃ level : Level, level.Derives phrase e

variable {level : Level} {tokens : List Token} {e part : Expr}

/-- The parts of an expression are phrases of its tokens. -/
theorem Level.Derives.exists_phrase (h : level.Derives tokens e) (hpart : part ∈ e.parts) :
    ∃ phrase, part.IsPhrase phrase tokens := by
  induction h with
  | tighter _ ih => exact ih hpart
  | @assign name sign tokens _ _ _ inner _ =>
    obtain rfl := List.mem_singleton.1 hpart
    exact ⟨tokens, (List.suffix_append [name, sign] tokens).isInfix, _, inner⟩
  | @binary _ sign _ before after _ _ _ hleft hright _ _ =>
    obtain rfl | hpart := List.mem_cons.1 hpart
    · exact ⟨before, (List.prefix_append before _).isInfix, _, hleft⟩
    · obtain rfl := List.mem_singleton.1 hpart
      refine ⟨after, List.IsSuffix.isInfix ⟨before ++ [sign], ?_⟩, _, hright⟩
      rw [List.append_assoc, List.singleton_append]
  | @unary sign _ tokens _ _ inner _ =>
    obtain rfl := List.mem_singleton.1 hpart
    exact ⟨tokens, (List.suffix_cons sign tokens).isInfix, _, inner⟩
  | literal _ => cases hpart
  | global _ => cases hpart
  | @group opening closing tokens _ _ _ hinner _ =>
    obtain rfl := List.mem_singleton.1 hpart
    exact ⟨tokens, ⟨[opening], [closing], rfl⟩, _, hinner⟩

theorem Expr.IsPhrase.trans {phrase tokens' : List Token} (h : e.IsPhrase phrase tokens)
    (hwithin : tokens <:+: tokens') : e.IsPhrase phrase tokens' := ⟨h.1.trans hwithin, h.2⟩

theorem Expr.IsPhrase.exists_part {phrase : List Token} (h : e.IsPhrase phrase tokens)
    (hpart : part ∈ e.parts) : ∃ phrase, part.IsPhrase phrase tokens := by
  obtain ⟨hwithin, level, hderives⟩ := h
  obtain ⟨phrase, hphrase⟩ := hderives.exists_phrase hpart
  exact ⟨phrase, hphrase.trans hwithin⟩

/-- What comes up in the evaluation of a phrase is a phrase. -/
theorem Expr.ComesUp.exists_phrase {between memory : Memory} {phrase : List Token}
    (h : part.ComesUp between e memory) (hphrase : e.IsPhrase phrase tokens) :
    ∃ phrase, part.IsPhrase phrase tokens := by
  induction h generalizing phrase with
  | self => exact ⟨phrase, hphrase⟩
  | value _ ih =>
    obtain ⟨_, hvalue⟩ := hphrase.exists_part (.head _)
    exact ih hvalue
  | inner _ ih =>
    obtain ⟨_, hinner⟩ := hphrase.exists_part (.head _)
    exact ih hinner
  | operand _ ih =>
    obtain ⟨_, hoperand⟩ := hphrase.exists_part (.head _)
    exact ih hoperand
  | left _ ih =>
    obtain ⟨_, hleft⟩ := hphrase.exists_part (.head _)
    exact ih hleft
  | right _ _ ih =>
    obtain ⟨_, hright⟩ := hphrase.exists_part (.tail _ (.head _))
    exact ih hright

theorem Stmt.Derives.exists_phrase {statement : Stmt} (h : statement.Derives tokens)
    (he : statement.expression? = some e) : ∃ phrase, e.IsPhrase phrase tokens := by
  cases h with
  | declare _ _ _ => cases he
  | @define intro name sign semicolon tokens _ _ _ _ hinitial _ =>
    cases he
    exact ⟨tokens, ⟨[intro, name, sign], [semicolon], rfl⟩, _, hinitial⟩
  | @print intro semicolon tokens _ _ hvalue _ =>
    cases he
    exact ⟨tokens, ⟨[intro], [semicolon], rfl⟩, _, hvalue⟩
  | @expression semicolon tokens _ hvalue _ =>
    cases he
    exact ⟨tokens, (List.prefix_append tokens _).isInfix, _, hvalue⟩

theorem Stmt.DerivesAll.exists_phrase {statements : List Stmt} {statement : Stmt}
    (h : Stmt.DerivesAll tokens statements) (hmem : statement ∈ statements)
    (he : statement.expression? = some e) : ∃ phrase, e.IsPhrase phrase tokens := by
  induction h with
  | nil => cases hmem
  | @cons tokens more _ _ head _ ih =>
    obtain rfl | hrest := List.mem_cons.1 hmem
    · obtain ⟨phrase, hphrase⟩ := head.exists_phrase he
      exact ⟨phrase, hphrase.trans (List.prefix_append tokens more).isInfix⟩
    · obtain ⟨phrase, hphrase⟩ := ih hrest
      exact ⟨phrase, hphrase.trans (List.suffix_append tokens more).isInfix⟩

/-- What a program comes to is a phrase of its tokens. -/
theorem Program.ComesTo.exists_phrase {program : Program} {memory between : Memory}
    (h : program.ComesTo memory part between) (hderives : program.Derives tokens) :
    ∃ phrase, part.IsPhrase phrase tokens := by
  obtain ⟨before, statement, after, e, middle, hstatements, -, he, hpart⟩ := h
  obtain ⟨body, last, rfl, -, hbody, -⟩ := hderives
  have hmem : statement ∈ program.statements := by simp [hstatements]
  obtain ⟨_, hphrase⟩ := hbody.exists_phrase hmem he
  exact hpart.exists_phrase (hphrase.trans (List.prefix_append body _).isInfix)

theorem Query.exists_phrase {query : Query} {memory between : Memory}
    (h : part.ComesUp between query.expression memory) (hderives : query.Derives tokens) :
    ∃ phrase, part.IsPhrase phrase tokens := by
  obtain ⟨body, last, rfl, -, hbody, -⟩ := hderives
  exact h.exists_phrase ⟨(List.prefix_append body _).isInfix, _, hbody⟩

/-! ## errors of runs -/

/-- An error lies at the last token of an expression of the source: one to which
what was carried out came, whose parts all had values, and whose own operation
had none. -/
def RuntimeError.LiesIn (error : RuntimeError) (tokens : List Token)
    (comesTo : Expr → Memory → Prop) : Prop :=
  ∃ part between memory' front last, comesTo part between ∧
    part.Breaks between error.cause memory' ∧ part.IsPhrase (front ++ [last]) tokens ∧
    error.line = last.line

theorem RuntimeError.liesIn {error : RuntimeError} {comesTo : Expr → Memory → Prop}
    {between memory' : Memory} (hcomes : comesTo part between)
    (hbroken : part.Breaks between error.cause memory') (hline : error.line = part.lastLine)
    (hphrase : ∃ phrase, part.IsPhrase phrase tokens) : error.LiesIn tokens comesTo := by
  obtain ⟨phrase, hwithin, level, hderives⟩ := hphrase
  obtain ⟨front, last, rfl, hlast⟩ := hderives.exists_last
  exact ⟨part, between, memory', front, last, hcomes, hbroken, ⟨hwithin, level, hderives⟩,
    hline.trans (congrArg Nat.cast hlast.symm)⟩

section

variable {source : Text} {heap heap' : Heap} {globals : Globals} {chunk : Chunk} {tracing : Bool}
  {error : RuntimeError} {m : Machine}

theorem Program.liesIn_of_run {program : Program} (hbuilt : heap.Built)
    (hcompile : Program.compile source heap = (.ok chunk, heap'))
    (hparse : (Program.parse source).result = .ok program) (hderives : program.Derives tokens)
    (hlive : ∀ name value, globals.get? name = some value → heap'.Live value)
    (hrun : (Machine.start ⟨heap', globals⟩).run chunk tracing = (.failed error, m)) :
    error.LiesIn tokens (program.ComesTo ⟨Store.environment ⟨heap', globals⟩, []⟩) := by
  obtain ⟨_, found, -, hfound, -, hready, hexec⟩ :=
    Program.ready_of_compile hbuilt hcompile hlive
  rw [hparse] at hfound
  obtain rfl := Except.ok.inj hfound
  obtain ⟨memory, hfailed⟩ :=
    hready.exists_failed (by rw [hexec]; exact Progress.ofUnit_ne_stuck _) hrun
  rw [hexec] at hfailed
  obtain ⟨part, between, hcomes, hbroken, hline⟩ :=
    program.exists_breaks (Progress.eq_error_of_ofUnit hfailed)
  exact RuntimeError.liesIn hcomes hbroken hline (hcomes.exists_phrase hderives)

theorem Query.liesIn_of_run {query : Query} (hbuilt : heap.Built)
    (hcompile : Query.compile source heap = (.ok chunk, heap'))
    (hparse : (Query.parse source).result = .ok query) (hderives : query.Derives tokens)
    (hlive : ∀ name value, globals.get? name = some value → heap'.Live value)
    (hrun : (Machine.start ⟨heap', globals⟩).run chunk tracing = (.failed error, m)) :
    error.LiesIn tokens fun part between =>
      part.ComesUp between query.expression ⟨Store.environment ⟨heap', globals⟩, []⟩ := by
  obtain ⟨_, found, -, hfound, -, hready, heval⟩ := Query.ready_of_compile hbuilt hcompile hlive
  rw [hparse] at hfound
  obtain rfl := Except.ok.inj hfound
  obtain ⟨memory, hfailed⟩ :=
    hready.exists_failed (by rw [heval]; exact Progress.ofContent_ne_stuck _) hrun
  rw [heval] at hfailed
  obtain ⟨part, between, hpart, hbroken, hline⟩ :=
    query.expression.exists_breaks (Progress.eq_error_of_ofContent hfailed)
  exact RuntimeError.liesIn hpart hbroken hline (Query.exists_phrase hpart hderives)

/-! ## exact lines -/

/-- A unit with exact lines: each byte has the line of the last token of the
construct that its instruction completes, the lines never go up, and a run that
fails, on whatever store and however often the machine was run before, names the
line of the completion behind which it stopped. -/
structure Chunk.Exact (chunk : Chunk) (completions : List Completion) : Prop where
  carries : chunk.Carries completions
  ascending : chunk.lines.Pairwise (· ≤ ·)
  failed : ∀ store tracing count error m,
    ((Machine.start store).runTimes chunk tracing count).run chunk tracing = (.failed error, m) →
    ∃ before completion after, completions = before ++ completion :: after ∧
      m.offset = Completion.byteCount (before ++ [completion]) ∧
      error.line = completion.last.line

theorem Chunk.exact {code : List Instruction} {completions : List Completion}
    (hscan : scan source = tokens.map .token) (hcode : chunk.GoesOn 0 code)
    (hmarks : code.map Instruction.mark = completions.map Completion.mark)
    (hdrawn : Drawn (completions.map Completion.last) tokens) : chunk.Exact completions := by
  have hcarries := Chunk.carries hcode hmarks
  have hscanned := ascending_scan source
  rw [hscan, List.map_map] at hscanned
  have htokens : Ascending (tokens.map Token.line) := (List.pairwise_cons.1 hscanned).2
  refine ⟨hcarries, hcarries.ascending (hdrawn.ascending htokens), ?_⟩
  intro store tracing count error m hrun
  obtain ⟨before, instruction, after, rfl, hoffset, hline⟩ := Machine.line_of_runTimes hcode hrun
  obtain ⟨before', completion, after', rfl, hbefore, hmark⟩ := exists_split_of_map_eq hmarks
  have hpassed : (before ++ [instruction]).map Instruction.mark =
      (before' ++ [completion]).map Completion.mark := by
    rw [List.map_append, List.map_append, hbefore, List.map_singleton, hmark, List.map_singleton]
  have hcompleted : instruction.line = completion.last.line := congrArg Prod.snd hmark
  exact ⟨before', completion, after', rfl, hoffset.trans (Completion.byteCount_eq hpassed).symm,
    hline.trans (congrArg Nat.cast hcompleted)⟩

end

/-- Line information is exact.  Whatever is accepted, as a program or as a lone
expression, is compiled to a unit with exact lines; and on every heap that stores
and releases built, with any variables that live in it, a run that fails names
the line of the last token of the smallest expression whose operation failed. -/
theorem lines_are_exact (source : Text) (heap : Heap) :
    (∀ chunk heap', Program.compile source heap = (.ok chunk, heap') →
      ∃ tokens program completions, scan source = tokens.map .token ∧
        (Program.parse source).result = .ok program ∧
        program.Completes tokens completions ∧ chunk.Exact completions ∧
        (heap.Built → ∀ globals tracing error m,
          (∀ name value, globals.get? name = some value → heap'.Live value) →
          (Machine.start ⟨heap', globals⟩).run chunk tracing = (.failed error, m) →
          error.LiesIn tokens (program.ComesTo ⟨Store.environment ⟨heap', globals⟩, []⟩))) ∧
    (∀ chunk heap', Query.compile source heap = (.ok chunk, heap') →
      ∃ tokens query completions, scan source = tokens.map .token ∧
        (Query.parse source).result = .ok query ∧
        query.Completes tokens completions ∧ chunk.Exact completions ∧
        (heap.Built → ∀ globals tracing error m,
          (∀ name value, globals.get? name = some value → heap'.Live value) →
          (Machine.start ⟨heap', globals⟩).run chunk tracing = (.failed error, m) →
          error.LiesIn tokens fun part between =>
            part.ComesUp between query.expression
              ⟨Store.environment ⟨heap', globals⟩, []⟩)) := by
  refine ⟨fun chunk heap' hcompile => ?program, fun chunk heap' hcompile => ?query⟩
  case program =>
    obtain ⟨program, hparse, hchunk, -⟩ := Parsed.compile_eq_ok hcompile
    obtain ⟨tokens, hscan, hderives, -⟩ := Program.derives_of_parse hparse
    obtain ⟨completions, hcompletes⟩ := hderives.exists_completes
    refine ⟨tokens, program, completions, hscan, hparse, hcompletes, ?_, ?_⟩
    · rw [hchunk]
      exact Chunk.exact hscan (Chunk.goesOn_ofCode _ _) hcompletes.code hcompletes.drawn
    · intro hbuilt globals tracing error m hlive hrun
      exact Program.liesIn_of_run hbuilt hcompile hparse hderives hlive hrun
  case query =>
    obtain ⟨query, hparse, hchunk, -⟩ := Parsed.compile_eq_ok hcompile
    obtain ⟨tokens, hscan, hderives, -⟩ := Query.derives_of_parse hparse
    obtain ⟨completions, hcompletes⟩ := hderives.exists_completes
    refine ⟨tokens, query, completions, hscan, hparse, hcompletes, ?_, ?_⟩
    · rw [hchunk]
      exact Chunk.exact hscan (Chunk.goesOn_ofCode _ _) hcompletes.code hcompletes.drawn
    · intro hbuilt globals tracing error m hlive hrun
      exact Query.liesIn_of_run hbuilt hcompile hparse hderives hlive hrun

/-- A negation that ends with a parenthesis two lines below its sign fails on the
line of the parenthesis. -/
theorem lines_are_exact_negation :
    ∃ chunk heap' error m tokens program,
      Program.compile (text "-(\nnil\n);") .empty = (.ok chunk, heap') ∧
      chunk.lines = [2, 3, 3, 3] ∧
      (Machine.start ⟨heap', .empty⟩).run chunk false = (.failed error, m) ∧ error.line = 3 ∧
      error.LiesIn tokens (Program.ComesTo program ⟨Store.environment ⟨heap', .empty⟩, []⟩) := by
  let sign : Token := ⟨.minus, text "-", 1⟩
  let opening : Token := ⟨.leftParen, text "(", 1⟩
  let word : Token := ⟨.keyword .nilWord, text "nil", 2⟩
  let closing : Token := ⟨.rightParen, text ")", 3⟩
  let semicolon : Token := ⟨.semicolon, text ";", 3⟩
  let last : Token := ⟨.endOfInput, [], 3⟩
  let operand : Expr := .group (.literal .nil 2) 3
  let program : Program := ⟨[.expression (.unary .negate operand) 3], 3⟩
  have htake : (Cursor.start (text "-(\nnil\n);")).take 6 =
      [.token sign, .token opening, .token word, .token closing, .token semicolon] ++
        [.token last] := by decide
  have hscan : scan (text "-(\nnil\n);") =
      [sign, opening, word, closing, semicolon, last].map .token :=
    Cursor.run_of_take htake rfl (by decide)
  have hnil : Level.expression.Derives [word] (.literal .nil 2) :=
    .of_primary (.literal (.nil (text "nil")))
  have hgroup : Level.unary.Derives [opening, word, closing] operand :=
    .of_primary (.group rfl rfl hnil)
  have hnegation : Level.unary.Derives [sign, opening, word, closing] (.unary .negate operand) :=
    .unary .negate hgroup
  have hprogram : program.Derives ([sign, opening, word, closing, semicolon] ++ [last]) :=
    ⟨_, last, rfl, rfl, .cons (.expression (hnegation.loosen (by decide)) rfl) .nil, rfl⟩
  have hdepth : ∀ statement ∈ program.statements, statement.Shallow := by
    intro statement hstatement e he
    obtain rfl := List.mem_singleton.1 hstatement
    cases he
    decide
  have hparse := Program.parse_of_derives hscan hprogram hdepth (by decide)
  let chunk := Chunk.ofCode program.code []
  have hcompile : Program.compile (text "-(\nnil\n);") .empty = (.ok chunk, .empty) := by
    rw [Program.compile, hparse]
    rfl
  let m : Machine := ⟨1, [.nil], ⟨.empty, .empty⟩, []⟩
  have hfirst : Move.tracedStep chunk false (.start ⟨.empty, .empty⟩) = .ok () m := rfl
  have hsecond : Move.tracedStep chunk false m =
      .error (.failed ⟨.operator (.negation .nil), 3⟩) { m with offset := 2, stack := [] } := rfl
  have hrun : (Machine.start ⟨.empty, .empty⟩).run chunk false =
      (.failed ⟨.operator (.negation .nil), 3⟩, { m with offset := 2, stack := [] }) := by
    rw [Machine.run_ok (by decide) hfirst, Machine.run_error (by decide) hsecond]
  obtain ⟨tokens, found, -, -, -, -, -, hlies⟩ := (lines_are_exact _ .empty).1 _ _ hcompile
  exact ⟨chunk, _, _, _, tokens, found, hcompile, by decide, hrun, rfl,
    hlies .empty _ _ _ _ (fun _ _ hvalue => by cases hvalue) hrun⟩

end Lox
