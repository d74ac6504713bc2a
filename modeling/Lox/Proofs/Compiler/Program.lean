import Lox.Proofs.Acceptance
import Lox.Proofs.Compiler.Expression

/-!
# Lox.Proofs.Compiler.Program

Programs and lone expressions in one pass.

Statements are followed as expressions are.  Every statement takes a token, so
the loop over statements ends; and what is skipped after an error is pending
before.  At the end of a source the compiler in one pass has the answer of the
parser and the lowering, and the heap that they leave (`ends_program`,
`ends_query`).
-/

namespace Lox

namespace Compiler

variable {all : List Lexed} {origin : Heap} {c c' c'' : Compiler} {p q : Parser}
  {clock count : Nat} {parsed : Option Stmt}

/-! ## statements -/

theorem compiles_expression (hall : Terminated all) (hc : c.At all origin p)
    (hdepth : c.depth = 0) (hclock : p.pending.length < clock) :
    Compiles all origin (operand clock .assignment) c p.expression.2 fun _ c' =>
      Yields c p.expression.1 c' :=
  nests hall nestingLimit .assignment hc (by rw [hdepth, Nat.zero_add]) hclock

/-- The code of a statement, if there is one, was written. -/
def YieldsStmt (c : Compiler) (parsed : Option Stmt) (c' : Compiler) : Prop :=
  ∃ statement, parsed = some statement ∧
    Wrote c c' (statement.code c.parser.constants.length) statement.constants

theorem YieldsStmt.after (h : YieldsStmt c' parsed c'') (hwrote : Wrote c c' [] []) :
    YieldsStmt c parsed c'' := by
  obtain ⟨statement, hparsed, hyields⟩ := h
  have hentry := hwrote.entry
  rw [List.length_nil, Nat.add_zero] at hentry
  exact ⟨statement, hparsed, hentry ▸ hwrote.trans hyields⟩

/-- An expression, a semicolon, and an operation on the value. -/
theorem compiles_ending (hall : Terminated all) (hc : c.At all origin p) (hdepth : c.depth = 0)
    (hclock : p.pending.length < clock) (error : SyntaxError) (op : Opcode) :
    Compiles all origin (do operand clock .assignment; expect .semicolon error; emit op []) c
      (p.expression.2.expect .semicolon error).2 fun _ c' =>
        ∃ e, p.expression.1 = some e ∧ p.expression.2.current.kind = .semicolon ∧
          Wrote c c' (e.code c.parser.constants.length ++
            [⟨op, [], p.expression.2.current.line⟩]) e.constants := by
  refine (compiles_expression hall hc hdepth hclock).bind fun _ c₁ hc₁ _ => ?_
  refine (compiles_expect hc₁ .semicolon error).bind fun _ c₂ hc₂ _ => ?_
  refine (compiles_emit hc₂ op []).mono fun _ c₃ _ hemit hexpect hvalue => ?_
  obtain ⟨hkind, hexpect⟩ := hexpect
  obtain ⟨e, he, hvalue, -⟩ := hvalue
  rw [Parser.expect_of_eq hkind, Parser.previous_take] at hemit
  exact ⟨e, he, hkind, by simpa using (hvalue.trans hexpect).trans hemit⟩

theorem compiles_printing (hall : Terminated all) (hc : c.At all origin p)
    (hdepth : c.depth = 0) (hclock : p.pending.length < clock) :
    Compiles all origin (printing clock) c p.printing.2 fun _ c' =>
      YieldsStmt c p.printing.1 c' := by
  refine (compiles_ending hall hc hdepth hclock (.semicolonExpected .value) .print).mono
    fun _ c₁ _ hending => ?_
  obtain ⟨e, he, hkind, hwrote⟩ := hending
  refine ⟨.print e p.expression.2.current.line, ?_, hwrote⟩
  simp only [Parser.printing, he, Parser.expect_of_eq hkind]
  rfl

theorem compiles_evaluation (hall : Terminated all) (hc : c.At all origin p)
    (hdepth : c.depth = 0) (hclock : p.pending.length < clock) :
    Compiles all origin (evaluation clock) c p.evaluation.2 fun _ c' =>
      YieldsStmt c p.evaluation.1 c' := by
  refine (compiles_ending hall hc hdepth hclock (.semicolonExpected .expression) .pop).mono
    fun _ c₁ _ hending => ?_
  obtain ⟨e, he, hkind, hwrote⟩ := hending
  refine ⟨.expression e p.expression.2.current.line, ?_, hwrote⟩
  simp only [Parser.evaluation, he, Parser.expect_of_eq hkind]
  rfl

/-- The name of a declaration is asked for before anything else. -/
theorem compiles_introduce (hc : c.At all origin p) :
    Compiles all origin introduce c p.introduced fun index c' =>
      index = c.parser.constants.length ∧ p.current.kind = .identifier ∧
        Wrote c c' [] [.text p.current.lexeme] := by
  refine (compiles_expect hc .identifier .variableNameExpected).bind fun _ c₁ hc₁ _ => .get ?_
  rw [hc₁.parser]
  refine (compiles_request hc₁ _).mono fun index c₂ _ hasked hexpect => ?_
  obtain ⟨hname, hexpect⟩ := hexpect
  obtain ⟨rfl, hasked⟩ := hasked
  have hentry := hexpect.entry
  rw [hc₁.parser] at hentry
  refine ⟨hentry, hname, ?_⟩
  rw [Parser.expect_of_eq hname, Parser.previous_take] at hasked
  exact hexpect.trans hasked

theorem compiles_initializer_equal (hall : Terminated all) (hc : c.At all origin p)
    (hdepth : c.depth = 0) (hclock : p.pending.length < clock) (hsign : p.current.kind = .equal) :
    Compiles all origin (initializer clock) c p.take.expression.2 fun _ c' =>
      Yields c p.take.expression.1 c' := by
  refine .get ?_
  rw [hc.parser, if_pos hsign]
  refine (compiles_take hc).bind fun _ c₁ hc₁ hdepth₁ => ?_
  have hclock₁ : p.take.pending.length < clock := by
    rw [Parser.length_pending_take]
    omega
  exact (compiles_expression hall hc₁ (hdepth₁.trans hdepth) hclock₁).mono
    fun _ _ _ hvalue htake => hvalue.after htake

theorem compiles_initializer_ne (hc : c.At all origin p) (hsign : p.current.kind ≠ .equal) :
    Compiles all origin (initializer clock) c p fun _ c' =>
      Wrote c c' [⟨.pushNil, [], p.previous.line⟩] [] := by
  refine .get ?_
  rw [hc.parser, if_neg hsign]
  exact compiles_emit hc .pushNil []

/-- The end of a declaration. -/
theorem compiles_defined (hc : c.At all origin p) (index : Nat) :
    Compiles all origin (do
        expect .semicolon (.semicolonExpected .variableDeclaration)
        emit .defineGlobal [index]) c
      (p.expect .semicolon (.semicolonExpected .variableDeclaration)).2 fun _ c' =>
        p.current.kind = .semicolon ∧
          Wrote c c' [⟨.defineGlobal, [index], p.current.line⟩] [] := by
  refine (compiles_expect hc .semicolon _).bind fun _ c₁ hc₁ _ => ?_
  refine (compiles_emit hc₁ .defineGlobal [index]).mono fun _ c₂ _ hemit hexpect => ?_
  obtain ⟨hkind, hexpect⟩ := hexpect
  rw [Parser.expect_of_eq hkind, Parser.previous_take] at hemit
  exact ⟨hkind, hexpect.trans hemit⟩

theorem compiles_declaration (hall : Terminated all) (hc : c.At all origin p)
    (hdepth : c.depth = 0) (hclock : p.pending.length < clock) :
    Compiles all origin (declaration clock) c p.declaration.2 fun _ c' =>
      YieldsStmt c p.declaration.1 c' := by
  refine (compiles_introduce hc).bind fun index c₁ hc₁ hdepth₁ => ?_
  by_cases hsign : p.introduced.current.kind = .equal
  · rw [Parser.declaration_of_equal hsign]
    have hclock₁ := Nat.lt_of_le_of_lt (Parser.Leads.introduced p).suffix.length_le hclock
    refine (compiles_initializer_equal hall hc₁ (hdepth₁.trans hdepth) hclock₁ hsign).bind
      fun _ c₂ hc₂ _ => ?_
    refine (compiles_defined hc₂ index).mono fun _ c₃ _ hdefined hvalue hname => ?_
    obtain ⟨rfl, hname, hasked⟩ := hname
    obtain ⟨e, he, hvalue, -⟩ := hvalue
    obtain ⟨hkind, hdefined⟩ := hdefined
    have hentry := hasked.entry
    rw [List.length_singleton] at hentry
    rw [hentry] at hvalue
    refine ⟨.var p.current.lexeme p.current.line (some e) _, ?_,
      by simpa [Stmt.code, Stmt.constants] using (hasked.trans hvalue).trans hdefined⟩
    rw [Parser.introduced_of_name hname] at hsign hkind he ⊢
    simp only [Parser.declaration, Parser.expect_of_eq hname, Parser.previous_take, if_pos hsign,
      he, Parser.expect_of_eq hkind]
    rfl
  · rw [Parser.declaration_of_ne hsign]
    refine (compiles_initializer_ne hc₁ hsign).bind fun _ c₂ hc₂ _ => ?_
    refine (compiles_defined hc₂ index).mono fun _ c₃ _ hdefined hvalue hname => ?_
    obtain ⟨rfl, hname, hasked⟩ := hname
    obtain ⟨hkind, hdefined⟩ := hdefined
    rw [Parser.introduced_of_name hname] at hsign hkind hvalue hdefined
    rw [Parser.previous_request, Parser.previous_take] at hvalue
    refine ⟨.var p.current.lexeme p.current.line none _, ?_,
      by simpa [Stmt.code, Stmt.constants] using (hasked.trans hvalue).trans hdefined⟩
    simp only [Parser.declaration, Parser.expect_of_eq hname, Parser.previous_take, if_neg hsign,
      Parser.expect_of_eq hkind]
    rfl

theorem compiles_unrecovered (hall : Terminated all) (hc : c.At all origin p)
    (hdepth : c.depth = 0) (hclock : p.pending.length < clock) :
    Compiles all origin (unrecovered clock) c p.unrecovered.2 fun _ c' =>
      YieldsStmt c p.unrecovered.1 c' := by
  have htaken : p.take.pending.length < clock := by
    rw [Parser.length_pending_take]
    omega
  refine .get ?_
  rw [hc.parser]
  split
  · next hvar =>
    rw [Parser.unrecovered_var hvar]
    refine (compiles_take hc).bind fun _ c₁ hc₁ hdepth₁ => ?_
    exact (compiles_declaration hall hc₁ (hdepth₁.trans hdepth) htaken).mono
      fun _ _ _ hyields htake => hyields.after htake
  · next hvar =>
    split
    · next hprint =>
      rw [Parser.unrecovered_print hprint]
      refine (compiles_take hc).bind fun _ c₁ hc₁ hdepth₁ => ?_
      exact (compiles_printing hall hc₁ (hdepth₁.trans hdepth) htaken).mono
        fun _ _ _ hyields htake => hyields.after htake
    · next hprint =>
      rw [Parser.unrecovered_of_ne hvar hprint]
      exact compiles_evaluation hall hc hdepth hclock

/-! ## recovery -/

/-- What is skipped is pending, so skipping ends where the parser stops. -/
theorem compiles_skipToBoundary (hall : Terminated all) (hc : c.At all origin p)
    (hclock : p.pending.length < clock) (hcount : p.pending.length ≤ count) :
    Compiles all origin (skipToBoundary clock) c (p.skipToBoundary count) fun _ c' =>
      Wrote c c' [] [] := by
  have hended := (hc.accounts.sealed hall).ended
  induction count generalizing c p clock with
  | zero =>
    obtain ⟨clock, rfl⟩ : ∃ n, clock = n + 1 := ⟨clock - 1, by omega⟩
    have hend := Parser.kind_of_pending_eq_nil hended (List.eq_nil_of_length_eq_zero (by omega))
    rw [skipToBoundary]
    refine .get ?_
    rw [hc.parser, if_pos (by simp [Parser.atBoundary, hend])]
    exact compiles_pure hc (.refl c)
  | succ count ih =>
    obtain ⟨clock, rfl⟩ : ∃ n, clock = n + 1 := ⟨clock - 1, by omega⟩
    rw [skipToBoundary, Parser.skipToBoundary]
    refine .get ?_
    rw [hc.parser]
    split
    · exact compiles_pure hc (.refl c)
    · next hgo =>
      have hgo : p.current.kind ≠ .endOfInput := fun hend =>
        hgo (by simp [Parser.atBoundary, hend])
      have hpending := List.length_pos_iff.2 (Parser.pending_ne_nil hended hgo)
      have htaken := Parser.length_pending_take p
      refine (compiles_take hc).bind fun _ c₁ hc₁ _ => ?_
      exact (ih hc₁ (by omega) (by omega) (hc₁.accounts.sealed hall).ended).mono
        fun _ _ _ hrest htake => htake.trans hrest

theorem compiles_recover (hall : Terminated all) (hc : c.At all origin p)
    (hclock : p.pending.length < clock) :
    Compiles all origin (recover clock) c (if p.panicking then p.recover else p) fun _ c' =>
      Wrote c c' [] [] := by
  refine .get ?_
  rw [hc.parser]
  split
  · refine (compiles_skipToBoundary hall hc hclock (Nat.le_refl _)).bind fun _ c₁ hc₁ _ => ?_
    exact (compiles_move hc₁ (fun p => { p with panicking := false }) (.calm _) rfl).mono
      fun _ _ _ hcalmed hskip => hskip.trans hcalmed
  · exact compiles_pure hc (.refl c)

/-! ## consecutive statements -/

/-- A declaration that took a token is entered in the ledger. -/
theorem compiles_noteDeclared (hc : c.At all origin p) {before : Nat}
    (hbefore : p.pending.length < before) :
    Compiles all origin (noteDeclared before) c p fun _ c' => Wrote c c' [] [] := by
  obtain rfl := hc.parser
  refine ⟨(), { c with declared := c.declared ++ [(before, c.parser.pending.length)] }, rfl,
    .refl _, ?_, rfl, fun _ => ⟨by simp, by simp⟩⟩
  refine ⟨rfl, hc.accounts, hc.heap, hc.pool, hc.deepest, hc.nested, fun call hcall => ?_⟩
  rcases List.mem_append.1 hcall with hearlier | hnow
  · exact hc.declared call hearlier
  · obtain rfl := List.mem_singleton.1 hnow
    exact hbefore

theorem YieldsStmt.before (h : YieldsStmt c parsed c') (hwrote : Wrote c' c'' [] []) :
    YieldsStmt c parsed c'' := by
  obtain ⟨statement, hparsed, hyields⟩ := h
  exact ⟨statement, hparsed, by simpa using hyields.trans hwrote⟩

theorem compiles_statement (hall : Terminated all) (hc : c.At all origin p)
    (hdepth : c.depth = 0) (hclock : p.pending.length < clock)
    (hgo : p.current.kind ≠ .endOfInput) :
    Compiles all origin (statement clock) c p.statement.2 fun _ c' =>
      YieldsStmt c p.statement.1 c' := by
  have hless := Parser.length_pending_statement (hc.accounts.sealed hall).ended hgo
  refine .get ?_
  rw [hc.parser]
  have hread := ((Parser.Moves.take p).trans (.unrecovered_take p)).leads.suffix.length_le
  refine (compiles_unrecovered hall hc hdepth hclock).bind fun _ c₁ hc₁ _ => ?_
  refine (compiles_recover hall hc₁ (by omega)).bind fun _ c₂ hc₂ _ => ?_
  exact (compiles_noteDeclared hc₂ hless).mono
    fun _ c₃ _ hnoted hrecovered hyields => (hyields.before hrecovered).before hnoted

/-- The loop over statements ends, because each of them takes a token. -/
theorem compiles_statements (hall : Terminated all) (hc : c.At all origin p)
    (hdepth : c.depth = 0) (hclock : p.pending.length + 1 < clock)
    (hcount : p.pending.length < count) :
    Compiles all origin (statements clock) c (p.statements count).2 fun _ c' =>
      Wrote c c' (Stmt.codeAll c.parser.constants.length (p.statements count).1)
        ((p.statements count).1.flatMap Stmt.constants) := by
  induction count generalizing c p clock with
  | zero => omega
  | succ count ih =>
    obtain ⟨clock, rfl⟩ : ∃ n, clock = n + 1 := ⟨clock - 1, by omega⟩
    rw [statements, Parser.statements]
    refine .get ?_
    rw [hc.parser]
    split
    · exact compiles_pure hc (.refl c)
    · split
      · exact compiles_take hc
      · next hgo =>
        have hless := Parser.length_pending_statement (hc.accounts.sealed hall).ended hgo
        refine (compiles_statement hall hc hdepth (by omega) hgo).bind fun _ c₁ hc₁ hdepth₁ => ?_
        refine (ih hc₁ (hdepth₁.trans hdepth) (by omega) (by omega)).mono
          fun _ c₂ _ hrest hfirst => ?_
        obtain ⟨statement, hparsed, hfirst⟩ := hfirst
        rw [hfirst.entry, hc.parser] at hrest
        simpa [hparsed, Stmt.codeAll, hc.parser] using hfirst.trans hrest

/-! ## sources -/

theorem at_start (source : Text) (heap : Heap) :
    (start source heap).At (lex source) heap (Parser.start source) := by
  have hconstants : (Parser.start source).constants = [] := by simp [Parser.start]
  exact ⟨rfl, Parser.accounts_start source, by rw [hconstants]; rfl, by rw [hconstants]; rfl,
    Nat.zero_le _, by simp [start], by simp [start]⟩

/-- The unit written is the unit of the code and the constants. -/
theorem chunk_eq_ofCode (hc : c.At all origin p) (hfits : p.constants.length ≤ poolCapacity)
    {code : List Instruction} (hcode : c.chunk.code.toList = code.flatMap Instruction.bytes) :
    c.chunk = Chunk.ofCode code (Constant.placeAll origin p.constants).1 := by
  obtain ⟨hcode', hconstants'⟩ := Chunk.code_ofCode code (Constant.placeAll origin p.constants).1
  have hpool := hc.pool
  rw [List.take_of_length_le (by rwa [length_placeAll])] at hpool
  have hsame : c.chunk.code = (Chunk.ofCode code (Constant.placeAll origin p.constants).1).code :=
    Array.toList_inj.1 (hcode.trans hcode'.symm)
  have hsame' : c.chunk.constants =
      (Chunk.ofCode code (Constant.placeAll origin p.constants).1).constants :=
    (Array.toList_inj.1 hpool).trans hconstants'.symm
  exact (congr (congrArg Chunk.mk hsame) hsame' :)

theorem ofParser_of_nil {α : Type} (h : p.diagnostics = []) (found : α) :
    Parsed.ofParser (some found, p) = ⟨.ok found, p.constants⟩ := by
  simp only [Parsed.ofParser, h]

/-- At the end of a source, the answer is what the parser found, lowered. -/
theorem ends_finish {α : Type} (hc : c.At all origin p) (tree : Option α)
    (code : α → List Instruction)
    (hwritten : p.diagnostics = [] → ∃ found, tree = some found ∧
      p.constants.length ≤ poolCapacity ∧
        c.chunk.code.toList ++ Instruction.bytes ⟨.ret, [], p.previous.line⟩ =
          (code found).flatMap Instruction.bytes) :
    ∃ c', Ends finish c ((Parsed.ofParser (tree, p)).compile code origin).1 c' ∧
      c'.At all origin p ∧ c'.heap = ((Parsed.ofParser (tree, p)).compile code origin).2 := by
  obtain ⟨_, c', hends, -, hc', -, hemit⟩ := compiles_emit hc .ret []
  cases hrecorded : p.diagnostics with
  | nil =>
    obtain ⟨found, rfl, hfits, hcode⟩ := hwritten hrecorded
    have hwrote := (hemit hrecorded).code
    rw [List.flatMap_singleton, hcode] at hwrote
    have hparsed := ofParser_of_nil hrecorded found
    refine ⟨c', hends.bind (.get ?_), hc', by rw [hparsed, Parsed.compile, hc'.heap]⟩
    rw [hc'.parser, hrecorded, hparsed]
    show Ends (pure (Except.ok c'.chunk)) c'
      (Except.ok (Chunk.ofCode (code found) (Constant.placeAll origin p.constants).1)) c'
    rw [← chunk_eq_ofCode hc' hfits hwrote]
    exact ends_pure _ _
  | cons first rest =>
    have hparsed : Parsed.ofParser (tree, p) = ⟨.error (first :: rest), p.constants⟩ := by
      simp only [Parsed.ofParser, hrecorded]
    refine ⟨c', hends.bind (.get ?_), hc', by rw [hparsed, Parsed.compile, hc'.heap]⟩
    rw [hc'.parser, hrecorded, hparsed]
    exact ends_pure _ _

theorem constants_start (source : Text) : (Parser.start source).constants = [] := by
  simp [Parser.start]

/-- The tokens and two more are enough on the clock. -/
theorem ends_program (source : Text) (heap : Heap) (hclock : (tokensOf source).length + 2 ≤ clock) :
    ∃ c, Ends (program clock) (start source heap) (Program.compile source heap).1 c ∧
      c.At (lex source) heap (Parser.program source).2 ∧
      c.heap = (Program.compile source heap).2 := by
  have hpending := Parser.length_pending_start source
  obtain ⟨_, c₁, hends₁, -, hc₁, -, hwritten⟩ :=
    compiles_statements (terminated_lex source) (at_start source heap) rfl
      (show _ + 1 < clock by omega) (Nat.lt_succ_self _)
  have hfinish := ends_finish hc₁ (Parser.program source).1 Program.code fun hnil => ?_
  · obtain ⟨c₂, hends₂, hc₂, hheap⟩ := hfinish
    exact ⟨c₂, hends₁.bind hends₂, hc₂, hheap⟩
  · have hwrote := hwritten hnil
    have hparse : (Program.parse source).result = .ok _ :=
      congrArg Parsed.result (ofParser_of_nil hnil _)
    obtain ⟨-, -, -, -, hroom⟩ := Program.derives_of_parse hparse
    have hconstants := hwrote.constants
    have hcode := hwrote.code
    rw [hc₁.parser, start, constants_start, List.nil_append] at hconstants
    rw [start, constants_start] at hcode
    refine ⟨_, rfl, by rw [hconstants]; exact hroom, ?_⟩
    rw [hcode, Program.code, List.flatMap_append, List.flatMap_singleton]
    rfl

theorem ends_query (source : Text) (heap : Heap) (hclock : (tokensOf source).length + 2 ≤ clock) :
    ∃ c, Ends (query clock) (start source heap) (Query.compile source heap).1 c ∧
      c.At (lex source) heap (Parser.query source).2 ∧
      c.heap = (Query.compile source heap).2 := by
  have hpending := Parser.length_pending_start source
  obtain ⟨_, c₁, hends₁, -, hc₁, -, hvalue⟩ :=
    compiles_expression (terminated_lex source) (at_start source heap) rfl
      (show _ < clock by omega)
  obtain ⟨_, c₂, hends₂, hleads₂, hc₂, -, hclosed⟩ :=
    compiles_expect hc₁ .endOfInput .endExpected
  have hfinish := ends_finish hc₂ (Parser.query source).1 Query.code fun hnil => ?_
  · obtain ⟨c₃, hends₃, hc₃, hheap⟩ := hfinish
    exact ⟨c₃, hends₁.bind (hends₂.bind hends₃), hc₃, hheap⟩
  · rw [hc₁.parser] at hleads₂
    obtain ⟨hkind, hexpect⟩ := hclosed hnil
    obtain ⟨e, he, hvalue, -⟩ := hvalue (hleads₂.keeps hnil)
    let found : Query := ⟨e, (Parser.start source).expression.2.current.line⟩
    have hquery : (Parser.query source).1 = some found := by
      simp only [Parser.query, he, Parser.expect_of_eq hkind]
      rfl
    have hparse : (Query.parse source).result = .ok found := by
      rw [Query.parse, ← Prod.eta (Parser.query source), hquery]
      exact congrArg Parsed.result (ofParser_of_nil hnil _)
    obtain ⟨-, -, -, -, hroom⟩ := Query.derives_of_parse hparse
    have hwrote := hvalue.trans hexpect
    have hconstants := hwrote.constants
    have hcode := hwrote.code
    rw [hc₂.parser, start, constants_start, List.nil_append, List.append_nil] at hconstants
    rw [start, constants_start, List.append_nil] at hcode
    refine ⟨_, hquery, by rw [hconstants]; exact hroom, ?_⟩
    rw [hcode, Query.code, List.flatMap_append, List.flatMap_singleton, Parser.expect_of_eq hkind,
      Parser.previous_take]
    rfl

end Compiler

end Lox
