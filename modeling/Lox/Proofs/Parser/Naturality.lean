import Lox.Proofs.Parser.Ahead

/-!
# Lox.Proofs.Parser.Naturality

Parsing with other line numbers.

The parser copies lines and never looks at them.  So parsing commutes with any
change `f` of the lines of tokens and faults: the trees and the diagnostics are
the same, but for their lines, which `f` has changed (`Parser.expression_mapLines`,
`Parser.statements_mapLines`).  If `f` is a constant, this says that lines go
nowhere but into lines.

`Parser.Lockstep` compares what two parsers have left.  Here the trees that they
return are compared as well, by one equation for each function of the parser.
-/

namespace Lox

/-! ## other lines -/

/-- A token on another line. -/
def Token.mapLine (f : Nat → Nat) (token : Token) : Token := { token with line := f token.line }

/-- A token and the faults before it, on other lines. -/
def Lexed.mapLines (f : Nat → Nat) (lexed : Lexed) : Lexed where
  faults := lexed.faults.map fun fault => { fault with line := f fault.line }
  token := lexed.token.mapLine f

/-- A diagnostic on another line. -/
def Diagnostic.mapLine (f : Nat → Nat) (d : Diagnostic) : Diagnostic := { d with line := f d.line }

/-- An expression on other lines. -/
def Expr.mapLines (f : Nat → Nat) : Expr → Expr
  | literal value line => literal value (f line)
  | global name line => global name (f line)
  | assign name value => assign name (value.mapLines f)
  | group inner line => group (inner.mapLines f) (f line)
  | unary op operand => unary op (operand.mapLines f)
  | binary op left right => binary op (left.mapLines f) (right.mapLines f)

/-- A statement on other lines. -/
def Stmt.mapLines (f : Nat → Nat) : Stmt → Stmt
  | var name nameLine initial line =>
    var name (f nameLine) (initial.map (Expr.mapLines f)) (f line)
  | print value line => print (value.mapLines f) (f line)
  | expression value line => expression (value.mapLines f) (f line)

/-- A program on other lines. -/
def Program.mapLines (f : Nat → Nat) (program : Program) : Program :=
  ⟨program.statements.map (Stmt.mapLines f), f program.endLine⟩

/-- A lone expression on other lines. -/
def Query.mapLines (f : Nat → Nat) (query : Query) : Query :=
  ⟨query.expression.mapLines f, f query.endLine⟩

theorem Expr.lastLine_mapLines (f : Nat → Nat) (e : Expr) :
    (e.mapLines f).lastLine = f e.lastLine := by
  induction e with
  | assign name value ih => exact ih
  | unary op operand ih => exact ih
  | binary op left right _ ih => exact ih
  | _ => rfl

theorem Expr.constants_mapLines (f : Nat → Nat) (e : Expr) :
    (e.mapLines f).constants = e.constants := by
  induction e with
  | assign name value ih => rw [mapLines, constants, constants, ih]
  | group inner line ih => exact ih
  | unary op operand ih => exact ih
  | binary op left right ihleft ihright => rw [mapLines, constants, constants, ihleft, ihright]
  | _ => rfl

theorem Stmt.constants_mapLines (f : Nat → Nat) (statement : Stmt) :
    (statement.mapLines f).constants = statement.constants := by
  cases statement with
  | var name nameLine initial line =>
    cases initial with
    | none => rfl
    | some e => exact congrArg (_ :: ·) (e.constants_mapLines f)
  | print e line => exact e.constants_mapLines f
  | expression e line => exact e.constants_mapLines f

namespace Parser

variable {f : Nat → Nat} {nested : OperandParser}

/-- A parser that reads the same on other lines, and has done so before. -/
def mapLines (f : Nat → Nat) (p : Parser) : Parser :=
  { p with
    pending := p.pending.map (Lexed.mapLines f)
    current := p.current.mapLine f
    previous := p.previous.mapLine f
    diagnostics := p.diagnostics.map (Diagnostic.mapLine f) }

/-- What a call returns, on other lines. -/
def onLines {α : Type} (change : α → α) (f : Nat → Nat) (read : Option α × Parser) :
    Option α × Parser :=
  (read.1.map change, read.2.mapLines f)

section

variable (f : Nat → Nat) (p : Parser)

@[simp] theorem kind_current_mapLines : (p.mapLines f).current.kind = p.current.kind := rfl

@[simp] theorem lexeme_previous_mapLines :
    (p.mapLines f).previous.lexeme = p.previous.lexeme := rfl

@[simp] theorem panicking_mapLines : (p.mapLines f).panicking = p.panicking := rfl

@[simp] theorem overflowed_mapLines : (p.mapLines f).overflowed = p.overflowed := rfl

@[simp] theorem length_pending_mapLines :
    (p.mapLines f).pending.length = p.pending.length := List.length_map _

/-! ## moves -/

theorem record_mapLines (error : SyntaxError) (line : Nat) (place : Place) :
    (p.mapLines f).record error (f line) place = (p.record error line place).mapLines f := by
  unfold record
  rw [panicking_mapLines]
  split
  · rfl
  · simp [mapLines, Diagnostic.mapLine]

@[simp] theorem recordAt_mapLines (token : Token) (error : SyntaxError) :
    (p.mapLines f).recordAt (token.mapLine f) error = (p.recordAt token error).mapLines f :=
  record_mapLines f p error token.line token.place

theorem recordFaults_mapLines (lexed : Lexed) :
    (p.mapLines f).recordFaults (lexed.mapLines f).faults =
      (p.recordFaults lexed.faults).mapLines f := by
  obtain ⟨faults, token⟩ := lexed
  cases faults with
  | nil => rfl
  | cons fault faults =>
    simp only [Lexed.mapLines, List.map_cons, recordFaults_cons]
    exact record_mapLines ..

@[simp] theorem take_mapLines : (p.mapLines f).take = p.take.mapLines f := by
  cases hpending : p.pending with
  | nil => simp [take, mapLines, hpending]
  | cons lexed rest =>
    have hpending' : (p.mapLines f).pending = lexed.mapLines f :: rest.map (Lexed.mapLines f) := by
      rw [mapLines, hpending, List.map_cons]
    have hrecord := recordFaults_mapLines f p lexed
    simp only [take, hpending, hpending']
    rw [hrecord]
    rfl

@[simp] theorem request_mapLines (constant : Constant) :
    (p.mapLines f).request constant = (p.request constant).mapLines f := by
  unfold request
  by_cases hroom : p.constants.length < poolCapacity
  · rw [if_pos hroom, if_pos (show (p.mapLines f).constants.length < _ from hroom)]
    rfl
  · rw [if_neg hroom, if_neg (show ¬ (p.mapLines f).constants.length < _ from hroom)]
    have hasked := recordAt_mapLines f { p with constants := p.constants ++ [constant] }
      p.previous .tooManyConstants
    exact congrArg (fun q : Parser => { q with overflowed := true }) hasked

theorem expect_mapLines (kind : TokenKind) (error : SyntaxError) :
    (p.mapLines f).expect kind error = onLines (Token.mapLine f) f (p.expect kind error) := by
  by_cases hkind : p.current.kind = kind
  · rw [expect_of_eq hkind, expect_of_eq (by exact hkind), take_mapLines]
    rfl
  · rw [expect_of_ne hkind, expect_of_ne (by exact hkind)]
    exact Prod.ext rfl (recordAt_mapLines f p p.current error)

end

/-- A construct that is made from a part and the line of the token that closes
it. -/
theorem closed_mapLines {α β : Type} {change : α → α} {change' : β → β} {make : α → Nat → β}
    (h : ∀ part line, make (change part) (f line) = change' (make part line)) (part : Option α)
    (closing : Option Token) :
    make <$> part.map change <*> (closing.map (Token.mapLine f)).map Token.line =
      (make <$> part <*> closing.map Token.line).map change' := by
  cases part with
  | none => rfl
  | some part =>
    cases closing with
    | none => rfl
    | some token => exact congrArg some (h part token.line)

/-! ## expressions -/

/-- A parser of nested expressions that reads the same on other lines. -/
def Natural (f : Nat → Nat) (nested : OperandParser) : Prop :=
  ∀ floor p, nested floor (p.mapLines f) = onLines (Expr.mapLines f) f (nested floor p)

theorem pooled_mapLines (p : Parser) (constant : Constant) (value : Literal) :
    (p.mapLines f).pooled constant value =
      onLines (Expr.mapLines f) f (p.pooled constant value) := by
  rw [pooled, request_mapLines]
  rfl

theorem named_mapLines (hnested : Natural f nested) (assignable : Bool) (p : Parser) :
    named nested assignable (p.mapLines f) =
      onLines (Expr.mapLines f) f (named nested assignable p) := by
  simp only [named, lexeme_previous_mapLines, request_mapLines, kind_current_mapLines]
  split
  · rw [take_mapLines, hnested]
    simp only [onLines, Option.map_map]
    rfl
  · rfl

theorem grouped_mapLines (hnested : Natural f nested) (p : Parser) :
    grouped nested (p.mapLines f) = onLines (Expr.mapLines f) f (grouped nested p) := by
  simp only [grouped, hnested .assignment p, onLines, expect_mapLines]
  exact congrArg (·, _) (closed_mapLines (by intros; rfl) _ _)

theorem leading_mapLines (hnested : Natural f nested) (assignable : Bool) (form : PrefixForm)
    (p : Parser) :
    leading nested assignable form (p.mapLines f) =
      onLines (Expr.mapLines f) f (leading nested assignable form p) := by
  cases form with
  | atom value => rfl
  | number => exact pooled_mapLines p _ _
  | string => exact pooled_mapLines p _ _
  | name => exact named_mapLines hnested assignable p
  | group => exact grouped_mapLines hnested p
  | unary op =>
    simp only [leading, hnested .unary p, onLines, Option.map_map]
    rfl

theorem trailing_mapLines (hnested : Natural f nested) (floor : Precedence) (count : Nat)
    (left : Option Expr) (p : Parser) :
    trailing nested floor count (left.map (Expr.mapLines f)) (p.mapLines f) =
      onLines (Expr.mapLines f) f (trailing nested floor count left p) := by
  induction count generalizing left p with
  | zero => rfl
  | succ count ih =>
    by_cases hgo : ∃ op, p.current.kind.binaryOp? = some op ∧ floor ≤ op.precedence
    · obtain ⟨op, hop, hle⟩ := hgo
      have hjoined (right : Option Expr) :
          Expr.binary op <$> left.map (Expr.mapLines f) <*> right.map (Expr.mapLines f) =
            (Expr.binary op <$> left <*> right).map (Expr.mapLines f) := by
        cases left <;> cases right <;> rfl
      rw [trailing_go hop hle, trailing_go (p := p.mapLines f) hop hle, take_mapLines, hnested]
      simp only [onLines, hjoined]
      exact ih _ _
    · have hstop : ∀ op, p.current.kind.binaryOp? = some op → ¬ floor ≤ op.precedence :=
        fun op hop hle => hgo ⟨op, hop, hle⟩
      rw [trailing_stop hstop, trailing_stop (p := p.mapLines f) hstop]
      rfl

theorem settle_mapLines (assignable : Bool) (read : Option Expr × Parser) :
    settle assignable (onLines (Expr.mapLines f) f read) =
      onLines (Expr.mapLines f) f (settle assignable read) := by
  simp only [settle, onLines, kind_current_mapLines, take_mapLines]
  split
  · exact Prod.ext rfl (recordAt_mapLines ..)
  · rfl

theorem operand_mapLines (f : Nat → Nat) (levels : Nat) : Natural f (operand levels) := by
  induction levels with
  | zero => exact fun _ p => Prod.ext rfl (recordAt_mapLines f p p.current _)
  | succ levels ih =>
    intro floor p
    cases hform : p.current.kind.prefixForm? with
    | none =>
      rw [operand_of_none hform, operand_of_none (p := p.mapLines f) hform, take_mapLines]
      exact Prod.ext rfl (recordAt_mapLines f p.take p.current _)
    | some form =>
      rw [operand_of_some hform, operand_of_some (p := p.mapLines f) hform, take_mapLines]
      simp only [leading_mapLines ih]
      -- as many tokens are pending, so the loop has as many rounds left
      rw [← settle_mapLines, ← trailing_mapLines ih]
      simp only [onLines, length_pending_mapLines]

theorem expression_mapLines (p : Parser) :
    (p.mapLines f).expression = onLines (Expr.mapLines f) f p.expression :=
  operand_mapLines f nestingLimit .assignment p

/-! ## statements -/

theorem declaration_mapLines (p : Parser) :
    (p.mapLines f).declaration = onLines (Stmt.mapLines f) f p.declaration := by
  have hmade (name closing : Option Token) (initial : Option (Option Expr)) :
      ((fun name initial closing => Stmt.var name.lexeme name.line initial closing.line) <$>
          name.map (Token.mapLine f) <*> initial.map (Option.map (Expr.mapLines f)) <*>
          closing.map (Token.mapLine f)) =
        ((fun name initial closing => Stmt.var name.lexeme name.line initial closing.line) <$>
          name <*> initial <*> closing).map (Stmt.mapLines f) := by
    cases name <;> cases initial <;> cases closing <;> rfl
  simp only [declaration, expect_mapLines, onLines, lexeme_previous_mapLines, request_mapLines,
    kind_current_mapLines]
  split
  · simp only [take_mapLines, expression_mapLines, onLines, expect_mapLines, ← hmade,
      Option.map_map]
    rfl
  · simp only [expect_mapLines, onLines, ← hmade]
    rfl

theorem printing_mapLines (p : Parser) :
    (p.mapLines f).printing = onLines (Stmt.mapLines f) f p.printing := by
  simp only [printing, expression_mapLines, onLines, expect_mapLines]
  exact congrArg (·, _) (closed_mapLines (by intros; rfl) _ _)

theorem evaluation_mapLines (p : Parser) :
    (p.mapLines f).evaluation = onLines (Stmt.mapLines f) f p.evaluation := by
  simp only [evaluation, expression_mapLines, onLines, expect_mapLines]
  exact congrArg (·, _) (closed_mapLines (by intros; rfl) _ _)

theorem unrecovered_mapLines (p : Parser) :
    (p.mapLines f).unrecovered = onLines (Stmt.mapLines f) f p.unrecovered := by
  simp only [unrecovered, kind_current_mapLines, take_mapLines, declaration_mapLines,
    printing_mapLines, evaluation_mapLines]
  split
  · rfl
  · split <;> rfl

theorem skipToBoundary_mapLines (count : Nat) (p : Parser) :
    (p.mapLines f).skipToBoundary count = (p.skipToBoundary count).mapLines f := by
  induction count generalizing p with
  | zero => rfl
  | succ count ih =>
    have hboundary : (p.mapLines f).atBoundary = p.atBoundary := rfl
    rw [skipToBoundary, skipToBoundary, hboundary, take_mapLines, ih]
    split <;> rfl

theorem recover_mapLines (p : Parser) : (p.mapLines f).recover = p.recover.mapLines f := by
  rw [recover, length_pending_mapLines, skipToBoundary_mapLines]
  rfl

theorem statement_mapLines (p : Parser) :
    (p.mapLines f).statement = onLines (Stmt.mapLines f) f p.statement := by
  simp only [statement, unrecovered_mapLines, onLines, panicking_mapLines, recover_mapLines]
  split <;> rfl

theorem statements_mapLines (count : Nat) (p : Parser) :
    (p.mapLines f).statements count =
      ((p.statements count).1.map (Stmt.mapLines f), (p.statements count).2.mapLines f) := by
  induction count generalizing p with
  | zero => rfl
  | succ count ih =>
    simp only [statements, overflowed_mapLines, kind_current_mapLines, take_mapLines,
      statement_mapLines, onLines, ih]
    split
    · rfl
    · split
      · rfl
      · simp only [List.map_append]
        cases p.statement.1 <;> rfl

/-! ## sources -/

/-- Of the tokens ahead of a parser without flaws, the lines alone are changed. -/
theorem mapLines_quiet_congr {ahead ahead' : List Token} {previous : Token}
    {constants : List Constant} {taken : Nat}
    (h : ahead.map (Token.mapLine f) = ahead'.map (Token.mapLine f)) :
    (quiet previous ahead constants taken).mapLines f =
      (quiet previous ahead' constants taken).mapLines f := by
  have hcurrent (ahead : List Token) (last : Token) :
      (ahead.headD last).mapLine f = (ahead.map (Token.mapLine f)).headD (last.mapLine f) := by
    cases ahead <;> rfl
  have hpending (ahead : List Token) :
      (ahead.tail.map (Lexed.mk [])).map (Lexed.mapLines f) =
        (ahead.map (Token.mapLine f)).tail.map (Lexed.mk []) := by
    rw [List.map_map, ← List.map_tail, List.map_map]
    rfl
  simp only [mapLines, quiet, hcurrent, hpending, h]

/-- Two sources that differ in lines only when the parser starts are read as
programs that differ in lines only. -/
theorem program_congr {first second : Text}
    (h : (start first).mapLines f = (start second).mapLines f) :
    onLines (Program.mapLines f) f (program first) =
      onLines (Program.mapLines f) f (program second) := by
  have hread (source : Text) :
      onLines (Program.mapLines f) f (program source) =
        let p := (start source).mapLines f
        let read := p.statements (p.pending.length + 1)
        (some ⟨read.1, read.2.previous.line⟩, read.2) := by
    simp only [length_pending_mapLines, statements_mapLines]
    rfl
  rw [hread, hread, h]

theorem query_congr {first second : Text}
    (h : (start first).mapLines f = (start second).mapLines f) :
    onLines (Query.mapLines f) f (query first) = onLines (Query.mapLines f) f (query second) := by
  have hread (source : Text) :
      onLines (Query.mapLines f) f (query source) =
        let read := ((start source).mapLines f).expression
        let closing := read.2.expect .endOfInput .endExpected
        (Query.mk <$> read.1 <*> closing.1.map Token.line, closing.2) := by
    simp only [query, expression_mapLines, onLines, expect_mapLines]
    exact congrArg (·, _) (closed_mapLines (by intros; rfl) _ _).symm
  rw [hread, hread, h]

end Parser

end Lox
