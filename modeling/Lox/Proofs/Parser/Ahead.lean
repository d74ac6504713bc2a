import Lox.Proofs.Parser.Statement

/-!
# Lox.Proofs.Parser.Ahead

The tokens that a parser has ahead, and its calls by the first of them.

What a parser looks at and what is pending is one list of tokens
(`Parser.ahead`), which taking a token shortens.  For whoever compares or
follows parsers, every call has an equation for each kind of first token, free
of what the call counts or has taken before.
-/

namespace Lox

/-- The last of these tokens is the only end marker among them. -/
def Sealed (ahead : List Token) : Prop :=
  ∃ init last, ahead = init ++ [last] ∧ last.kind = .endOfInput ∧
    ∀ token ∈ init, token.kind ≠ .endOfInput

namespace Sealed

variable {token : Token} {tokens rest : List Token}

theorem ended (h : Sealed tokens) : Ended tokens := by
  obtain ⟨init, last, heq, hlast, -⟩ := h
  exact ⟨init, last, heq, hlast⟩

theorem suffix (h : Sealed (tokens ++ rest)) (hrest : rest ≠ []) : Sealed rest := by
  obtain ⟨init, last, heq, hlast, hothers⟩ := h
  obtain ⟨first, final, rfl⟩ := (List.eq_nil_or_concat rest).resolve_left hrest
  rw [List.concat_eq_append, ← List.append_assoc] at heq
  obtain ⟨rfl, hfinal⟩ := List.append_inj' heq rfl
  obtain rfl := List.singleton_inj.1 hfinal
  exact ⟨first, final, List.concat_eq_append .., hlast,
    fun token htoken => hothers token (List.mem_append_right _ htoken)⟩

/-- Nothing follows an end marker. -/
theorem eq_nil (h : Sealed (token :: rest)) (hkind : token.kind = .endOfInput) : rest = [] := by
  obtain ⟨init, last, heq, -, hothers⟩ := h
  cases init with
  | nil => simp_all
  | cons first init =>
    obtain ⟨rfl, -⟩ := List.cons.inj heq
    exact absurd hkind (hothers _ (.head _))

end Sealed

theorem Terminated.sealed {all : List Lexed} (h : Terminated all) :
    Sealed (all.map Lexed.token) := by
  obtain ⟨init, last, rfl, hlast, hothers⟩ := h
  exact ⟨init.map Lexed.token, last.token, by simp, hlast, by simpa using hothers⟩

namespace Parser

variable {p : Parser} {levels count : Nat} {floor : Precedence} {form : PrefixForm}
  {nested : OperandParser} {left : Option Expr} {op : BinaryOp}

/-- The tokens ahead, up to the end marker; the first is the one looked at. -/
def ahead (p : Parser) : List Token := p.current :: p.pending.map Lexed.token

/-! ## records -/

@[simp] theorem taken_record (p : Parser) (error : SyntaxError) (line : Nat) (place : Place) :
    (p.record error line place).taken = p.taken := by
  unfold record
  split <;> rfl

@[simp] theorem constants_record (p : Parser) (error : SyntaxError) (line : Nat) (place : Place) :
    (p.record error line place).constants = p.constants := by
  unfold record
  split <;> rfl

@[simp] theorem overflowed_record (p : Parser) (error : SyntaxError) (line : Nat)
    (place : Place) : (p.record error line place).overflowed = p.overflowed := by
  unfold record
  split <;> rfl

@[simp] theorem previous_record (p : Parser) (error : SyntaxError) (line : Nat) (place : Place) :
    (p.record error line place).previous = p.previous := by
  unfold record
  split <;> rfl

@[simp] theorem ahead_record (p : Parser) (error : SyntaxError) (line : Nat) (place : Place) :
    (p.record error line place).ahead = p.ahead := by
  simp [ahead]

@[simp] theorem ahead_recordAt (p : Parser) (token : Token) (error : SyntaxError) :
    (p.recordAt token error).ahead = p.ahead := ahead_record ..

theorem recordFaults_of_panicking (h : p.panicking = true) (faults : List LexicalFault) :
    p.recordFaults faults = p := by
  induction faults with
  | nil => rfl
  | cons fault faults ih =>
    rw [recordFaults, List.foldl_cons, record, if_pos h]
    exact ih

/-- Of several faults on the way to a token only the first is recorded. -/
theorem recordFaults_cons (p : Parser) (fault : LexicalFault) (faults : List LexicalFault) :
    p.recordFaults (fault :: faults) = p.record (.lexical fault.error) fault.line .nowhere := by
  have hrecord : (p.record (.lexical fault.error) fault.line .nowhere).panicking = true := by
    unfold record
    split
    · assumption
    · rfl
  exact recordFaults_of_panicking hrecord faults

@[simp] theorem constants_recordFaults (p : Parser) (faults : List LexicalFault) :
    (p.recordFaults faults).constants = p.constants := by
  cases faults with
  | nil => rfl
  | cons fault faults => rw [recordFaults_cons, constants_record]

@[simp] theorem overflowed_recordFaults (p : Parser) (faults : List LexicalFault) :
    (p.recordFaults faults).overflowed = p.overflowed := by
  cases faults with
  | nil => rfl
  | cons fault faults => rw [recordFaults_cons, overflowed_record]

/-! ## taking tokens -/

@[simp] theorem previous_take (p : Parser) : p.take.previous = p.current := by
  unfold take
  split <;> rfl

@[simp] theorem pending_take (p : Parser) : p.take.pending = p.pending.tail := by
  unfold take
  split <;> simp [*]

theorem length_pending_take (p : Parser) : p.take.pending.length = p.pending.length - 1 := by
  rw [pending_take, List.length_tail]

@[simp] theorem constants_take (p : Parser) : p.take.constants = p.constants := by
  unfold take
  split <;> simp

@[simp] theorem taken_take (p : Parser) : p.take.taken = p.taken + 1 := by
  unfold take
  split <;> rfl

@[simp] theorem overflowed_take (p : Parser) : p.take.overflowed = p.overflowed := by
  unfold take
  split <;> simp

/-- Asking for a constant moves nothing but the pool and perhaps a record. -/
theorem ahead_request (p : Parser) (constant : Constant) :
    (p.request constant).ahead = p.ahead := by
  unfold request
  split
  · rfl
  · simp only [recordAt, ahead, current_record, pending_record]

theorem previous_request (p : Parser) (constant : Constant) :
    (p.request constant).previous = p.previous := by
  unfold request
  split
  · rfl
  · exact previous_record ..

theorem pending_request (p : Parser) (constant : Constant) :
    (p.request constant).pending = p.pending := by
  unfold request
  split
  · rfl
  · exact pending_record ..

/-- What is taken is the first of the tokens ahead, unless it is the last. -/
theorem ahead_take (h : p.pending ≠ []) : p.ahead = p.current :: p.take.ahead := by
  obtain ⟨⟨faults, token⟩, rest, hpending⟩ := List.exists_cons_of_ne_nil h
  simp [ahead, take, hpending]

theorem ahead_take_of_nil (h : p.pending = []) : p.take.ahead = p.ahead := by
  simp [ahead, take, h]

theorem kind_of_pending_eq_nil (hended : Ended p.ahead) (h : p.pending = []) :
    p.current.kind = .endOfInput := by
  rw [ahead, h] at hended
  exact hended.kind_of_singleton

/-- Before the end something is pending. -/
theorem pending_ne_nil (hended : Ended p.ahead) (h : p.current.kind ≠ .endOfInput) :
    p.pending ≠ [] := fun hnil => h (kind_of_pending_eq_nil hended hnil)

theorem sealed_take (h : Sealed p.ahead) : Sealed p.take.ahead := by
  by_cases hpending : p.pending = []
  · rwa [ahead_take_of_nil hpending]
  · rw [ahead_take hpending, ← List.singleton_append] at h
    exact h.suffix (by simp [ahead])

theorem pending_eq_nil_iff (h : Sealed p.ahead) :
    p.pending = [] ↔ p.current.kind = .endOfInput :=
  ⟨kind_of_pending_eq_nil h.ended, fun hkind => by simpa using h.eq_nil hkind⟩

/-- A parser that accounts for all tokens has the rest of them ahead. -/
theorem Accounts.sealed {all : List Lexed} (h : p.Accounts all) (hall : Terminated all) :
    Sealed p.ahead := by
  obtain ⟨passed, lexed, rfl, hcurrent, -⟩ := h
  have hsealed := hall.sealed
  rw [List.map_append, List.map_cons, hcurrent] at hsealed
  exact hsealed.suffix (by simp)

theorem ahead_start (source : Text) : (start source).ahead = (lex source).map Lexed.token := by
  obtain ⟨init, last, heq, -, -⟩ := terminated_lex source
  cases init <;> simp [start, take, ahead, heq]

theorem length_pending_start (source : Text) :
    (start source).pending.length = (tokensOf source).length := by
  simp [start, tokensOf]

theorem sealed_start (source : Text) : Sealed (start source).ahead := by
  rw [ahead_start]
  exact (terminated_lex source).sealed

/-- Every statement takes a token. -/
theorem length_pending_statement (hended : Ended p.ahead) (hgo : p.current.kind ≠ .endOfInput) :
    p.statement.2.pending.length < p.pending.length := by
  have hsuffix := (Leads.statement_take p).suffix.length_le
  have hlength := List.length_pos_iff.2 (pending_ne_nil hended hgo)
  rw [length_pending_take] at hsuffix
  omega

/-- At a boundary nothing is skipped. -/
theorem skipToBoundary_of_atBoundary (h : p.atBoundary = true) (count : Nat) :
    p.skipToBoundary count = p := by
  cases count with
  | zero => rfl
  | succ count => rw [skipToBoundary, if_pos h]

theorem recover_of_atBoundary (h : p.atBoundary = true) :
    p.recover = { p with panicking := false } := by
  rw [recover, skipToBoundary_of_atBoundary h]

/-- No statement leaves a parser panicking. -/
theorem panicking_statement (p : Parser) : p.statement.2.panicking = false := by
  simp only [statement]
  split
  · rfl
  · next h => simpa using h

theorem diagnostics_take_of_nil (h : p.pending = []) : p.take.diagnostics = p.diagnostics := by
  simp [take, h]

/-! ## room in the pool -/

/-- Every token ahead fits into the pool. -/
structure Roomy (p : Parser) : Prop where
  overflowed : p.overflowed = false
  room : p.constants.length + p.pending.length ≤ poolCapacity

theorem request_of_lt (h : p.constants.length < poolCapacity) (constant : Constant) :
    p.request constant = { p with constants := p.constants ++ [constant] } := by
  unfold request
  rw [if_pos h]

namespace Roomy

theorem recordAt (h : p.Roomy) (token : Token) (error : SyntaxError) :
    (p.recordAt token error).Roomy :=
  ⟨by simpa [Parser.recordAt] using h.overflowed, by simpa [Parser.recordAt] using h.room⟩

theorem take (h : p.Roomy) : p.take.Roomy := by
  refine ⟨by simpa using h.overflowed, ?_⟩
  have hroom := h.room
  rw [constants_take, length_pending_take]
  omega

/-- A token taken leaves room for one constant. -/
theorem lt_take (h : p.Roomy) (hpending : p.pending ≠ []) :
    p.take.constants.length + p.take.pending.length < poolCapacity := by
  have hlength := List.length_pos_iff.2 hpending
  have hroom := h.room
  rw [constants_take, length_pending_take]
  omega

theorem request (h : p.Roomy)
    (hroom : p.constants.length + p.pending.length < poolCapacity) (constant : Constant) :
    (p.request constant).Roomy := by
  rw [request_of_lt (by omega)]
  refine ⟨h.overflowed, ?_⟩
  simp only [List.length_append, List.length_singleton]
  omega

end Roomy

/-! ## calls by their first token -/

/-- A token that begins an expression is no end of anything. -/
theorem ne_of_prefixForm? {kind other : TokenKind} (h : kind.prefixForm? = some form)
    (hother : other.prefixForm? = none) : kind ≠ other := by
  rintro rfl
  simp [hother] at h

theorem ne_of_binaryOp? {kind other : TokenKind} (h : kind.binaryOp? = some op)
    (hother : other.binaryOp? = none) : kind ≠ other := by
  rintro rfl
  simp [hother] at h

theorem operand_of_none (h : p.current.kind.prefixForm? = none) (levels : Nat)
    (floor : Precedence) :
    operand (levels + 1) floor p = (none, p.take.recordAt p.current .expressionExpected) := by
  simp only [operand, previous_take, h]

theorem operand_of_some (h : p.current.kind.prefixForm? = some form) (levels : Nat)
    (floor : Precedence) :
    operand (levels + 1) floor p =
      let left := leading (operand levels) (floor ≤ .assignment) form p.take
      settle (floor ≤ .assignment)
        (trailing (operand levels) floor left.2.pending.length left.1 left.2) := by
  simp only [operand, previous_take, h, settle]

/-- Before an operator that binds too loosely, or none, the loop ends. -/
theorem trailing_stop
    (h : ∀ op, p.current.kind.binaryOp? = some op → ¬ floor ≤ op.precedence)
    (nested : OperandParser) (count : Nat) (left : Option Expr) :
    trailing nested floor count left p = (left, p) := by
  cases count with
  | zero => rfl
  | succ count =>
    unfold trailing
    split
    · rfl
    · next op hop => rw [if_neg (h op hop)]

theorem trailing_go (hop : p.current.kind.binaryOp? = some op) (hle : floor ≤ op.precedence)
    (nested : OperandParser) (count : Nat) (left : Option Expr) :
    trailing nested floor (count + 1) left p =
      let right := nested op.precedence.tighter p.take
      trailing nested floor count (Expr.binary op <$> left <*> right.1) right.2 := by
  simp only [trailing, hop, if_pos hle]

theorem settle_of_ne {assignable : Bool} {parsed : Option Expr × Parser}
    (h : assignable = true → parsed.2.current.kind ≠ .equal) :
    settle assignable parsed = parsed := by
  cases assignable with
  | false => rfl
  | true => simp [settle, h rfl]

theorem settle_of_equal {parsed : Option Expr × Parser} (h : parsed.2.current.kind = .equal) :
    settle true parsed =
      (none, parsed.2.take.recordAt parsed.2.current .invalidAssignmentTarget) := by
  simp [settle, h]

theorem expect_of_eq {kind : TokenKind} (h : p.current.kind = kind) (error : SyntaxError) :
    p.expect kind error = (some p.current, p.take) := if_pos h

theorem expect_of_ne {kind : TokenKind} (h : p.current.kind ≠ kind) (error : SyntaxError) :
    p.expect kind error = (none, p.recordAt p.current error) := if_neg h

/-- The parser of a declaration, once it has asked for the declared name. -/
def introduced (p : Parser) : Parser :=
  let named := (p.expect .identifier .variableNameExpected).2
  named.request (.text named.previous.lexeme)

theorem Leads.introduced (p : Parser) : Leads p p.introduced :=
  (Leads.expect _ _ _).trans (.request _ _)

theorem introduced_of_name (h : p.current.kind = .identifier) :
    p.introduced = p.take.request (.text p.current.lexeme) := by
  simp [introduced, expect_of_eq h]

theorem introduced_of_ne (h : p.current.kind ≠ .identifier) :
    p.introduced =
      (p.recordAt p.current .variableNameExpected).request (.text p.previous.lexeme) := by
  simp [introduced, expect_of_ne h, recordAt]

theorem declaration_of_equal (h : p.introduced.current.kind = .equal) :
    p.declaration.2 = (p.introduced.take.expression.2.expect .semicolon
      (.semicolonExpected .variableDeclaration)).2 := by
  unfold introduced at h
  simp only [declaration, if_pos h]
  rfl

theorem declaration_of_ne (h : p.introduced.current.kind ≠ .equal) :
    p.declaration.2 =
      (p.introduced.expect .semicolon (.semicolonExpected .variableDeclaration)).2 := by
  unfold introduced at h
  simp only [declaration, if_neg h]
  rfl

/-! ## what a move does not look at -/

theorem recordFaults_previous (p : Parser) (faults : List LexicalFault) (token : Token) :
    ({ p with previous := token } : Parser).recordFaults faults =
      { p.recordFaults faults with previous := token } := by
  cases faults with
  | nil => rfl
  | cons fault faults =>
    simp only [recordFaults_cons, record]
    split <;> rfl

theorem take_previous (p : Parser) (token : Token) :
    ({ p with previous := token } : Parser).take = p.take := by
  simp only [take, recordFaults_previous]

theorem operand_previous (levels : Nat) (floor : Precedence) (p : Parser) (token : Token) :
    operand (levels + 1) floor { p with previous := token } = operand (levels + 1) floor p := by
  simp only [operand, take_previous]

/-- A statement is read the same whatever was taken before it. -/
theorem statement_previous (p : Parser) (token : Token) :
    ({ p with previous := token } : Parser).statement = p.statement := by
  have hexpression : ({ p with previous := token } : Parser).expression = p.expression :=
    operand_previous 255 .assignment p token
  simp only [statement, unrecovered, take_previous, evaluation, hexpression]
  rfl

theorem diagnostics_statements_previous (count : Nat) (p : Parser) (token : Token) :
    (({ p with previous := token } : Parser).statements count).2.diagnostics =
      (p.statements count).2.diagnostics := by
  cases count with
  | zero => rfl
  | succ count =>
    simp only [statements, statement_previous, take_previous]
    split
    · rfl
    · rfl

end Parser

end Lox
