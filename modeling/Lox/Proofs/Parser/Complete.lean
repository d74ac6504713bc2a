import Lox.Proofs.Parser.Quiet

/-!
# Lox.Proofs.Parser.Complete

What the grammar derives, the parser reads.

Reading a phrase by precedence goes along its left spine: the first token
begins the leftmost operand, and each operator on the spine is taken by the
same call that began.  `Level.Reaches` says that the call gets to the end of
the phrase with the right tree; it is proved one rule of the grammar at a
time.  A token that stops the level then ends the call
(`Level.Reaches.operand`).
-/

namespace Lox

open Lox.Parser

/-- A call that began before a phrase comes to its end, with its tree as the
left operand of what follows.  The call may have begun on a looser level than
that of the phrase. -/
def Level.Reaches (level : Level) (tokens : List Token) (e : Expr) : Prop :=
  ∀ (floor : Level) (levels : Nat) (previous next : Token) (rest : List Token)
    (constants : List Constant) (taken : Nat),
    floor.precedence ≤ level.precedence →
    e.nesting ≤ levels + 1 →
    constants.length + e.constants.length ≤ poolCapacity →
    level.Follows next →
    (floor = .expression → next.kind ≠ .equal) →
    ∃ count previous' taken', rest.length ≤ count ∧
      operand (levels + 1) floor.precedence
          (quiet previous (tokens ++ next :: rest) constants taken) =
        settle (floor.precedence ≤ .assignment)
          (trailing (operand levels) floor.precedence count (some e)
            (quiet previous' (next :: rest) (constants ++ e.constants) taken'))

/-- The parser reads a literal, asking for its pool entry if it needs one. -/
theorem Denotes.leading {token : Token} {value : Literal} {constants : List Constant}
    (h : Denotes token.kind token.lexeme value) (rest : List Token) (taken : Nat)
    (hroom : constants.length + value.constant?.toList.length ≤ poolCapacity) :
    ∃ form, token.kind.prefixForm? = some form ∧ ∀ nested assignable,
      Parser.leading nested assignable form (quiet token rest constants taken) =
        (some (.literal value token.line),
          quiet token rest (constants ++ value.constant?.toList) taken) := by
  obtain ⟨kind, lexeme, line⟩ := token
  cases h with
  | nil | true | false =>
    refine ⟨_, rfl, fun nested assignable => ?_⟩
    simp [Parser.leading, Literal.constant?]
  | number | string =>
    refine ⟨_, rfl, fun nested assignable => ?_⟩
    simp [Parser.leading, pooled, request_quiet (Nat.lt_of_succ_le hroom), Literal.constant?]

namespace Level

variable {level : Level} {tokens : List Token} {e : Expr} {previous next token : Token}
  {rest : List Token} {constants : List Constant} {taken : Nat}

/-! ## ends of a call -/

theorem Stops.trailing {nested : OperandParser} (h : level.Stops next) (count : Nat)
    (left : Option Expr) :
    Parser.trailing nested level.precedence count left
        (quiet previous (next :: rest) constants taken) =
      (left, quiet previous (next :: rest) constants taken) := by
  cases count with
  | zero => rfl
  | succ count =>
    simp only [Parser.trailing, current_quiet]
    split
    · rfl
    · next op hop => rw [if_neg (h.operator op hop)]

theorem settle_of_ne {floor : Level} (h : floor = .expression → next.kind ≠ .equal)
    (left : Option Expr) :
    settle (floor.precedence ≤ .assignment)
        (left, quiet previous (next :: rest) constants taken) =
      (left, quiet previous (next :: rest) constants taken) := by
  simp only [settle, current_quiet]
  refine if_neg fun hsign => ?_
  simp only [Bool.and_eq_true, decide_eq_true_eq, beq_iff_eq] at hsign
  exact h (eq_expression_of_precedence_le hsign.1) hsign.2

/-- A call at the level of a phrase reads the phrase, if the next token ends
it. -/
theorem Reaches.operand (h : level.Reaches tokens e) {levels : Nat} (previous : Token)
    (rest : List Token) (taken : Nat) (hdepth : e.nesting ≤ levels)
    (hroom : constants.length + e.constants.length ≤ poolCapacity) (hnext : level.Stops next) :
    ∃ previous' taken',
      Parser.operand levels level.precedence
          (quiet previous (tokens ++ next :: rest) constants taken) =
        (some e, quiet previous' (next :: rest) (constants ++ e.constants) taken') := by
  have hpos := e.nesting_pos
  obtain ⟨levels, rfl⟩ : ∃ n, levels = n + 1 := ⟨levels - 1, by omega⟩
  obtain ⟨count, previous', taken', -, hread⟩ :=
    h level levels previous next rest constants taken (Precedence.le_refl _) hdepth hroom
      hnext.follows hnext.sign
  exact ⟨previous', taken', by rw [hread, hnext.trailing, settle_of_ne hnext.sign]⟩

/-! ## one rule at a time -/

theorem Reaches.tighter (h : level.next.Reaches tokens e) : level.Reaches tokens e := by
  intro floor levels previous next rest constants taken hfloor hdepth hroom hnext hsign
  exact h floor levels previous next rest constants taken
    (Precedence.le_trans hfloor level.precedence_le_next) hdepth hroom hnext.tighter hsign

theorem reaches_literal {value : Literal} (h : Denotes token.kind token.lexeme value) :
    primary.Reaches [token] (.literal value token.line) := by
  intro floor levels previous next rest constants taken hfloor hdepth hroom hnext hsign
  obtain ⟨form, hform, hleading⟩ := h.leading (next :: rest) (taken + 1) hroom
  refine ⟨rest.length, token, taken + 1, Nat.le_refl _, ?_⟩
  rw [List.singleton_append, operand_quiet hform]
  simp only [hleading, length_pending_quiet, Expr.constants]

theorem reaches_global (h : token.kind = .identifier) :
    primary.Reaches [token] (.global token.lexeme token.line) := by
  intro floor levels previous next rest constants taken hfloor hdepth hroom hnext hsign
  have hlt : constants.length < poolCapacity := by simp [Expr.constants] at hroom; omega
  refine ⟨rest.length, token, taken + 1, Nat.le_refl _, ?_⟩
  rw [List.singleton_append, operand_quiet (by rw [h]; rfl)]
  have hread : named (Parser.operand levels) (floor.precedence ≤ .assignment)
      (quiet token (next :: rest) constants (taken + 1)) =
        (some (.global token.lexeme token.line),
          quiet token (next :: rest) (constants ++ [.text token.lexeme]) (taken + 1)) := by
    simp only [named, previous_quiet, request_quiet hlt, current_quiet]
    refine if_neg fun hassign => ?_
    simp only [Bool.and_eq_true, decide_eq_true_eq, beq_iff_eq] at hassign
    exact hsign (eq_expression_of_precedence_le hassign.1) hassign.2
  simp only [leading, hread, length_pending_quiet, Expr.constants]

theorem Reaches.assign {name sign : Token} (hname : name.kind = .identifier)
    (hsign : sign.kind = .equal) (h : expression.Reaches tokens e)
    (hne : tokens ≠ []) :
    expression.Reaches (name :: sign :: tokens) (.assign name.lexeme e) := by
  intro floor levels previous next rest constants taken hfloor hdepth hroom hnext hequal
  obtain rfl : floor = .expression := eq_expression_of_precedence_le hfloor
  simp only [Expr.nesting, Expr.constants, List.length_cons] at hdepth hroom
  have hstops : expression.Stops next := by
    constructor
    · intro op hop hle
      exact op.not_precedence_le_assignment (hnext op hop)
    · exact hequal
  have hinner : e.nesting ≤ levels := by omega
  have hroom' : (constants ++ [Constant.text name.lexeme]).length + e.constants.length ≤
      poolCapacity := by
    simp only [List.length_append, List.length_singleton]
    omega
  obtain ⟨previous', taken', hread⟩ := h.operand sign rest (taken + 1 + 1) hinner hroom' hstops
  obtain ⟨first, more, rfl⟩ := List.exists_cons_of_ne_nil hne
  refine ⟨rest.length, previous', taken', Nat.le_refl _, ?_⟩
  have hlt : constants.length < poolCapacity := by omega
  simp only [List.cons_append] at hread ⊢
  rw [operand_quiet (by rw [hname]; rfl)]
  simp only [leading, named, previous_quiet, request_quiet hlt, current_quiet, hsign, take_quiet]
  have hassign : (decide (expression.precedence ≤ .assignment) && TokenKind.equal == .equal) =
      true := by decide
  rw [if_pos hassign]
  have hread' : Parser.operand levels .assignment _ = _ := hread
  simp [hread', Expr.constants]

theorem Reaches.binary {sign : Token} {op : BinaryOp} {before after : List Token}
    {left right : Expr} (hsign : Joins level sign.kind op) (hleft : level.Reaches before left)
    (hright : level.next.Reaches after right) (hne : after ≠ []) :
    level.Reaches (before ++ sign :: after) (.binary op left right) := by
  intro floor levels previous next rest constants taken hfloor hdepth hroom hnext hequal
  simp only [Expr.nesting, Expr.constants, List.length_append] at hdepth hroom
  -- up to the operator the call is as for the left operand alone
  have hjoins : level.Follows sign := by
    intro other hother
    rw [hsign.binaryOp?] at hother
    obtain rfl := Option.some.inj hother
    rw [hsign.precedence]
    exact Precedence.le_refl _
  obtain ⟨count, previous', taken', hcount, hspine⟩ :=
    hleft floor levels previous sign (after ++ next :: rest) constants taken hfloor (by omega)
      (by omega) hjoins fun _ => hsign.ne_equal
  simp only [List.length_append, List.length_cons] at hcount
  obtain ⟨count, rfl⟩ : ∃ n, count = n + 1 := ⟨count - 1, by omega⟩
  -- the operator is taken, and its right operand read as a whole
  have hinner : right.nesting ≤ levels := by omega
  have hroom' : (constants ++ left.constants).length + right.constants.length ≤ poolCapacity := by
    simp only [List.length_append]
    omega
  obtain ⟨previous'', taken'', hread⟩ :=
    hright.operand sign rest (taken' + 1) hinner hroom' (hnext.stops_next hsign)
  refine ⟨count, previous'', taken'', by omega, ?_⟩
  obtain ⟨first, more, rfl⟩ := List.exists_cons_of_ne_nil hne
  have hle : floor.precedence ≤ op.precedence := hsign.precedence ▸ hfloor
  simp only [List.append_assoc, List.cons_append] at hspine hread ⊢
  rw [hspine]
  simp only [trailing, current_quiet, hsign.binaryOp?, if_pos hle, take_quiet, hsign.tighter,
    hread, Expr.constants]
  rfl

theorem Reaches.unary {sign : Token} {op : UnaryOp} (hsign : Signs sign.kind op)
    (h : Level.unary.Reaches tokens e) (hne : tokens ≠ []) :
    Level.unary.Reaches (sign :: tokens) (.unary op e) := by
  intro floor levels previous next rest constants taken hfloor hdepth hroom hnext hequal
  simp only [Expr.nesting, Expr.constants] at hdepth hroom
  have hinner : e.nesting ≤ levels := by omega
  obtain ⟨previous', taken', hread⟩ :=
    h.operand sign rest (taken + 1) hinner hroom (stops_unary next)
  obtain ⟨first, more, rfl⟩ := List.exists_cons_of_ne_nil hne
  refine ⟨rest.length, previous', taken', Nat.le_refl _, ?_⟩
  simp only [List.cons_append] at hread ⊢
  rw [operand_quiet hsign.prefixForm?]
  have hread' : Parser.operand levels .unary _ = _ := hread
  simp [leading, hread', Expr.constants]

theorem Reaches.group {opening closing : Token} (hopening : opening.kind = .leftParen)
    (hclosing : closing.kind = .rightParen) (h : expression.Reaches tokens e)
    (hne : tokens ≠ []) :
    primary.Reaches (opening :: tokens ++ [closing]) (.group e closing.line) := by
  intro floor levels previous next rest constants taken hfloor hdepth hroom hnext hequal
  simp only [Expr.nesting, Expr.constants] at hdepth hroom
  have hinner : e.nesting ≤ levels := by omega
  have hstops : expression.Stops closing := stops_of_kind hclosing rfl (by decide) _
  obtain ⟨previous', taken', hread⟩ :=
    h.operand opening (next :: rest) (taken + 1) hinner hroom hstops
  obtain ⟨first, more, rfl⟩ := List.exists_cons_of_ne_nil hne
  refine ⟨rest.length, closing, taken' + 1, Nat.le_refl _, ?_⟩
  simp only [List.cons_append, List.append_assoc, List.nil_append] at hread ⊢
  rw [operand_quiet (by rw [hopening]; rfl)]
  have hread' : Parser.operand levels .assignment _ = _ := hread
  simp only [leading, grouped, hread', expect_quiet hclosing, length_pending_quiet,
    Expr.constants]
  rfl

/-! ## all rules -/

theorem Derives.ne_nil (h : level.Derives tokens e) : tokens ≠ [] := by
  obtain ⟨token, rest, rfl, -⟩ := h.exists_cons
  simp

theorem Derives.reaches (h : level.Derives tokens e) : level.Reaches tokens e := by
  induction h with
  | tighter _ ih => exact ih.tighter
  | assign hname hsign inner ih => exact ih.assign hname hsign inner.ne_nil
  | binary hsign _ hright ihl ihr => exact ihl.binary hsign ihr hright.ne_nil
  | unary hsign inner ih => exact ih.unary hsign inner.ne_nil
  | literal h => exact reaches_literal h
  | global h => exact reaches_global h
  | group hopening hclosing inner ih => exact ih.group hopening hclosing inner.ne_nil

end Level

end Lox
