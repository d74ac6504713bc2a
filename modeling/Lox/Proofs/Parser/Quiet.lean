import Lox.Proofs.Parser.Account
import Lox.Proofs.Parser.Binding

/-!
# Lox.Proofs.Parser.Quiet

Parsers that have met no flaw.

Such a parser is determined by the tokens ahead of it, the constants asked for
and the token taken last (`Parser.quiet`), and its moves are moves on these.
Whatever goes wrong leaves a diagnostic, after which the parser is quiet no
more.
-/

namespace Lox

namespace Parser

/-- The parser without flaws that has `ahead` to read, the first of which it
looks at. -/
def quiet (previous : Token) (ahead : List Token) (constants : List Constant) (taken : Nat) :
    Parser where
  pending := ahead.tail.map (Lexed.mk [])
  current := ahead.headD ⟨.endOfInput, [], 1⟩
  previous := previous
  panicking := false
  diagnostics := []
  constants := constants
  overflowed := false
  taken := taken

variable {previous token next : Token} {ahead rest : List Token} {constants : List Constant}
  {taken : Nat}

@[simp] theorem current_quiet :
    (quiet previous (token :: rest) constants taken).current = token := rfl

@[simp] theorem previous_quiet :
    (quiet previous ahead constants taken).previous = previous := rfl

@[simp] theorem length_pending_quiet :
    (quiet previous (token :: rest) constants taken).pending.length = rest.length := by
  simp [quiet]

/-! ## moves -/

@[simp] theorem take_quiet :
    (quiet previous (token :: next :: rest) constants taken).take =
      quiet token (next :: rest) constants (taken + 1) := rfl

/-- The last token is never passed. -/
@[simp] theorem take_quiet_last :
    (quiet previous [token] constants taken).take = quiet token [token] constants (taken + 1) := rfl

theorem expect_quiet {kind : TokenKind} (h : token.kind = kind) (error : SyntaxError) :
    (quiet previous (token :: next :: rest) constants taken).expect kind error =
      (some token, quiet token (next :: rest) constants (taken + 1)) := by
  simp [expect, h]

theorem request_quiet (h : constants.length < poolCapacity) (constant : Constant) :
    (quiet previous ahead constants taken).request constant =
      quiet previous ahead (constants ++ [constant]) taken := by
  show ite (constants.length < poolCapacity) _ _ = _
  rw [if_pos h]
  rfl

/-! ## complaints -/

theorem recordAt_quiet_ne_nil (token : Token) (error : SyntaxError) :
    ((quiet previous ahead constants taken).recordAt token error).diagnostics ≠ [] :=
  diagnostics_record_ne_nil rfl _ _ _

theorem expect_quiet_ne_nil {kind : TokenKind} (h : token.kind ≠ kind) (error : SyntaxError) :
    ((quiet previous (token :: rest) constants taken).expect kind error).2.diagnostics ≠ [] := by
  show (ite (token.kind = kind) _ _ : Option Token × Parser).2.diagnostics ≠ []
  rw [if_neg h]
  exact recordAt_quiet_ne_nil token error

theorem request_quiet_ne_nil (h : ¬ constants.length < poolCapacity) (constant : Constant) :
    ((quiet previous ahead constants taken).request constant).diagnostics ≠ [] := by
  show (ite (constants.length < poolCapacity) _ _ : Parser).diagnostics ≠ []
  rw [if_neg h]
  exact diagnostics_record_ne_nil rfl _ _ _

/-! ## expressions -/

/-- The end of `operand`: an equals sign after what might have been the target
of an assignment. -/
def settle (assignable : Bool) (parsed : Option Expr × Parser) : Option Expr × Parser :=
  if assignable && parsed.2.current.kind == .equal then
    (none, parsed.2.take.recordAt parsed.2.take.previous .invalidAssignmentTarget)
  else
    parsed

theorem Leads.settle (assignable : Bool) (parsed : Option Expr × Parser) :
    Leads parsed.2 (settle assignable parsed).2 := by
  unfold Parser.settle
  split
  · exact (Leads.take _).trans (Leads.recordAt _ _ _)
  · exact Leads.refl _

theorem operand_quiet {form : PrefixForm} (h : token.kind.prefixForm? = some form) (levels : Nat)
    (floor : Precedence) :
    operand (levels + 1) floor (quiet previous (token :: next :: rest) constants taken) =
      let left := leading (operand levels) (floor ≤ .assignment) form
        (quiet token (next :: rest) constants (taken + 1))
      settle (floor ≤ .assignment)
        (trailing (operand levels) floor left.2.pending.length left.1 left.2) := by
  simp only [operand, take_quiet, previous_quiet, h, settle]
  rfl

end Parser

/-! ## where a level ends -/

/-- After a phrase of this level a token may stand that joins it to more on
the same level or a looser one. -/
def Level.Follows (level : Level) (next : Token) : Prop :=
  ∀ op, next.kind.binaryOp? = some op → op.precedence ≤ level.precedence

/-- A token ends a phrase of this level: no operator that the level would take
in, and no equals sign where an assignment could have stood. -/
structure Level.Stops (level : Level) (next : Token) : Prop where
  operator : ∀ op, next.kind.binaryOp? = some op → ¬ level.precedence ≤ op.precedence
  sign : level = .expression → next.kind ≠ .equal

namespace Level

variable {level : Level} {next : Token}

theorem Stops.follows (h : level.Stops next) : level.Follows next := fun op hop =>
  (Nat.le_total _ _).resolve_left (h.operator op hop)

theorem Follows.tighter (h : level.Follows next) : level.next.Follows next := fun op hop =>
  Precedence.le_trans (h op hop) level.precedence_le_next

theorem follows_unary (next : Token) : unary.Follows next := fun op _ => op.precedence_le_unary

theorem follows_primary (next : Token) : primary.Follows next :=
  fun op _ => op.precedence_le_primary

/-- Every token ends a phrase of the level of unary operators. -/
theorem stops_unary (next : Token) : unary.Stops next :=
  ⟨fun op _ => op.not_unary_le_precedence, by simp⟩

/-- A token that is neither an operator nor an equals sign ends every
phrase. -/
theorem stops_of_kind {kind : TokenKind} (hkind : next.kind = kind)
    (hoperator : kind.binaryOp? = none) (hsign : kind ≠ .equal) (level : Level) :
    level.Stops next :=
  ⟨by simp [hkind, hoperator], fun _ => hkind ▸ hsign⟩

/-- What joins two operands on a level ends the right one. -/
theorem Follows.stops_next {op : BinaryOp} {kind : TokenKind} (hsign : Joins level kind op)
    (h : level.Follows next) : level.next.Stops next := by
  refine ⟨fun other hother => ?_, ?_⟩
  · have hle := h other hother
    cases hsign <;> cases other <;> revert hle <;> decide
  · intro hlevel
    cases hsign <;> cases hlevel

end Level

end Lox
