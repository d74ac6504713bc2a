import Lox.Parser.Program

/-!
# Lox.Proofs.Parser.Moves

What a parser does between two recoveries.

Every call of the parser is a sequence of moves of four kinds: it takes a token,
records an error at the token it looks at or at the one it took last, or asks for
a constant (`Move`).  Whatever single moves keep holds where a call returns
(`Moves.keeps`).
-/

namespace Lox

namespace Parser

/-- A single move of a parser.  That the pool is full is said by no other than
the request for a constant. -/
inductive Move (p : Parser) : Parser → Prop where
  | take : Move p p.take
  | blame (error : SyntaxError) (h : error ≠ .tooManyConstants) :
      Move p (p.recordAt p.current error)
  | blamePrevious (error : SyntaxError) (h : error ≠ .tooManyConstants) :
      Move p (p.recordAt p.previous error)
  | request (constant : Constant) : Move p (p.request constant)

/-- A sequence of moves. -/
inductive Moves (p : Parser) : Parser → Prop where
  | refl : Moves p p
  | move {q r : Parser} (h : Moves p q) (hmove : Move q r) : Moves p r

namespace Moves

variable {p q r : Parser}

theorem of_move (h : Move p q) : Moves p q := .move .refl h

theorem trans (h : Moves p q) (h' : Moves q r) : Moves p r := by
  induction h' with
  | refl => exact h
  | move _ hmove ih => exact ih.move hmove

/-- What every move keeps is kept by a sequence of them. -/
theorem keeps {property : Parser → Prop} (h : Moves p q)
    (hmove : ∀ {p q}, Move p q → property p → property q) (hp : property p) : property q := by
  induction h with
  | refl => exact hp
  | move _ hlast ih => exact hmove hlast ih

theorem take (p : Parser) : Moves p p.take := of_move .take

theorem request (p : Parser) (constant : Constant) : Moves p (p.request constant) :=
  of_move (.request constant)

theorem expect (p : Parser) (kind : TokenKind) {error : SyntaxError}
    (h : error ≠ .tooManyConstants) : Moves p (p.expect kind error).2 := by
  unfold Parser.expect
  split
  · exact take p
  · exact of_move (.blame error h)

/-! ## expressions -/

variable {nested : OperandParser}

/-- A name is asked for before anything else happens. -/
theorem named_request (hnested : ∀ floor p, Moves p (nested floor p).2) (assignable : Bool)
    (p : Parser) :
    Moves (p.request (.text p.previous.lexeme)) (Parser.named nested assignable p).2 := by
  simp only [Parser.named]
  split
  · exact (take _).trans (hnested _ _)
  · exact refl

theorem named (hnested : ∀ floor p, Moves p (nested floor p).2) (assignable : Bool) (p : Parser) :
    Moves p (Parser.named nested assignable p).2 :=
  (request p _).trans (named_request hnested assignable p)

theorem grouped (hnested : ∀ floor p, Moves p (nested floor p).2) (p : Parser) :
    Moves p (Parser.grouped nested p).2 :=
  (hnested .assignment p).trans (expect _ _ nofun)

theorem leading (hnested : ∀ floor p, Moves p (nested floor p).2) (assignable : Bool)
    (form : PrefixForm) (p : Parser) : Moves p (Parser.leading nested assignable form p).2 := by
  cases form with
  | atom value => exact refl
  | number => exact request p _
  | string => exact request p _
  | name => exact named hnested assignable p
  | group => exact grouped hnested p
  | unary op => exact hnested .unary p

theorem trailing (hnested : ∀ floor p, Moves p (nested floor p).2) (floor : Precedence)
    (count : Nat) (left : Option Expr) (p : Parser) :
    Moves p (Parser.trailing nested floor count left p).2 := by
  induction count generalizing left p with
  | zero => exact refl
  | succ count ih =>
    unfold Parser.trailing
    split
    · exact refl
    · split
      · exact (take p).trans ((hnested _ _).trans (ih _ _))
      · exact refl

/-- A call with levels left begins by taking a token. -/
theorem operand_take {levels : Nat}
    (hnested : ∀ floor p, Moves p (Parser.operand levels floor p).2) (floor : Precedence)
    (p : Parser) : Moves p.take (Parser.operand (levels + 1) floor p).2 := by
  simp only [Parser.operand]
  split
  · exact of_move (.blamePrevious _ nofun)
  · next form _ =>
    have htree (count : Nat) :=
      let left := Parser.leading (Parser.operand levels) (floor ≤ .assignment) form p.take
      (leading hnested _ form p.take).trans (trailing hnested floor count left.1 left.2)
    split
    · exact (htree _).trans ((take _).trans (of_move (.blamePrevious _ nofun)))
    · exact htree _

theorem operand (levels : Nat) (floor : Precedence) (p : Parser) :
    Moves p (Parser.operand levels floor p).2 := by
  induction levels generalizing floor p with
  | zero => exact of_move (.blame _ nofun)
  | succ levels ih => exact (take p).trans (operand_take ih floor p)

theorem expression (p : Parser) : Moves p p.expression.2 := operand ..

theorem expression_take (p : Parser) : Moves p.take p.expression.2 :=
  operand_take (operand _) .assignment p

/-! ## statements -/

theorem declaration_request (p : Parser) :
    let named := (p.expect .identifier .variableNameExpected).2
    Moves (named.request (.text named.previous.lexeme)) p.declaration.2 := by
  simp only [Parser.declaration]
  split
  · exact (take _).trans ((expression _).trans (expect _ _ nofun))
  · exact expect _ _ nofun

theorem declaration_expect (p : Parser) :
    Moves (p.expect .identifier .variableNameExpected).2 p.declaration.2 :=
  (request _ _).trans (declaration_request p)

theorem declaration (p : Parser) : Moves p p.declaration.2 := by
  have hname : Moves p (p.expect .identifier .variableNameExpected).2 := expect _ _ nofun
  exact hname.trans (declaration_expect p)

theorem printing (p : Parser) : Moves p p.printing.2 := (expression p).trans (expect _ _ nofun)

theorem evaluation_take (p : Parser) : Moves p.take p.evaluation.2 :=
  (expression_take p).trans (expect _ _ nofun)

/-- Every statement begins by taking a token. -/
theorem unrecovered_take (p : Parser) : Moves p.take p.unrecovered.2 := by
  unfold Parser.unrecovered
  split
  · exact declaration _
  · split
    · exact printing _
    · exact evaluation_take p

theorem skipToBoundary (count : Nat) (p : Parser) : Moves p (p.skipToBoundary count) := by
  induction count generalizing p with
  | zero => exact refl
  | succ count ih =>
    unfold Parser.skipToBoundary
    split
    · exact refl
    · exact (take p).trans (ih _)

end Moves

end Parser

end Lox
