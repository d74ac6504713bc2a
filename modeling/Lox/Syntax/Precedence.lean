import Lox.Syntax
import Lox.Token

/-!
# Lox.Syntax.Precedence

How tokens take part in expressions.

A token may begin an expression (`TokenKind.prefixForm?`), stand between two
operands (`TokenKind.binaryOp?`), or neither; the minus sign may do both.
Binary operators bind by precedence, and an operator's right operand binds
one step tighter than the operator itself, which makes equal precedences
associate to the left.
-/

namespace Lox

/-! ## precedences -/

/-- How tightly an operator binds, from loosest to tightest. -/
inductive Precedence where
  | lowest | assignment | disjunction | conjunction | equality | comparison
  | term | factor | unary | call | primary
  deriving DecidableEq, Repr

namespace Precedence

/-- The position in the order of precedences. -/
def rank : Precedence → Nat
  | lowest => 0
  | assignment => 1
  | disjunction => 2
  | conjunction => 3
  | equality => 4
  | comparison => 5
  | term => 6
  | factor => 7
  | unary => 8
  | call => 9
  | primary => 10

/-- The next tighter precedence. -/
def tighter : Precedence → Precedence
  | lowest => assignment
  | assignment => disjunction
  | disjunction => conjunction
  | conjunction => equality
  | equality => comparison
  | comparison => term
  | term => factor
  | factor => unary
  | unary => call
  | call => primary
  | primary => primary

instance : LE Precedence := ⟨fun a b => a.rank ≤ b.rank⟩

instance (a b : Precedence) : Decidable (a ≤ b) := inferInstanceAs (Decidable (a.rank ≤ b.rank))

theorem le_iff_rank_le {a b : Precedence} : a ≤ b ↔ a.rank ≤ b.rank := Iff.rfl

end Precedence

/-- How tightly a binary operator binds. -/
def BinaryOp.precedence : BinaryOp → Precedence
  | equal | notEqual => .equality
  | greater | greaterEqual | less | lessEqual => .comparison
  | add | subtract => .term
  | multiply | divide => .factor

/-! ## roles of tokens -/

/-- What a token that begins an expression begins. -/
inductive PrefixForm where
  | atom (value : Literal)
  | number
  | string
  | name
  | group
  | unary (op : UnaryOp)
  deriving DecidableEq

namespace TokenKind

/-- What a kind of token begins at the start of an expression, if anything. -/
def prefixForm? : TokenKind → Option PrefixForm
  | leftParen => some .group
  | minus => some (.unary .negate)
  | bang => some (.unary .not)
  | identifier => some .name
  | string => some .string
  | number => some .number
  | keyword .nilWord => some (.atom .nil)
  | keyword .falseWord => some (.atom (.bool false))
  | keyword .trueWord => some (.atom (.bool true))
  | _ => none

/-- The operator that a kind of token is between two operands, if any. -/
def binaryOp? : TokenKind → Option BinaryOp
  | plus => some .add
  | minus => some .subtract
  | star => some .multiply
  | slash => some .divide
  | equalEqual => some .equal
  | bangEqual => some .notEqual
  | greater => some .greater
  | greaterEqual => some .greaterEqual
  | less => some .less
  | lessEqual => some .lessEqual
  | _ => none

/-- How tightly a kind of token binds what stands before it. -/
def precedence (kind : TokenKind) : Precedence :=
  match kind.binaryOp? with
  | some op => op.precedence
  | none => .lowest

end TokenKind

end Lox
