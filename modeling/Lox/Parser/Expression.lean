import Lox.Parser

/-!
# Lox.Parser.Expression

Parsing expressions by precedence.

`Parser.operand levels floor` parses the longest expression whose operators
bind at least as tightly as `floor`, with `levels` nested expressions left.
A first token begins the expression (`leading`), then binary operators are
taken as long as they bind tightly enough (`trailing`).  Both get the parser
for nested expressions as an argument, so that the recursion is on `levels`
alone: each nesting spends one.

An expression that contains an error has no tree, but it is parsed to its end
all the same: what it takes and asks for decides what is said about the rest
of the source.
-/

namespace Lox

namespace Parser

/-- A parser of nested expressions of at least some precedence. -/
abbrev OperandParser := Precedence → Parser → Option Expr × Parser

/-- The content of a string token: what stands between its quotes. -/
def unquote (lexeme : Text) : Text := (lexeme.drop 1).dropLast

/-- Parse a literal that needs a pool entry. -/
def pooled (p : Parser) (constant : Constant) (value : Literal) : Option Expr × Parser :=
  (some (.literal value p.previous.line), p.request constant)

/-- Parse a name just taken: an assignment if one may stand here and an equals
sign follows, otherwise the value of the variable. -/
def named (nested : OperandParser) (assignable : Bool) (p : Parser) : Option Expr × Parser :=
  let name := p.previous.lexeme
  let line := p.previous.line
  let asked := p.request (.text name)
  if assignable && asked.current.kind == .equal then
    let (value, p) := nested .assignment asked.take
    (value.map (.assign name), p)
  else
    (some (.global name line), asked)

/-- Parse a group whose opening parenthesis was just taken. -/
def grouped (nested : OperandParser) (p : Parser) : Option Expr × Parser :=
  let (inner, p) := nested .assignment p
  let (closing, p) := p.expect .rightParen .closingParenExpected
  (Expr.group <$> inner <*> closing.map Token.line, p)

/-- Parse what the token just taken begins. -/
def leading (nested : OperandParser) (assignable : Bool) (form : PrefixForm) (p : Parser) :
    Option Expr × Parser :=
  match form with
  | .atom value => (some (.literal value p.previous.line), p)
  | .number =>
    let value := Decimal.read p.previous.lexeme
    p.pooled (.number value) (.number value)
  | .string =>
    let content := unquote p.previous.lexeme
    p.pooled (.text content) (.string content)
  | .name => named nested assignable p
  | .group => grouped nested p
  | .unary op =>
    let (operand, p) := nested .unary p
    (operand.map (.unary op), p)

/-- Take binary operators that bind at least as tightly as `floor`, each with
its right operand.  Every operator is followed by a token still pending, so
the number of those bounds the operators to come. -/
def trailing (nested : OperandParser) (floor : Precedence) :
    Nat → Option Expr → Parser → Option Expr × Parser
  | 0, left, p => (left, p)
  | count + 1, left, p =>
    match p.current.kind.binaryOp? with
    | none => (left, p)
    | some op =>
      if floor ≤ op.precedence then
        let (right, p) := nested op.precedence.tighter p.take
        trailing nested floor count (Expr.binary op <$> left <*> right) p
      else
        (left, p)

/-- Parse an expression of at least some precedence.  An equals sign that
follows an expression which might have been the target of an assignment is an
error. -/
def operand : Nat → OperandParser
  | 0, _, p => (none, p.recordAt p.current .nestedTooDeeply)
  | levels + 1, floor, p =>
    let p := p.take
    match p.previous.kind.prefixForm? with
    | none => (none, p.recordAt p.previous .expressionExpected)
    | some form =>
      let assignable : Bool := floor ≤ .assignment
      let (left, p) := leading (operand levels) assignable form p
      let (tree, p) := trailing (operand levels) floor p.pending.length left p
      if assignable && p.current.kind == .equal then
        let p := p.take
        (none, p.recordAt p.previous .invalidAssignmentTarget)
      else
        (tree, p)

/-- Parse an expression. -/
def expression (p : Parser) : Option Expr × Parser := operand nestingLimit .assignment p

end Parser

end Lox
