import Lox.Parser.Expression

/-!
# Lox.Proofs.Grammar

The grammar of the language, over tokens.

```
program     → declaration* end
declaration → "var" IDENT ( "=" expression )? ";"
            | "print" expression ";"
            | expression ";"
expression  → IDENT "=" expression | equality
equality    → equality   ( "==" | "!=" ) comparison             | comparison
comparison  → comparison ( ">" | ">=" | "<" | "<=" ) term       | term
term        → term       ( "+" | "-" ) factor                   | factor
factor      → factor     ( "*" | "/" ) unary                    | unary
unary       → ( "-" | "!" ) unary                               | primary
primary     → NUMBER | STRING | "nil" | "true" | "false" | IDENT | "(" expression ")"
```

Each rule is a constructor that relates the tokens it takes to the tree they
stand for.  The grammar knows nothing of precedences as numbers, of limits or
of errors: that the parser accepts exactly these token sequences, within its
limits, is what the modules beside this one prove.
-/

namespace Lox

/-! ## levels -/

/-- The nonterminals of the expression grammar, from loosest to tightest. -/
inductive Level where
  | expression | equality | comparison | term | factor | unary | primary
  deriving DecidableEq, Repr

/-- The nonterminal that each level falls back on. -/
def Level.next : Level → Level
  | expression => equality
  | equality => comparison
  | comparison => term
  | term => factor
  | factor => unary
  | unary => primary
  | primary => primary

/-- The tokens that join two operands on a level, and the operators they
are. -/
inductive Joins : Level → TokenKind → BinaryOp → Prop where
  | equal : Joins .equality .equalEqual .equal
  | notEqual : Joins .equality .bangEqual .notEqual
  | greater : Joins .comparison .greater .greater
  | greaterEqual : Joins .comparison .greaterEqual .greaterEqual
  | less : Joins .comparison .less .less
  | lessEqual : Joins .comparison .lessEqual .lessEqual
  | add : Joins .term .plus .add
  | subtract : Joins .term .minus .subtract
  | multiply : Joins .factor .star .multiply
  | divide : Joins .factor .slash .divide

/-- The tokens that stand before an operand, and the operators they are. -/
inductive Signs : TokenKind → UnaryOp → Prop where
  | negate : Signs .minus .negate
  | not : Signs .bang .not

/-- The tokens that are literals, and what they stand for: a number is read
from its lexeme, a string is what its lexeme has between the quotes. -/
inductive Denotes : TokenKind → Text → Literal → Prop where
  | nil (lexeme : Text) : Denotes (.keyword .nilWord) lexeme .nil
  | true (lexeme : Text) : Denotes (.keyword .trueWord) lexeme (.bool true)
  | false (lexeme : Text) : Denotes (.keyword .falseWord) lexeme (.bool false)
  | number (lexeme : Text) : Denotes .number lexeme (.number (Decimal.read lexeme))
  | string (lexeme : Text) : Denotes .string lexeme (.string (Parser.unquote lexeme))

theorem Parser.unquote_quoted (content : Text) :
    unquote (quote :: content ++ [quote]) = content := by simp [unquote]

/-! ## expressions -/

/-- The tokens that a level derives, with the tree they stand for. -/
inductive Level.Derives : Level → List Token → Expr → Prop where
  | tighter {level : Level} {tokens : List Token} {e : Expr}
      (inner : level.next.Derives tokens e) : level.Derives tokens e
  | assign {name sign : Token} {tokens : List Token} {value : Expr}
      (hname : name.kind = .identifier) (hsign : sign.kind = .equal)
      (inner : Level.expression.Derives tokens value) :
      Level.expression.Derives (name :: sign :: tokens) (.assign name.lexeme value)
  | binary {level : Level} {sign : Token} {op : BinaryOp} {before after : List Token}
      {left right : Expr} (hsign : Joins level sign.kind op)
      (hleft : level.Derives before left) (hright : level.next.Derives after right) :
      level.Derives (before ++ sign :: after) (.binary op left right)
  | unary {sign : Token} {op : UnaryOp} {tokens : List Token} {operand : Expr}
      (hsign : Signs sign.kind op) (inner : Level.unary.Derives tokens operand) :
      Level.unary.Derives (sign :: tokens) (.unary op operand)
  | literal {token : Token} {value : Literal} (h : Denotes token.kind token.lexeme value) :
      Level.primary.Derives [token] (.literal value token.line)
  | global {token : Token} (h : token.kind = .identifier) :
      Level.primary.Derives [token] (.global token.lexeme token.line)
  | group {opening closing : Token} {tokens : List Token} {inner : Expr}
      (hopening : opening.kind = .leftParen) (hclosing : closing.kind = .rightParen)
      (hinner : Level.expression.Derives tokens inner) :
      Level.primary.Derives (opening :: tokens ++ [closing]) (.group inner closing.line)

/-- How deep an expression is nested.  A left operand is as deep as the whole,
every other part is one deeper. -/
def Expr.nesting : Expr → Nat
  | literal _ _ => 1
  | global _ _ => 1
  | assign _ value => 1 + value.nesting
  | group inner _ => 1 + inner.nesting
  | unary _ operand => 1 + operand.nesting
  | binary _ left right => max left.nesting (1 + right.nesting)

theorem Expr.nesting_pos (e : Expr) : 0 < e.nesting := by
  induction e with
  | binary _ left right ihl ihr => simp only [nesting]; omega
  | _ => simp only [nesting]; omega

/-! ## statements and programs -/

/-- The tokens of a declaration. -/
inductive Stmt.Derives : List Token → Stmt → Prop where
  | declare {intro name semicolon : Token} (hintro : intro.kind = .keyword .varWord)
      (hname : name.kind = .identifier) (hsemicolon : semicolon.kind = .semicolon) :
      Stmt.Derives [intro, name, semicolon] (.var name.lexeme name.line none semicolon.line)
  | define {intro name sign semicolon : Token} {tokens : List Token} {initial : Expr}
      (hintro : intro.kind = .keyword .varWord) (hname : name.kind = .identifier)
      (hsign : sign.kind = .equal) (hinitial : Level.expression.Derives tokens initial)
      (hsemicolon : semicolon.kind = .semicolon) :
      Stmt.Derives (intro :: name :: sign :: tokens ++ [semicolon])
        (.var name.lexeme name.line (some initial) semicolon.line)
  | print {intro semicolon : Token} {tokens : List Token} {value : Expr}
      (hintro : intro.kind = .keyword .printWord) (hvalue : Level.expression.Derives tokens value)
      (hsemicolon : semicolon.kind = .semicolon) :
      Stmt.Derives (intro :: tokens ++ [semicolon]) (.print value semicolon.line)
  | expression {semicolon : Token} {tokens : List Token} {value : Expr}
      (hvalue : Level.expression.Derives tokens value) (hsemicolon : semicolon.kind = .semicolon) :
      Stmt.Derives (tokens ++ [semicolon]) (.expression value semicolon.line)

/-- The tokens of consecutive declarations. -/
inductive Stmt.DerivesAll : List Token → List Stmt → Prop where
  | nil : Stmt.DerivesAll [] []
  | cons {tokens more : List Token} {statement : Stmt} {rest : List Stmt}
      (head : statement.Derives tokens) (tail : Stmt.DerivesAll more rest) :
      Stmt.DerivesAll (tokens ++ more) (statement :: rest)

/-- The tokens of a program, up to the end marker. -/
def Program.Derives (tokens : List Token) (program : Program) : Prop :=
  ∃ body last, tokens = body ++ [last] ∧ last.kind = .endOfInput ∧
    Stmt.DerivesAll body program.statements ∧ program.endLine = last.line

/-- The tokens of a lone expression, up to the end marker. -/
def Query.Derives (tokens : List Token) (query : Query) : Prop :=
  ∃ body last, tokens = body ++ [last] ∧ last.kind = .endOfInput ∧
    Level.expression.Derives body query.expression ∧ query.endLine = last.line

/-- The expression of a declaration, if it has one. -/
def Stmt.expression? : Stmt → Option Expr
  | var _ _ initial _ => initial
  | print value _ => some value
  | expression value _ => some value

/-- The expression of a statement, if it has one, is nested within the
limit. -/
def Stmt.Shallow (statement : Stmt) : Prop :=
  ∀ e, statement.expression? = some e → e.nesting ≤ nestingLimit

/-! ## constants -/

/-- Kinds of token that take an entry of the constant pool. -/
def TokenKind.isPooled : TokenKind → Bool
  | number | string | identifier => true
  | _ => false

/-- How many tokens of a sequence take an entry of the constant pool. -/
def pooledTokens (tokens : List Token) : Nat := tokens.countP (·.kind.isPooled)

end Lox
