import Lox.Parser.Expression

/-!
# Lox.Parser.Program

Parsing statements, programs and lone expressions.

Every statement takes at least one token, so the tokens of a source bound the
number of its statements.  A source is accepted if nothing was recorded
against it; the constants it asked for are part of the answer in any case,
because strings are allocated as they are asked for.
-/

namespace Lox

namespace Parser

/-! ## statements -/

/-- Parse a declaration whose `var` was just taken.  The name is asked for
before the initial value; if it is missing, the token taken last stands in
for it. -/
def declaration (p : Parser) : Option Stmt × Parser :=
  let (name, p) := p.expect .identifier .variableNameExpected
  let p := p.request (.text p.previous.lexeme)
  let (initial, p) : Option (Option Expr) × Parser :=
    if p.current.kind = .equal then
      let (value, p) := p.take.expression
      (value.map some, p)
    else
      (some none, p)
  let (closing, p) := p.expect .semicolon (.semicolonExpected .variableDeclaration)
  ((fun name initial closing => Stmt.var name.lexeme name.line initial closing.line)
      <$> name <*> initial <*> closing, p)

/-- Parse a statement that prints, whose `print` was just taken. -/
def printing (p : Parser) : Option Stmt × Parser :=
  let (value, p) := p.expression
  let (closing, p) := p.expect .semicolon (.semicolonExpected .value)
  (Stmt.print <$> value <*> closing.map Token.line, p)

/-- Parse an expression that stands as a statement. -/
def evaluation (p : Parser) : Option Stmt × Parser :=
  let (value, p) := p.expression
  let (closing, p) := p.expect .semicolon (.semicolonExpected .expression)
  (Stmt.expression <$> value <*> closing.map Token.line, p)

/-- Parse a statement by its first token. -/
def unrecovered (p : Parser) : Option Stmt × Parser :=
  if p.current.kind = .keyword .varWord then p.take.declaration
  else if p.current.kind = .keyword .printWord then p.take.printing
  else p.evaluation

/-- Parse a statement, and recover if that left the parser panicking. -/
def statement (p : Parser) : Option Stmt × Parser :=
  let (parsed, p) := p.unrecovered
  (parsed, if p.panicking then p.recover else p)

/-- Parse statements up to the end marker, at most `count` of them; an
overflow of the pool ends the parse. -/
def statements : Nat → Parser → List Stmt × Parser
  | 0, p => ([], p)
  | count + 1, p =>
    if p.overflowed then ([], p)
    else if p.current.kind = .endOfInput then ([], p.take)
    else
      let (parsed, p) := p.statement
      let (rest, p) := statements count p
      (parsed.toList ++ rest, p)

/-! ## sources -/

/-- Parse a source as a program. -/
def program (source : Text) : Option Program × Parser :=
  let p := start source
  let (statements, p) := p.statements (p.pending.length + 1)
  (some ⟨statements, p.previous.line⟩, p)

/-- Parse a source as an expression that stands alone. -/
def query (source : Text) : Option Query × Parser :=
  let (tree, p) := (start source).expression
  let (closing, p) := p.expect .endOfInput .endExpected
  (Query.mk <$> tree <*> closing.map Token.line, p)

end Parser

/-! ## results -/

/-- What a source was found to be: a tree or the errors in it, and the
constants it asked for. -/
structure Parsed (α : Type) where
  result : Except (List Diagnostic) α
  constants : List Constant

namespace Parsed

/-- The answer of a parser that has finished, perhaps with a tree. -/
def ofParser {α : Type} : Option α × Parser → Parsed α
  | (tree, p) =>
    match tree, p.diagnostics with
    | some tree, [] => ⟨.ok tree, p.constants⟩
    | _, diagnostics => ⟨.error diagnostics, p.constants⟩

end Parsed

/-- Parse a program. -/
def Program.parse (source : Text) : Parsed Program := .ofParser (Parser.program source)

/-- Parse an expression that stands alone. -/
def Query.parse (source : Text) : Parsed Query := .ofParser (Parser.query source)

end Lox
