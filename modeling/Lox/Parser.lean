import Lox.Diagnostic
import Lox.Syntax.Precedence

/-!
# Lox.Parser

The state of a parser and its moves.

A parser looks at one token (`current`) and remembers the one before it
(`previous`).  The first error since the last statement boundary is recorded
and makes the parser panic: it goes on taking tokens and asking for constants
as before, but records nothing until `recover` has found the next
boundary.

Constants are asked for in the order of the source.  Only `poolCapacity` of
them fit in a pool; asking for one more is an error, and ends the parse with
the statement at hand.
-/

namespace Lox

/-- The state of a parser: tokens not yet looked at, the token looked at, the
token taken last, whether an error is unrecovered, the errors recorded, the
constants asked for, whether the pool overflowed, and how many tokens were
taken. -/
structure Parser where
  pending : List Lexed
  current : Token
  previous : Token
  panicking : Bool
  diagnostics : List Diagnostic
  constants : List Constant
  overflowed : Bool
  taken : Nat

namespace Parser

/-! ## errors -/

/-- Record an error, unless an earlier one is unrecovered. -/
def record (p : Parser) (error : SyntaxError) (line : Nat) (place : Place) : Parser :=
  if p.panicking then p
  else { p with panicking := true, diagnostics := p.diagnostics ++ [⟨error, line, place⟩] }

/-- Record an error at a token. -/
def recordAt (p : Parser) (token : Token) (error : SyntaxError) : Parser :=
  p.record error token.line token.place

/-- Record the lexical faults passed on the way to a token. -/
def recordFaults (p : Parser) (faults : List LexicalFault) : Parser :=
  faults.foldl (fun p fault => p.record (.lexical fault.error) fault.line .nowhere) p

/-! ## taking tokens -/

/-- Take the current token and look at the next one.  The end marker is
never passed. -/
def take (p : Parser) : Parser :=
  match p.pending with
  | [] => { p with previous := p.current, taken := p.taken + 1 }
  | ⟨faults, token⟩ :: rest =>
    { p.recordFaults faults with
      pending := rest, current := token, previous := p.current, taken := p.taken + 1 }

/-- Take a token of the given kind, or record an error at the current one. -/
def expect (p : Parser) (kind : TokenKind) (error : SyntaxError) : Option Token × Parser :=
  if p.current.kind = kind then (some p.current, p.take)
  else (none, p.recordAt p.current error)

/-- The parser that looks at the first token of a source. -/
def start (source : Text) : Parser :=
  let origin : Token := ⟨.endOfInput, [], 1⟩
  take ⟨lex source, origin, origin, false, [], [], false, 0⟩

/-! ## constants -/

/-- Ask for a pool entry.  An entry that does not fit is an error at the token
taken last. -/
def request (p : Parser) (constant : Constant) : Parser :=
  let asked := { p with constants := p.constants ++ [constant] }
  if p.constants.length < poolCapacity then asked
  else { asked.recordAt p.previous .tooManyConstants with overflowed := true }

/-! ## recovery -/

/-- Kinds of token that begin a statement. -/
def beginsStatement : TokenKind → Bool
  | .keyword .classWord | .keyword .funWord | .keyword .varWord | .keyword .forWord
  | .keyword .ifWord | .keyword .whileWord | .keyword .printWord | .keyword .returnWord => true
  | _ => false

/-- Is the parser between two statements, or at the end? -/
def atBoundary (p : Parser) : Bool :=
  p.current.kind == .endOfInput || p.previous.kind == .semicolon || beginsStatement p.current.kind

/-- Take tokens up to a boundary, at most `count` of them. -/
def skipToBoundary : Nat → Parser → Parser
  | 0, p => p
  | count + 1, p => if p.atBoundary then p else skipToBoundary count p.take

/-- Recover from an error at the next boundary.  Each token taken is one of
those pending, so their number bounds the search. -/
def recover (p : Parser) : Parser :=
  { skipToBoundary p.pending.length p with panicking := false }

end Parser

end Lox
