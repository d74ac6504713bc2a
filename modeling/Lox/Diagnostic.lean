import Lox.Token.Scan

/-!
# Lox.Diagnostic

What is said about a source that is not accepted.

A diagnostic has a cause, a line and a place; the wording of a cause is in
`SyntaxError.message` alone.  A report is a diagnostic put into words, and
`Report.render` is the line that a reader of the error output sees.
-/

namespace Lox

/-- What a semicolon should have closed. -/
inductive Clause where
  | variableDeclaration | value | expression
  deriving DecidableEq, Repr

/-- Why a source is not accepted. -/
inductive SyntaxError where
  | lexical (error : LexicalError)
  | expressionExpected
  | nestedTooDeeply
  | invalidAssignmentTarget
  | variableNameExpected
  | semicolonExpected (after : Clause)
  | closingParenExpected
  | endExpected
  | tooManyConstants
  deriving DecidableEq, Repr

/-- How a clause is called in messages. -/
def Clause.description : Clause → Text
  | .variableDeclaration => text "variable declaration"
  | .value => text "value"
  | .expression => text "expression"

/-- The wording of a cause. -/
def SyntaxError.message : SyntaxError → Text
  | .lexical error => error.message
  | .expressionExpected => text "Expect expression."
  | .nestedTooDeeply => text "Expression too deeply nested."
  | .invalidAssignmentTarget => text "Invalid assignment target."
  | .variableNameExpected => text "Expect variable name."
  | .semicolonExpected after => text "Expect ';' after " ++ after.description ++ text "."
  | .closingParenExpected => text "Expect ')' after expression."
  | .endExpected => text "Expect end of expression."
  | .tooManyConstants => text "Too many constants in one chunk."

/-- Where in a line a diagnostic points; lexical errors point nowhere. -/
inductive Place where
  | nowhere
  | atEnd
  | atLexeme (lexeme : Text)
  deriving DecidableEq, Repr

/-- How a place is written: a lexeme stands in single quotes. -/
def Place.render : Place → Text
  | nowhere => []
  | atEnd => text "end"
  | atLexeme lexeme => text "'" ++ lexeme ++ text "'"

/-- The place of a token. -/
def Token.place (token : Token) : Place :=
  if token.kind = .endOfInput then .atEnd else .atLexeme token.lexeme

/-- An error in a source. -/
structure Diagnostic where
  error : SyntaxError
  line : Nat
  place : Place
  deriving DecidableEq, Repr

/-- A diagnostic in words. -/
structure Report where
  message : Text
  line : Int
  place : Text
  deriving DecidableEq, Repr

/-- Put a diagnostic into words. -/
def Diagnostic.report (d : Diagnostic) : Report := ⟨d.error.message, d.line, d.place.render⟩

/-- The line that tells a report; the place is left out if there is none. -/
def Report.render (r : Report) : Text :=
  let place := if r.place = [] then [] else text " at " ++ r.place
  text "[line " ++ Text.ofInt r.line ++ text "] Error" ++ place ++ text ": " ++ r.message

end Lox
