import Lox.Text

/-!
# Lox.Token

The vocabulary of the language: keywords, kinds of token, tokens.

A keyword is an identifier-shaped word that is reserved as a whole;
`Keyword.ofText?` recognises exactly the sixteen spellings, and
`TokenKind.ofWord` makes every other word an identifier.
-/

namespace Lox

/-! ## keywords -/

/-- The reserved words. -/
inductive Keyword where
  | andWord | classWord | elseWord | falseWord | forWord | funWord | ifWord | nilWord
  | orWord | printWord | returnWord | superWord | thisWord | trueWord | varWord | whileWord
  deriving DecidableEq, Repr

namespace Keyword

/-- How a keyword is written. -/
def spelling : Keyword → Text
  | andWord => text "and"
  | classWord => text "class"
  | elseWord => text "else"
  | falseWord => text "false"
  | forWord => text "for"
  | funWord => text "fun"
  | ifWord => text "if"
  | nilWord => text "nil"
  | orWord => text "or"
  | printWord => text "print"
  | returnWord => text "return"
  | superWord => text "super"
  | thisWord => text "this"
  | trueWord => text "true"
  | varWord => text "var"
  | whileWord => text "while"

/-- Every keyword, in alphabetical order. -/
def all : List Keyword :=
  [andWord, classWord, elseWord, falseWord, forWord, funWord, ifWord, nilWord,
   orWord, printWord, returnWord, superWord, thisWord, trueWord, varWord, whileWord]

/-- The keyword with the given spelling, if the word is reserved. -/
def ofText? (word : Text) : Option Keyword := all.find? (·.spelling = word)

theorem mem_all (k : Keyword) : k ∈ all := by cases k <;> decide

/-- A keyword is found by its own spelling. -/
@[simp] theorem ofText?_spelling (k : Keyword) : ofText? k.spelling = some k := by
  cases k <;> decide

/-- Only the spelling of a keyword is found. -/
theorem spelling_of_ofText? {word : Text} {k : Keyword} (h : ofText? word = some k) :
    k.spelling = word := by
  simpa using List.find?_some h

end Keyword

/-! ## kinds of token -/

/-- The kinds of token; a keyword is a kind of its own, and `endOfInput`
follows the last token of every source. -/
inductive TokenKind where
  | leftParen | rightParen | leftBrace | rightBrace
  | comma | dot | minus | plus | semicolon | slash | star
  | bang | bangEqual | equal | equalEqual | greater | greaterEqual | less | lessEqual
  | identifier | string | number
  | keyword (word : Keyword)
  | endOfInput
  deriving DecidableEq, Repr

namespace TokenKind

/-- The kind of a word: a keyword if the whole word is reserved, otherwise an
identifier. -/
def ofWord (word : Text) : TokenKind :=
  match Keyword.ofText? word with
  | some k => .keyword k
  | none => .identifier

@[simp] theorem ofWord_spelling (k : Keyword) : ofWord k.spelling = .keyword k := by
  simp [ofWord]

end TokenKind

/-! ## tokens -/

/-- A token: its kind, the units it spans, and the line on which it ends. -/
structure Token where
  kind : TokenKind
  lexeme : Text
  line : Nat
  deriving DecidableEq, Repr

end Lox
