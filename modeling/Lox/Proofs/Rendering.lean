import Lox.Proofs.Acceptance
import Lox.Proofs.Content
import Lox.Proofs.Encoding
import Lox.Proofs.Lexical

/-!
# Lox.Proofs.Rendering

Trees written as texts, and the code of a text.

A tree has no parentheses and no lines.  It is written with parentheses where
an operator binds too loosely for its place, and anywhere else at will
(`Renders`).  Whatever parentheses and layout a text chooses, it compiles to
the operations of its tree in post-order.
-/

namespace Lox

/-! ## trees -/

/-- Expressions without parentheses. -/
inductive Tree where
  | literal (value : Literal)
  | global (name : Text)
  | assign (name : Text) (value : Tree)
  | unary (op : UnaryOp) (operand : Tree)
  | binary (op : BinaryOp) (left right : Tree)
  deriving DecidableEq

namespace Tree

/-- The constants of a tree from left to right, the assigned name before what
it is assigned. -/
def constants : Tree → List Constant
  | literal value => value.constant?.toList
  | global name => [.text name]
  | assign name value => .text name :: value.constants
  | unary _ operand => operand.constants
  | binary _ left right => left.constants ++ right.constants

/-- The bytes of a literal, whose constant is the next one if it needs one. -/
def literalBytes (entry : Nat) : Literal → List UInt8
  | .nil => [Opcode.pushNil.byte]
  | .bool true => [Opcode.pushTrue.byte]
  | .bool false => [Opcode.pushFalse.byte]
  | .number _ => [Opcode.constant.byte, UInt8.ofNat entry]
  | .string _ => [Opcode.constant.byte, UInt8.ofNat entry]

/-- The bytes of an operator: three comparisons are the others, negated. -/
def operatorBytes : BinaryOp → List UInt8
  | .add => [Opcode.add.byte]
  | .subtract => [Opcode.subtract.byte]
  | .multiply => [Opcode.multiply.byte]
  | .divide => [Opcode.divide.byte]
  | .equal => [Opcode.equal.byte]
  | .notEqual => [Opcode.equal.byte, Opcode.not.byte]
  | .greater => [Opcode.greater.byte]
  | .greaterEqual => [Opcode.less.byte, Opcode.not.byte]
  | .less => [Opcode.less.byte]
  | .lessEqual => [Opcode.greater.byte, Opcode.not.byte]

/-- The bytes of a tree in post-order, operands from left to right and then
the operator.  Constants are numbered on from `entry` in the order of
`constants`. -/
def bytes (entry : Nat) : Tree → List UInt8
  | literal value => literalBytes entry value
  | global _ => [Opcode.getGlobal.byte, UInt8.ofNat entry]
  | assign _ value => value.bytes (entry + 1) ++ [Opcode.setGlobal.byte, UInt8.ofNat entry]
  | unary .negate operand => operand.bytes entry ++ [Opcode.negate.byte]
  | unary .not operand => operand.bytes entry ++ [Opcode.not.byte]
  | binary op left right =>
    left.bytes entry ++ right.bytes (entry + left.constants.length) ++ operatorBytes op

end Tree

/-! ## renderings -/

/-- How tightly a binary operator holds its operands. -/
def BinaryOp.strength : BinaryOp → Nat
  | equal | notEqual => 1
  | greater | greaterEqual | less | lessEqual => 2
  | add | subtract => 3
  | multiply | divide => 4

/-- How tightly a unary operator holds its operand. -/
def unaryStrength : Nat := 5

/-- How a unary operator is written. -/
def UnaryOp.word : UnaryOp → Word
  | negate => ⟨.minus, [unit '-']⟩
  | not => ⟨.bang, [unit '!']⟩

/-- How a binary operator is written. -/
def BinaryOp.word : BinaryOp → Word
  | add => ⟨.plus, [unit '+']⟩
  | subtract => ⟨.minus, [unit '-']⟩
  | multiply => ⟨.star, [unit '*']⟩
  | divide => ⟨.slash, [unit '/']⟩
  | equal => ⟨.equalEqual, [unit '=', unit '=']⟩
  | notEqual => ⟨.bangEqual, [unit '!', unit '=']⟩
  | greater => ⟨.greater, [unit '>']⟩
  | greaterEqual => ⟨.greaterEqual, [unit '>', unit '=']⟩
  | less => ⟨.less, [unit '<']⟩
  | lessEqual => ⟨.lessEqual, [unit '<', unit '=']⟩

/-- The words that stand for a literal.  A number may be written in any way
that is read as it. -/
inductive Literal.Written : Literal → Word → Prop where
  | nil : Written .nil ⟨.keyword .nilWord, Keyword.nilWord.spelling⟩
  | true : Written (.bool true) ⟨.keyword .trueWord, Keyword.trueWord.spelling⟩
  | false : Written (.bool false) ⟨.keyword .falseWord, Keyword.falseWord.spelling⟩
  | number (lexeme : Text) : Written (.number (Decimal.read lexeme)) ⟨.number, lexeme⟩
  | string (content : Text) : Written (.string content) ⟨.string, quote :: content ++ [quote]⟩

/-- A tree written as words where only operators of at least some strength may
stand bare, with the depth to which the writing is nested.

An operator that is weaker stands in parentheses, and so does any sub-tree
that the writer likes to put there.  The left operand of a binary operator may
be of the same strength, the right one must be stronger; an assignment, which
is weaker than every operator, may stand bare only where nothing holds it. -/
inductive Renders : Nat → Tree → List Word → Nat → Prop where
  | parentheses {floor depth : Nat} {tree : Tree} {words : List Word}
      (inner : Renders 0 tree words depth) :
      Renders floor tree (⟨.leftParen, [unit '(']⟩ :: words ++ [⟨.rightParen, [unit ')']⟩])
        (1 + depth)
  | literal {floor : Nat} {value : Literal} {word : Word} (h : value.Written word) :
      Renders floor (.literal value) [word] 1
  | global {floor : Nat} (name : Text) : Renders floor (.global name) [⟨.identifier, name⟩] 1
  | assign {depth : Nat} {name : Text} {value : Tree} {words : List Word}
      (inner : Renders 0 value words depth) :
      Renders 0 (.assign name value)
        (⟨.identifier, name⟩ :: ⟨.equal, [unit '=']⟩ :: words) (1 + depth)
  | unary {floor depth : Nat} {op : UnaryOp} {operand : Tree} {words : List Word}
      (hfloor : floor ≤ unaryStrength) (inner : Renders unaryStrength operand words depth) :
      Renders floor (.unary op operand) (op.word :: words) (1 + depth)
  | binary {floor depth depth' : Nat} {op : BinaryOp} {left right : Tree}
      {before after : List Word} (hfloor : floor ≤ op.strength)
      (hleft : Renders op.strength left before depth)
      (hright : Renders (op.strength + 1) right after depth') :
      Renders floor (.binary op left right) (before ++ op.word :: after)
        (max depth (1 + depth'))

/-! ## the tree of an expression -/

/-- An expression without its parentheses and lines. -/
def Expr.tree : Expr → Tree
  | literal value _ => .literal value
  | global name _ => .global name
  | assign name value => .assign name value.tree
  | group inner _ => inner.tree
  | unary op operand => .unary op operand.tree
  | binary op left right => .binary op left.tree right.tree

theorem Expr.constants_tree (e : Expr) : e.tree.constants = e.constants := by
  induction e with
  | literal | global => rfl
  | assign name value ih => rw [tree, Tree.constants, ih, constants]
  | group inner line ih => rw [tree, ih, constants]
  | unary op operand ih => rw [tree, Tree.constants, ih, constants]
  | binary op left right ihleft ihright => rw [tree, Tree.constants, ihleft, ihright, constants]

/-- The bytes of an expression are those of its tree. -/
theorem Expr.bytes_code (e : Expr) (entry : Nat) :
    (e.code entry).flatMap (fun i => i.opcode.encode i.operands) = e.tree.bytes entry := by
  induction e generalizing entry with
  | literal value line =>
    cases value with
    | nil => exact List.append_nil _
    | bool b => cases b <;> exact List.append_nil _
    | _ => exact (List.append_nil _).trans (Opcode.encode_of_one rfl entry)
  | global name line => exact (List.append_nil _).trans (Opcode.encode_of_one rfl entry)
  | assign name value ih =>
    rw [code, List.flatMap_append, ih, List.flatMap_singleton, Opcode.encode_of_one rfl, tree,
      Tree.bytes]
  | group inner line ih => rw [code, ih, tree]
  | unary op operand ih =>
    rw [code, List.flatMap_append, ih, List.flatMap_singleton, tree]
    cases op <;> rfl
  | binary op left right ihleft ihright =>
    rw [code, List.flatMap_append, List.flatMap_append, ihleft, ihright, tree, Tree.bytes,
      constants_tree]
    cases op <;> rfl

/-! ## renderings are derived -/

/-- The strength that the operators of a level have. -/
def Level.strength : Level → Nat
  | expression => 0
  | equality => 1
  | comparison => 2
  | term => 3
  | factor => 4
  | unary => 5
  | primary => 6

namespace Level

variable {level : Level} {tokens : List Token} {words before after : List Word} {word : Word}

theorem precedence_le_of_strength_le {floor : Level} (h : floor.strength ≤ level.strength) :
    floor.precedence ≤ level.precedence := by
  cases floor <;> cases level <;> revert h <;> decide

theorem exists_joins (op : BinaryOp) :
    ∃ level : Level, Joins level op.word.kind op ∧ level.strength = op.strength ∧
      level.next.strength = op.strength + 1 := by
  cases op
  case add => exact ⟨.term, .add, rfl, rfl⟩
  case subtract => exact ⟨.term, .subtract, rfl, rfl⟩
  case multiply => exact ⟨.factor, .multiply, rfl, rfl⟩
  case divide => exact ⟨.factor, .divide, rfl, rfl⟩
  case equal => exact ⟨.equality, .equal, rfl, rfl⟩
  case notEqual => exact ⟨.equality, .notEqual, rfl, rfl⟩
  case greater => exact ⟨.comparison, .greater, rfl, rfl⟩
  case greaterEqual => exact ⟨.comparison, .greaterEqual, rfl, rfl⟩
  case less => exact ⟨.comparison, .less, rfl, rfl⟩
  case lessEqual => exact ⟨.comparison, .lessEqual, rfl, rfl⟩

theorem exists_signs (op : UnaryOp) : Signs op.word.kind op := by
  cases op
  · exact .negate
  · exact .not

/-- The token of a written literal is that literal. -/
theorem denotes_of_written {value : Literal} {token : Token} (h : value.Written token.word) :
    Denotes token.kind token.lexeme value := by
  obtain ⟨kind, lexeme, line⟩ := token
  generalize hword : Token.word ⟨kind, lexeme, line⟩ = word at h
  cases h <;> obtain ⟨rfl, rfl⟩ := Word.mk.inj hword
  case nil => exact .nil _
  case true => exact .true _
  case false => exact .false _
  case number => exact .number _
  case string content =>
    have hdenotes := Denotes.string (quote :: content ++ [quote])
    rwa [Parser.unquote_quoted] at hdenotes

end Level

/-- A rendering is derived on every level that is no stronger than it has to
be, for an expression of its tree and its depth. -/
theorem Renders.derives {floor depth : Nat} {tree : Tree} {words : List Word}
    (h : Renders floor tree words depth) {tokens : List Token}
    (htokens : tokens.map Token.word = words) {level : Level} (hlevel : level.strength = floor) :
    ∃ e, level.Derives tokens e ∧ e.tree = tree ∧ e.nesting = depth := by
  induction h generalizing tokens level with
  | @parentheses floor depth tree words inner ih =>
    obtain ⟨front, back, rfl, hfront, hback⟩ := List.map_eq_append_iff.1 htokens
    obtain ⟨opening, body, rfl, hopening, hbody⟩ := List.map_eq_cons_iff.1 hfront
    obtain ⟨closing, rfl, hclosing⟩ := List.map_eq_singleton_iff.1 hback
    have hloosest : Level.expression.strength = 0 := rfl
    obtain ⟨e, hderives, htree, hnesting⟩ := ih hbody hloosest
    refine ⟨.group e closing.line, .of_primary ?_, htree, by rw [Expr.nesting, hnesting]⟩
    exact .group (congrArg Word.kind hopening) (congrArg Word.kind hclosing) hderives
  | @literal floor value word h =>
    obtain ⟨token, rfl, rfl⟩ := List.map_eq_singleton_iff.1 htokens
    exact ⟨.literal value token.line, .of_primary (.literal (Level.denotes_of_written h)), rfl, rfl⟩
  | @global floor name =>
    obtain ⟨token, rfl, hword⟩ := List.map_eq_singleton_iff.1 htokens
    obtain rfl : token.lexeme = name := congrArg Word.lexeme hword
    have hkind : token.kind = .identifier := congrArg Word.kind hword
    exact ⟨.global token.lexeme token.line, .of_primary (.global hkind), rfl, rfl⟩
  | @assign depth name value words inner ih =>
    obtain ⟨token, others, rfl, hword, hothers⟩ := List.map_eq_cons_iff.1 htokens
    obtain ⟨sign, tokens, rfl, hsign, htokens⟩ := List.map_eq_cons_iff.1 hothers
    have hloosest : Level.expression.strength = 0 := rfl
    obtain ⟨e, hderives, htree, hnesting⟩ := ih htokens hloosest
    obtain rfl : token.lexeme = name := congrArg Word.lexeme hword
    obtain rfl : level = .expression := by cases level <;> first | rfl | cases hlevel
    refine ⟨.assign token.lexeme e, ?_, by rw [Expr.tree, htree], by rw [Expr.nesting, hnesting]⟩
    exact .assign (congrArg Word.kind hword) (congrArg Word.kind hsign) hderives
  | @unary floor depth op operand words hfloor inner ih =>
    obtain ⟨sign, tokens, rfl, hsign, htokens⟩ := List.map_eq_cons_iff.1 htokens
    have hstrength : Level.unary.strength = unaryStrength := rfl
    obtain ⟨e, hderives, htree, hnesting⟩ := ih htokens hstrength
    have hkind : sign.kind = op.word.kind := congrArg Word.kind hsign
    have hunary : Level.unary.Derives (sign :: tokens) (.unary op e) :=
      .unary (hkind ▸ Level.exists_signs op) hderives
    refine ⟨.unary op e, hunary.loosen ?_, by rw [Expr.tree, htree], by rw [Expr.nesting, hnesting]⟩
    exact Level.precedence_le_of_strength_le (hlevel ▸ hfloor)
  | @binary floor depth depth' op left right before after hfloor hleft hright ihleft ihright =>
    obtain ⟨front, back, rfl, hfront, hback⟩ := List.map_eq_append_iff.1 htokens
    obtain ⟨sign, back, rfl, hsign, hback⟩ := List.map_eq_cons_iff.1 hback
    obtain ⟨level', hjoins, hstrength, hnext⟩ := Level.exists_joins op
    obtain ⟨e, hderives, htree, hnesting⟩ := ihleft hfront hstrength
    obtain ⟨e', hderives', htree', hnesting'⟩ := ihright hback hnext
    have hkind : sign.kind = op.word.kind := congrArg Word.kind hsign
    have hbinary : level'.Derives (front ++ sign :: back) (.binary op e e') :=
      .binary (hkind ▸ hjoins) hderives hderives'
    refine ⟨.binary op e e', hbinary.loosen ?_, by rw [Expr.tree, htree, htree'],
      by rw [Expr.nesting, hnesting, hnesting']⟩
    apply Level.precedence_le_of_strength_le
    rw [hlevel, hstrength]
    exact hfloor

/-! ## compiling renderings -/

/-- Every text that renders a tree, nested no deeper than 256 and with no more
than 256 constants, compiles.  The bytes are the operations of the tree in
post-order and the return, and the pool holds the constants of the tree: both
depend on the tree alone, so parentheses and layout do not matter. -/
theorem Query.compile_of_renders {tree : Tree} {words : List Word} {depth : Nat} {source : Text}
    {heap : Heap} (hspells : Spells words source) (hrenders : Renders 0 tree words depth)
    (hdepth : depth ≤ 256) (hroom : tree.constants.length ≤ 256) (hbuilt : heap.Built) :
    ∃ chunk heap', Query.compile source heap = (.ok chunk, heap') ∧
      chunk.bytes = tree.bytes 0 ++ [Opcode.ret.byte] ∧
      chunk.constants.toList.map heap'.view? =
        tree.constants.map fun constant => some constant.content := by
  obtain ⟨tokens, hscan, htokens⟩ := hspells.scan
  obtain ⟨body, back, rfl, hbody, hback⟩ := List.map_eq_append_iff.1 htokens
  obtain ⟨last, rfl, hlast⟩ := List.map_eq_singleton_iff.1 hback
  have hloosest : Level.expression.strength = 0 := rfl
  obtain ⟨e, hderives, rfl, rfl⟩ := hrenders.derives hbody hloosest
  rw [e.constants_tree] at hroom ⊢
  have hkind : last.kind = .endOfInput := congrArg Word.kind hlast
  have hquery : Query.Derives (body ++ [last]) ⟨e, last.line⟩ :=
    ⟨body, last, rfl, hkind, hderives, rfl⟩
  have hparse := Query.parse_of_derives hscan hquery hdepth hroom
  obtain ⟨hviews, -, -⟩ := Constant.placeAll_spec hbuilt e.constants
  let placed := Constant.placeAll heap e.constants
  let chunk := Chunk.ofCode (Query.code ⟨e, last.line⟩) placed.1
  have hcompile : Query.compile source heap = (.ok chunk, placed.2) := by
    rw [Query.compile, hparse]
    rfl
  have hbytes : chunk.bytes = e.tree.bytes 0 ++ [Opcode.ret.byte] := by
    rw [Chunk.bytes_ofCode, Query.code, List.flatMap_append, e.bytes_code]
    rfl
  have hconstants : chunk.constants.toList.map placed.2.view? =
      e.constants.map fun constant => some constant.content := by
    rw [(Chunk.code_ofCode _ _).2, hviews, List.map_map]
    rfl
  exact ⟨chunk, placed.2, hcompile, hbytes, hconstants⟩

/-- The tree of a difference whose right operand is a difference. -/
def Tree.nestedDifference : Tree :=
  .binary .subtract (.literal (.number (Decimal.read [unit '1'])))
    (.binary .subtract (.literal (.number (Decimal.read [unit '2']))) (.global [unit 'x']))

/-- The parentheses on the right are needed, those on the left and the comment
are not. -/
theorem Query.compile_nested_difference :
    ∃ chunk heap', Query.compile (text "(1)-( 2-x)//") .empty = (.ok chunk, heap') ∧
      chunk.bytes = [1, 0, 1, 1, 17, 2, 4, 4, 0] ∧
      chunk.constants.toList.map heap'.view? =
        [some (.number (Decimal.read [unit '1'])), some (.number (Decimal.read [unit '2'])),
          some (.text [unit 'x'])] := by
  have hsource : text "(1)-( 2-x)//" = [unit '(', unit '1', unit ')', unit '-', unit '(', unit ' ',
    unit '2', unit '-', unit 'x', unit ')', unit '/', unit '/'] := by decide
  have hends {word : Word} {u : CodeUnit} {rest : Text}
      (h : u = unit ')' ∨ u = unit '-') : word.Ends (u :: rest) := by
    rcases h with rfl | rfl <;> exact Word.ends_of_cons rfl (by decide) (by decide) (by decide)
  have hspells : Spells [⟨.leftParen, [unit '(']⟩, ⟨.number, [unit '1']⟩,
      ⟨.rightParen, [unit ')']⟩, ⟨.minus, [unit '-']⟩, ⟨.leftParen, [unit '(']⟩,
      ⟨.number, [unit '2']⟩, ⟨.minus, [unit '-']⟩, ⟨.identifier, [unit 'x']⟩,
      ⟨.rightParen, [unit ')']⟩] (text "(1)-( 2-x)//") := by
    have hdigit {u : CodeUnit} (h : isDigit u = true) : Word.Formed ⟨.number, [u]⟩ :=
      .whole (List.forall_mem_singleton.2 h)
    have hname : Word.Formed ⟨.identifier, [unit 'x']⟩ :=
      .name rfl (List.forall_mem_nil _) fun k => by cases k <;> decide
    have hblank : Gap [unit ' '] := .blank rfl .nil
    rw [hsource]
    refine .word .nil (.symbol rfl) trivial ?_
    refine .word .nil (hdigit rfl) (hends (.inl rfl)) ?_
    refine .word .nil (.symbol rfl) trivial ?_
    refine .word .nil (.symbol rfl) trivial ?_
    refine .word .nil (.symbol rfl) trivial ?_
    refine .word hblank (hdigit rfl) (hends (.inr rfl)) ?_
    refine .word .nil (.symbol rfl) trivial ?_
    refine .word .nil hname (hends (.inl rfl)) ?_
    refine .word .nil (.symbol rfl) trivial ?_
    exact .comment .nil List.not_mem_nil
  have hleft : Renders 3 (.literal (.number (Decimal.read [unit '1'])))
      (⟨.leftParen, [unit '(']⟩ :: [⟨.number, [unit '1']⟩] ++ [⟨.rightParen, [unit ')']⟩]) 2 :=
    .parentheses (.literal (.number _))
  have hdifference : Renders 0 (.binary .subtract (.literal (.number (Decimal.read [unit '2'])))
      (.global [unit 'x']))
      ([⟨.number, [unit '2']⟩] ++ ⟨.minus, [unit '-']⟩ :: [⟨.identifier, [unit 'x']⟩]) 2 :=
    .binary (Nat.zero_le _) (.literal (.number _)) (.global _)
  have hrenders : Renders 0 Tree.nestedDifference _ _ :=
    .binary (Nat.zero_le _) hleft (.parentheses hdifference)
  exact Query.compile_of_renders hspells hrenders (by decide) (by decide) .empty

/-- A program that prints two strings put together, whatever its lines are. -/
theorem Program.parse_concatenation :
    ∃ program, Program.parse (text "print\"a\"+\"b\";") = ⟨.ok program, program.constants⟩ ∧
      ∃ l₁ l₂ l₃ l₄, program = ⟨[.print (.binary .add (.literal (.string [unit 'a']) l₁)
        (.literal (.string [unit 'b']) l₂)) l₃], l₄⟩ := by
  have hsource : text "print\"a\"+\"b\";" = Keyword.printWord.spelling ++ [quote, unit 'a', quote,
    unit '+', quote, unit 'b', quote, unit ';'] := by decide
  have hspells : Spells [⟨.keyword .printWord, Keyword.printWord.spelling⟩,
      ⟨.string, [quote, unit 'a', quote]⟩, ⟨.plus, [unit '+']⟩, ⟨.string, [quote, unit 'b', quote]⟩,
      ⟨.semicolon, [unit ';']⟩] (text "print\"a\"+\"b\";") := by
    have hstring (u : CodeUnit) (h : quote ∉ [u]) : Word.Formed ⟨.string, [quote, u, quote]⟩ :=
      .string h
    rw [hsource]
    refine .word .nil (.keyword _) (Word.ends_of_cons rfl (by decide) (by decide) (by decide)) ?_
    refine .word .nil (hstring _ (by decide)) trivial ?_
    refine .word .nil (.symbol rfl) trivial ?_
    refine .word .nil (hstring _ (by decide)) trivial ?_
    exact .word .nil (.symbol rfl) trivial (.gap .nil)
  obtain ⟨tokens, hscan, htokens⟩ := hspells.scan
  obtain ⟨intro, ts₁, rfl, hintro, h₁⟩ := List.map_eq_cons_iff.1 htokens
  obtain ⟨a, ts₂, rfl, ha, h₂⟩ := List.map_eq_cons_iff.1 h₁
  obtain ⟨sign, ts₃, rfl, hsign, h₃⟩ := List.map_eq_cons_iff.1 h₂
  obtain ⟨b, ts₄, rfl, hb, h₄⟩ := List.map_eq_cons_iff.1 h₃
  obtain ⟨semicolon, ts₅, rfl, hsemicolon, h₅⟩ := List.map_eq_cons_iff.1 h₄
  obtain ⟨last, rfl, hlast⟩ := List.map_eq_singleton_iff.1 h₅
  have hleft : Level.term.Derives [a] (.literal (.string [unit 'a']) a.line) :=
    .of_primary (.literal (Level.denotes_of_written (ha ▸ .string [unit 'a'])))
  have hright : Level.factor.Derives [b] (.literal (.string [unit 'b']) b.line) :=
    .of_primary (.literal (Level.denotes_of_written (hb ▸ .string [unit 'b'])))
  have hplus : Joins .term sign.kind .add := by
    rw [show sign.kind = .plus from congrArg Word.kind hsign]
    exact .add
  have hsum := Level.Derives.binary hplus hleft hright
  have hvalue : Level.expression.Derives _ _ := hsum.loosen (by decide)
  have hprint : Stmt.Derives _ _ :=
    .print (congrArg Word.kind hintro) hvalue (congrArg Word.kind hsemicolon)
  let statement := Stmt.print (.binary .add (.literal (.string [unit 'a']) a.line)
    (.literal (.string [unit 'b']) b.line)) semicolon.line
  have hprogram : Program.Derives (_ ++ [last]) ⟨[statement], last.line⟩ :=
    ⟨_, last, rfl, congrArg Word.kind hlast, .cons hprint .nil, rfl⟩
  have hshallow : ∀ s ∈ [statement], s.Shallow := by
    intro s hmem e he
    obtain rfl := List.mem_singleton.1 hmem
    obtain rfl := Option.some.inj he
    exact Nat.le_of_ble_eq_true rfl
  have hparse := Program.parse_of_derives hscan hprogram hshallow (Nat.le_of_ble_eq_true rfl)
  exact ⟨_, hparse, _, _, _, _, rfl⟩

end Lox
