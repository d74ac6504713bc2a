import Lox.Proofs.Encoding
import Lox.Proofs.Parser.Ahead

/-!
# Lox.Proofs.Compiler

Compiling in one pass.

`Program.compile` parses a source and lowers the tree.  Here each construct
writes its code as soon as it is read, and a constant is stored when it is
asked for.  An expression in an expression counts one more in `depth`, and what
opens one more than `nestingLimit` is an error.  A constant pushed to a full pool
is thrown (`some (.error _)`).

Calls within calls and the rounds of a loop are counted by a clock, and by
nothing else: a compiler whose clock runs down has no outcome (`none`), and that
it does not run down is what has to be proved.

The compiler keeps a ledger of its calls: the depth before and after each
expression, the greatest depth, and how much was pending before and after each
declaration.
-/

namespace Lox

/-- The state of a compiler: its parser, the unit and the heap that it writes
to, how many expressions are open, the most there were, the depth before and
after each expression, and how many tokens were pending before and after each
declaration. -/
structure Compiler where
  parser : Parser
  chunk : Chunk
  heap : Heap
  depth : Nat
  deepest : Nat
  nested : List (Nat × Nat)
  declared : List (Nat × Nat)

/-- What a compiler does: its clock may run down, it may throw a message, or it
may end. -/
abbrev Compiling := StateT Compiler (ExceptT Text Option)

namespace Compiler

/-! ## moves -/

/-- A compiler whose clock has run down. -/
def runDown {α : Type} : Compiling α := fun _ => none

/-- Let the parser move. -/
def move (step : Parser → Parser) : Compiling Unit :=
  modify fun c => { c with parser := step c.parser }

/-- Take the token that is expected, or complain. -/
def expect (kind : TokenKind) (error : SyntaxError) : Compiling Unit :=
  move fun p => (p.expect kind error).2

/-- Write an instruction with the line of the token taken last. -/
def emit (op : Opcode) (operands : List Int) : Compiling Unit :=
  modify fun c =>
    { c with chunk := (c.chunk.append (op.encode operands) c.parser.previous.line).2 }

/-- Push a constant to the pool. -/
def push (value : Value) : Compiling Nat := fun c =>
  match c.chunk.pushConstant? value with
  | none => some (.error Chunk.poolFullMessage)
  | some (index, chunk) => some (.ok (index, { c with chunk := chunk }))

/-- Store a constant that is asked for: a text in the heap, and the value in the
pool unless that is full. -/
def request (constant : Constant) : Compiling Nat := do
  let c ← get
  let (value, heap) := constant.place c.heap
  set { c with heap := heap, parser.constants := c.parser.constants ++ [constant] }
  if poolCapacity ≤ c.chunk.constants.size then
    move fun p => { p.recordAt p.previous .tooManyConstants with overflowed := true }
    return 0
  else
    push value

/-- Open an expression. -/
def enter : Compiling Unit :=
  modify fun c => { c with depth := c.depth + 1, deepest := max c.deepest (c.depth + 1) }

/-- Close an expression. -/
def leave : Compiling Unit := modify fun c => { c with depth := c.depth - 1 }

/-- Enter in the ledger that the call for an expression ends. -/
def noteNested (before : Nat) : Compiling Unit :=
  modify fun c => { c with nested := c.nested ++ [(before, c.depth)] }

/-- Enter in the ledger that a declaration ends. -/
def noteDeclared (before : Nat) : Compiling Unit :=
  modify fun c => { c with declared := c.declared ++ [(before, c.parser.pending.length)] }

/-! ## expressions -/

/-- Write a literal that needs no constant. -/
def atom : Literal → Compiling Unit
  | .bool true => emit .pushTrue []
  | .bool false => emit .pushFalse []
  | _ => emit .pushNil []

/-- Write a literal that needs a constant. -/
def pooled (constant : Constant) : Compiling Unit := do
  let index ← request constant
  emit .constant [index]

/-- Refuse an equals sign after an expression that is no name. -/
def settle (assignable : Bool) : Compiling Unit := do
  if assignable && (← get).parser.current.kind == .equal then
    move Parser.take
    move fun p => p.recordAt p.previous .invalidAssignmentTarget
  else
    pure ()

/-- What compiles an expression of at least some precedence. -/
abbrev OperandCompiler := Precedence → Compiling Unit

/-- Compile a name: an assignment if one may stand here and an equals sign
follows, otherwise the value of the variable. -/
def named (nested : OperandCompiler) (assignable : Bool) (name : Text) : Compiling Unit := do
  let index ← request (.text name)
  if assignable && (← get).parser.current.kind == .equal then
    move Parser.take
    nested .assignment
    emit .setGlobal [index]
  else
    emit .getGlobal [index]

/-- Compile what the token just taken begins. -/
def leading (nested : OperandCompiler) (assignable : Bool) (form : PrefixForm) :
    Compiling Unit := do
  let lexeme := (← get).parser.previous.lexeme
  match form with
  | .atom value => atom value
  | .number => pooled (.number (Decimal.read lexeme))
  | .string => pooled (.text (Parser.unquote lexeme))
  | .name => named nested assignable lexeme
  | .group =>
    nested .assignment
    expect .rightParen .closingParenExpected
  | .unary op =>
    nested .unary
    emit op.opcode []

/-- Compile binary operators that bind at least as tightly as `floor`, each with
its right operand. -/
def trailing (nested : OperandCompiler) (floor : Precedence) : Nat → Compiling Unit
  | 0 => runDown
  | clock + 1 => do
    match (← get).parser.current.kind.binaryOp? with
    | none => pure ()
    | some op =>
      if floor ≤ op.precedence then
        move Parser.take
        nested op.precedence.tighter
        op.opcodes.forM fun opcode => emit opcode []
        trailing nested floor clock
      else
        pure ()

/-- Compile an expression that is open. -/
def opened (nested : OperandCompiler) (floor : Precedence) (clock : Nat) : Compiling Unit := do
  move Parser.take
  match (← get).parser.previous.kind.prefixForm? with
  | none => move fun p => p.recordAt p.previous .expressionExpected
  | some form =>
    leading nested (floor ≤ .assignment) form
    trailing nested floor clock
    settle (floor ≤ .assignment)

/-- Compile an expression of at least some precedence, unless there are too many
open. -/
def operand : Nat → OperandCompiler
  | 0, _ => runDown
  | clock + 1, floor => do
    let before := (← get).depth
    if nestingLimit ≤ before then
      move fun p => p.recordAt p.current .nestedTooDeeply
      noteNested before
    else
      enter
      opened (operand clock) floor clock
      leave
      noteNested before

/-! ## statements -/

/-- Ask for the name of a variable that is declared. -/
def introduce : Compiling Nat := do
  expect .identifier .variableNameExpected
  let c ← get
  request (.text c.parser.previous.lexeme)

/-- Compile the initial value of a declaration, or the value that a variable has
without one. -/
def initializer (clock : Nat) : Compiling Unit := do
  if (← get).parser.current.kind = .equal then
    move Parser.take
    operand clock .assignment
  else
    emit .pushNil []

/-- Compile a declaration whose `var` was just taken. -/
def declaration (clock : Nat) : Compiling Unit := do
  let index ← introduce
  initializer clock
  expect .semicolon (.semicolonExpected .variableDeclaration)
  emit .defineGlobal [index]

/-- Compile a statement that prints, whose `print` was just taken. -/
def printing (clock : Nat) : Compiling Unit := do
  operand clock .assignment
  expect .semicolon (.semicolonExpected .value)
  emit .print []

/-- Compile an expression that stands as a statement. -/
def evaluation (clock : Nat) : Compiling Unit := do
  operand clock .assignment
  expect .semicolon (.semicolonExpected .expression)
  emit .pop []

/-- Compile a statement by its first token. -/
def unrecovered (clock : Nat) : Compiling Unit := do
  let c ← get
  if c.parser.current.kind = .keyword .varWord then
    move Parser.take
    declaration clock
  else if c.parser.current.kind = .keyword .printWord then
    move Parser.take
    printing clock
  else
    evaluation clock

/-- Take tokens up to a boundary. -/
def skipToBoundary : Nat → Compiling Unit
  | 0 => runDown
  | clock + 1 => do
    if (← get).parser.atBoundary then
      pure ()
    else
      move Parser.take
      skipToBoundary clock

/-- Recover from an error if there was one. -/
def recover (clock : Nat) : Compiling Unit := do
  if (← get).parser.panicking then
    skipToBoundary clock
    move fun p => { p with panicking := false }
  else
    pure ()

/-- Compile a statement. -/
def statement (clock : Nat) : Compiling Unit := do
  let before := (← get).parser.pending.length
  unrecovered clock
  recover clock
  noteDeclared before

/-- Compile statements up to the end marker, or until the pool overflows. -/
def statements : Nat → Compiling Unit
  | 0 => runDown
  | clock + 1 => do
    let c ← get
    if c.parser.overflowed then
      pure ()
    else if c.parser.current.kind = .endOfInput then
      move Parser.take
    else
      statement clock
      statements clock

/-! ## sources -/

/-- A compiler that has not compiled anything. -/
def start (source : Text) (heap : Heap) : Compiler :=
  ⟨Parser.start source, .empty, heap, 0, 0, [], []⟩

/-- End the code, and answer with the unit unless something was recorded. -/
def finish : Compiling (Except (List Diagnostic) Chunk) := do
  emit .ret []
  let c ← get
  match c.parser.diagnostics with
  | [] => return .ok c.chunk
  | diagnostics => return .error diagnostics

/-- Compile a program. -/
def program (clock : Nat) : Compiling (Except (List Diagnostic) Chunk) := do
  statements clock
  finish

/-- Compile a lone expression. -/
def query (clock : Nat) : Compiling (Except (List Diagnostic) Chunk) := do
  operand clock .assignment
  expect .endOfInput .endExpected
  finish

/-! ## calls that end -/

section

variable {α β : Type} {m : Compiling α} {f : α → Compiling β} {a : α} {b : β} {c c' c'' : Compiler}

/-- From `c` the compiler comes to an end at `c'` with the answer `a`. -/
def Ends (m : Compiling α) (c : Compiler) (a : α) (c' : Compiler) : Prop :=
  m c = some (.ok (a, c'))

theorem Ends.bind (h : Ends m c a c') (h' : Ends (f a) c' b c'') : Ends (m >>= f) c b c'' := by
  unfold Ends at *
  simp only [Bind.bind, StateT.bind, ExceptT.bind, ExceptT.mk]
  rw [h]
  exact h'

theorem ends_pure (a : α) (c : Compiler) : Ends (pure a) c a c := rfl

theorem Ends.get {f : Compiler → Compiling β} (h : Ends (f c) c b c') :
    Ends (MonadState.get >>= f) c b c' := h

end

/-! ## what is kept -/

/-- A compiler whose parser is `p` has all in order: it accounts for all tokens,
what was asked for is stored as far as it fits, and the ledger shows no more
open expressions than allowed, none left open, and no declaration without a
token. -/
structure At (all : List Lexed) (origin : Heap) (p : Parser) (c : Compiler) : Prop where
  parser : c.parser = p
  accounts : p.Accounts all
  heap : (Constant.placeAll origin p.constants).2 = c.heap
  pool : c.chunk.constants.toList = (Constant.placeAll origin p.constants).1.take poolCapacity
  deepest : c.deepest ≤ nestingLimit
  nested : ∀ call ∈ c.nested, call.2 = call.1
  declared : ∀ call ∈ c.declared, call.2 < call.1

/-- What was written on the way from one compiler to another: code, and
constants that were asked for. -/
structure Wrote (c c' : Compiler) (code : List Instruction) (constants : List Constant) :
    Prop where
  code : c'.chunk.code.toList = c.chunk.code.toList ++ code.flatMap Instruction.bytes
  constants : c'.parser.constants = c.parser.constants ++ constants

variable {α β : Type} {all : List Lexed} {origin : Heap} {c c' c'' : Compiler} {p q : Parser}
  {m : Compiling α} {f : α → Compiling β} {written : α → Compiler → Prop}
  {written' : β → Compiler → Prop}

theorem Wrote.refl (c : Compiler) : Wrote c c [] [] := ⟨by simp, by simp⟩

theorem Wrote.trans {code code' : List Instruction} {constants constants' : List Constant}
    (h : Wrote c c' code constants) (h' : Wrote c' c'' code' constants') :
    Wrote c c'' (code ++ code') (constants ++ constants') :=
  ⟨by rw [h'.code, h.code, List.flatMap_append, List.append_assoc],
    by rw [h'.constants, h.constants, List.append_assoc]⟩

theorem Wrote.entry {code : List Instruction} {constants : List Constant}
    (h : Wrote c c' code constants) :
    c'.parser.constants.length = c.parser.constants.length + constants.length := by
  rw [h.constants, List.length_append]

/-- The compiler comes to an end as its parser does at `q`, with all in order
and with as many expressions open as before; and if nothing was recorded, it has
written what it should. -/
def Compiles (all : List Lexed) (origin : Heap) (m : Compiling α) (c : Compiler) (q : Parser)
    (written : α → Compiler → Prop) : Prop :=
  ∃ a c', Ends m c a c' ∧ Parser.Leads c.parser q ∧ c'.At all origin q ∧ c'.depth = c.depth ∧
    (q.diagnostics = [] → written a c')

theorem Compiles.bind (h : Compiles all origin m c p written)
    (h' : ∀ a c', c'.At all origin p → c'.depth = c.depth →
      Compiles all origin (f a) c' q fun b c'' => written a c' → written' b c'') :
    Compiles all origin (m >>= f) c q written' := by
  obtain ⟨a, c', hends, hleads, hc', hdepth, hwritten⟩ := h
  obtain ⟨b, c'', hends', hleads', hc'', hdepth', hwritten'⟩ := h' a c' hc' hdepth
  rw [hc'.parser] at hleads'
  exact ⟨b, c'', hends.bind hends', hleads.trans hleads', hc'', hdepth'.trans hdepth,
    fun hq => hwritten' hq (hwritten (hleads'.keeps hq))⟩

theorem Compiles.get {f : Compiler → Compiling β} (h : Compiles all origin (f c) c p written') :
    Compiles all origin (MonadState.get >>= f) c p written' := h

theorem Compiles.mono {written' : α → Compiler → Prop} (h : Compiles all origin m c p written)
    (hmono : ∀ a c', c'.At all origin p → written a c' → written' a c') :
    Compiles all origin m c p written' := by
  obtain ⟨a, c', hends, hleads, hc', hdepth, hwritten⟩ := h
  exact ⟨a, c', hends, hleads, hc', hdepth, fun hp => hmono a c' hc' (hwritten hp)⟩

theorem compiles_pure (hc : c.At all origin p) {a : α} (hwritten : written a c) :
    Compiles all origin (pure a) c p written :=
  ⟨a, c, rfl, hc.parser ▸ .refl _, hc, rfl, fun _ => hwritten⟩

/-! ## moves -/

/-- Moves that ask for no constant. -/
theorem compiles_move (hc : c.At all origin p) (step : Parser → Parser)
    (hleads : Parser.Leads p (step p)) (hconstants : (step p).constants = p.constants) :
    Compiles all origin (move step) c (step p) fun _ c' => Wrote c c' [] [] := by
  obtain rfl := hc.parser
  refine ⟨(), { c with parser := step c.parser }, rfl, hleads, ?_, rfl,
    fun _ => ⟨by simp, by simp [hconstants]⟩⟩
  exact ⟨rfl, hleads.accounts hc.accounts, hconstants ▸ hc.heap, hconstants ▸ hc.pool, hc.deepest,
    hc.nested, hc.declared⟩

theorem compiles_take (hc : c.At all origin p) :
    Compiles all origin (move Parser.take) c p.take fun _ c' => Wrote c c' [] [] :=
  compiles_move hc Parser.take (.take _) (Parser.constants_take _)

/-- A complaint leaves something recorded. -/
theorem At.recordAt_ne_nil (hc : c.At all origin p) (token : Token) (error : SyntaxError) :
    (p.recordAt token error).diagnostics ≠ [] := by
  intro hnil
  obtain ⟨passed, lexed, -, -, hquiet⟩ := hc.accounts
  have hpanicking := (hquiet ((Parser.Leads.recordAt _ token error).keeps hnil)).1
  exact Parser.diagnostics_record_ne_nil hpanicking _ _ _ hnil

theorem compiles_recordAt (hc : c.At all origin p) (token : Parser → Token)
    (error : SyntaxError) :
    Compiles all origin (move fun p => p.recordAt (token p) error) c
      (p.recordAt (token p) error) fun _ _ => False := by
  obtain ⟨a, c', hends, hleads, hc', hdepth, -⟩ :=
    compiles_move hc (fun p => p.recordAt (token p) error) (.recordAt _ _ _)
      (Parser.constants_record _ _ _ _)
  exact ⟨a, c', hends, hleads, hc', hdepth, hc.recordAt_ne_nil _ _⟩

theorem compiles_expect (hc : c.At all origin p) (kind : TokenKind) (error : SyntaxError) :
    Compiles all origin (expect kind error) c (p.expect kind error).2 fun _ c' =>
      p.current.kind = kind ∧ Wrote c c' [] [] := by
  have hleads := Parser.Leads.expect p kind error
  by_cases hkind : p.current.kind = kind
  · refine (compiles_move hc (fun p => (p.expect kind error).2) hleads ?_).mono
      fun _ _ _ hwrote => ⟨hkind, hwrote⟩
    simp only [Parser.expect_of_eq hkind, Parser.constants_take]
  · have hconstants : (p.expect kind error).2.constants = p.constants := by
      rw [Parser.expect_of_ne hkind]
      exact Parser.constants_record _ _ _ _
    obtain ⟨a, c', hends, -, hc', hdepth, -⟩ :=
      compiles_move hc (fun p => (p.expect kind error).2) hleads hconstants
    refine ⟨a, c', hends, hc.parser ▸ hleads, hc', hdepth, fun hnil => ?_⟩
    rw [Parser.expect_of_ne hkind] at hnil
    exact absurd hnil (hc.recordAt_ne_nil _ _)

/-- An instruction that is written is the last of the code. -/
theorem code_append (chunk : Chunk) (op : Opcode) (operands : List Int) (line : Nat) :
    (chunk.append (op.encode operands) line).2.code.toList =
        chunk.code.toList ++ Instruction.bytes ⟨op, operands, line⟩ ∧
      (chunk.append (op.encode operands) line).2.constants = chunk.constants :=
  chunk.code_writeAll (op.encode operands) line

theorem compiles_emit (hc : c.At all origin p) (op : Opcode) (operands : List Int) :
    Compiles all origin (emit op operands) c p fun _ c' =>
      Wrote c c' [⟨op, operands, p.previous.line⟩] [] := by
  obtain rfl := hc.parser
  obtain ⟨hcode, hconstants⟩ := code_append c.chunk op operands c.parser.previous.line
  refine ⟨(), { c with chunk := (c.chunk.append (op.encode operands) c.parser.previous.line).2 },
    rfl, .refl _, ?_, rfl, fun _ => ⟨?_, by simp⟩⟩
  · exact ⟨rfl, hc.accounts, hc.heap, hconstants ▸ hc.pool, hc.deepest, hc.nested, hc.declared⟩
  · rw [hcode, List.flatMap_singleton]

/-! ## constants -/

theorem placeAll_concat (heap : Heap) (constants : List Constant) (constant : Constant) :
    Constant.placeAll heap (constants ++ [constant]) =
      ((Constant.placeAll heap constants).1 ++
          [(constant.place (Constant.placeAll heap constants).2).1],
        (constant.place (Constant.placeAll heap constants).2).2) := by
  induction constants generalizing heap with
  | nil => rfl
  | cons first rest ih => simp only [List.cons_append, Constant.placeAll, ih]

theorem length_placeAll (heap : Heap) (constants : List Constant) :
    (Constant.placeAll heap constants).1.length = constants.length := by
  induction constants generalizing heap with
  | nil => rfl
  | cons first rest ih => simp only [Constant.placeAll, List.length_cons, ih]

/-- The pool holds what was asked for, as far as it fits. -/
theorem At.size_pool (hc : c.At all origin p) :
    c.chunk.constants.size = min poolCapacity p.constants.length := by
  rw [← Array.length_toList, hc.pool, List.length_take, length_placeAll]

/-- A constant was asked for, and its text is in the heap. -/
def asked (c : Compiler) (constant : Constant) : Compiler :=
  { c with
    heap := (constant.place c.heap).2
    parser.constants := c.parser.constants ++ [constant] }

/-- With room in the pool nothing is thrown. -/
theorem ends_push (h : c.chunk.constants.size < poolCapacity) (value : Value) :
    Ends (push value) c c.chunk.constants.size
      { c with chunk.constants := c.chunk.constants.push value } := by
  simp only [Ends, push, Chunk.pushConstant?, if_pos h]

theorem ends_request_of_lt (h : c.chunk.constants.size < poolCapacity) (constant : Constant) :
    Ends (request constant) c c.chunk.constants.size { c.asked constant with
      chunk.constants := c.chunk.constants.push (constant.place c.heap).1 } := by
  show ite (poolCapacity ≤ c.chunk.constants.size) _ (push _) (c.asked constant) = _
  rw [if_neg (by omega)]
  exact ends_push (c := c.asked constant) h _

theorem ends_request_of_le (h : poolCapacity ≤ c.chunk.constants.size) (constant : Constant) :
    Ends (request constant) c 0 { c.asked constant with
      parser := { (c.asked constant).parser.recordAt c.parser.previous .tooManyConstants with
        overflowed := true } } := by
  show ite (poolCapacity ≤ c.chunk.constants.size) _ (push _) (c.asked constant) = _
  rw [if_pos h]
  rfl

theorem compiles_request (hc : c.At all origin p) (constant : Constant) :
    Compiles all origin (request constant) c (p.request constant) fun index c' =>
      index = p.constants.length ∧ Wrote c c' [] [constant] := by
  obtain rfl := hc.parser
  have hsize := hc.size_pool
  have hleads := Parser.Leads.request c.parser constant
  have haccounts := hleads.accounts hc.accounts
  have hplaced := placeAll_concat origin c.parser.constants constant
  rw [hc.heap] at hplaced
  have hlength := length_placeAll origin c.parser.constants
  by_cases hroom : c.parser.constants.length < poolCapacity
  · have hrequest : c.parser.request constant = (c.asked constant).parser :=
      Parser.request_of_lt hroom constant
    refine ⟨_, _, ends_request_of_lt (by omega) constant, hleads, ?_, rfl,
      fun _ => ⟨by omega, by simp [asked], rfl⟩⟩
    rw [hrequest] at haccounts ⊢
    refine ⟨rfl, haccounts, by rw [asked, hplaced], ?_, hc.deepest, hc.nested, hc.declared⟩
    have hfits : (Constant.placeAll origin c.parser.constants).1.length + 1 ≤ poolCapacity := by
      omega
    rw [asked, hplaced, Array.toList_push, hc.pool, List.take_of_length_le (by omega),
      List.take_of_length_le (by simpa using hfits)]
  · have hrequest : c.parser.request constant =
        { (c.asked constant).parser.recordAt c.parser.previous .tooManyConstants with
          overflowed := true } := if_neg hroom
    have hconstants : (c.parser.request constant).constants = c.parser.constants ++ [constant] := by
      rw [hrequest]
      exact Parser.constants_record _ _ _ _
    refine ⟨_, _, ends_request_of_le (by omega) constant, hleads, ?_, rfl, fun hnil => ?_⟩
    · refine ⟨hrequest.symm, haccounts, by rw [hconstants, hplaced]; rfl, ?_, hc.deepest,
        hc.nested, hc.declared⟩
      rw [hconstants, hplaced, List.take_append_of_le_length (by omega)]
      exact hc.pool
    · obtain ⟨passed, lexed, -, -, hquiet⟩ := haccounts
      have hoverflowed := (hquiet hnil).2.1
      rw [hrequest] at hoverflowed
      cases hoverflowed

end Compiler

end Lox
