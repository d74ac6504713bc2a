import Lox.Proofs.Evaluation
import Lox.Proofs.Grammar

/-!
# Lox.Proofs.Frame

Instructions on contents.

Between the evaluator and the machine stands a machine that has contents on
its stack and a memory for a store, and executes instructions instead of bytes
(`Frame.run`).  On it the code of a tree does what the evaluator does with the
tree, provided that the pool holds the constants of the tree and the stack has
room for its nesting.
-/

namespace Lox

/-- A stack of contents with its top first, and a memory. -/
structure Frame where
  stack : List Content
  memory : Memory

/-- What an instruction leads to: the next frame, an error of the program, or
nothing that well-formed code leads to. -/
inductive Progress where
  | next (frame : Frame)
  | failed (error : RuntimeError) (memory : Memory)
  | stuck

namespace Progress

/-- Go on from the next frame, if there is one. -/
def andThen (progress : Progress) (onward : Frame → Progress) : Progress :=
  match progress with
  | next frame => onward frame
  | failed error memory => failed error memory
  | stuck => stuck

/-- The progress of an evaluation that leaves a content on a stack. -/
def ofContent (stack : List Content) : EStateM.Result RuntimeError Memory Content → Progress
  | .ok content memory => next ⟨content :: stack, memory⟩
  | .error error memory => failed error memory

/-- The progress of an evaluation that leaves a stack as it is. -/
def ofUnit (stack : List Content) : EStateM.Result RuntimeError Memory Unit → Progress
  | .ok () memory => next ⟨stack, memory⟩
  | .error error memory => failed error memory

theorem ofContent_ne_stuck {stack : List Content}
    (result : EStateM.Result RuntimeError Memory Content) : ofContent stack result ≠ .stuck := by
  cases result <;> simp [ofContent]

theorem ofUnit_ne_stuck {stack : List Content}
    (result : EStateM.Result RuntimeError Memory Unit) : ofUnit stack result ≠ .stuck := by
  cases result <;> simp [ofUnit]

theorem eq_error_of_ofContent {stack : List Content} {error : RuntimeError} {memory : Memory}
    {result : EStateM.Result RuntimeError Memory Content}
    (h : ofContent stack result = .failed error memory) : result = .error error memory := by
  cases result <;> cases h
  rfl

theorem eq_error_of_ofUnit {stack : List Content} {error : RuntimeError} {memory : Memory}
    {result : EStateM.Result RuntimeError Memory Unit}
    (h : ofUnit stack result = .failed error memory) : result = .error error memory := by
  cases result <;> cases h
  rfl

end Progress

namespace Frame

/-- Put a content on a stack that has room. -/
def push (frame : Frame) (content : Content) : Progress :=
  if frame.stack.length < stackCapacity then .next { frame with stack := content :: frame.stack }
  else .stuck

/-- Go on with the content on top of the stack and what is below it. -/
def withTop (frame : Frame) (onward : Content → List Content → Progress) : Progress :=
  match frame.stack with
  | content :: rest => onward content rest
  | [] => .stuck

/-- Replace the operand on top of the stack by what a unary operator makes of
it. -/
def unary (frame : Frame) (op : UnaryOp) (line : Nat) : Progress :=
  frame.withTop fun a rest =>
    .ofContent rest (Evaluation.operate (op.apply a) line frame.memory)

/-- Replace the two operands on top of the stack by what a binary operator
makes of them. -/
def binary (frame : Frame) (op : BinaryOp) (line : Nat) : Progress :=
  match frame.stack with
  | b :: a :: rest => .ofContent rest (Evaluation.operate (op.apply a b) line frame.memory)
  | _ => .stuck

/-- Go on if a variable is defined. -/
def withVariable (frame : Frame) (name : Text) (line : Nat) (onward : Content → Progress) :
    Progress :=
  match frame.memory.environment name with
  | some content => onward content
  | none => .failed ⟨.undefinedVariable name, line⟩ frame.memory

end Frame

namespace Instruction

/-- Go on with the pool entry that is the operand. -/
def withContent (instruction : Instruction) (pool : List Content)
    (onward : Content → Progress) : Progress :=
  match instruction.operands with
  | [.ofNat entry] =>
    match pool[entry]? with
    | some content => onward content
    | none => .stuck
  | _ => .stuck

/-- Go on with the name that is the pool entry of the operand. -/
def withName (instruction : Instruction) (pool : List Content) (onward : Text → Progress) :
    Progress :=
  instruction.withContent pool fun content =>
    match content with
    | .text name => onward name
    | _ => .stuck

/-- Carry out an instruction other than the return. -/
def perform (pool : List Content) (instruction : Instruction) (frame : Frame) : Progress :=
  match instruction.opcode with
  | .ret => .stuck
  | .constant => instruction.withContent pool frame.push
  | .pushNil => frame.push .nil
  | .pushTrue => frame.push (.bool true)
  | .pushFalse => frame.push (.bool false)
  | .negate => frame.unary .negate instruction.line
  | .not => frame.unary .not instruction.line
  | .add => frame.binary .add instruction.line
  | .subtract => frame.binary .subtract instruction.line
  | .multiply => frame.binary .multiply instruction.line
  | .divide => frame.binary .divide instruction.line
  | .equal => frame.binary .equal instruction.line
  | .greater => frame.binary .greater instruction.line
  | .less => frame.binary .less instruction.line
  | .print => frame.withTop fun content rest => .next ⟨rest, frame.memory.print content⟩
  | .pop => frame.withTop fun _ rest => .next ⟨rest, frame.memory⟩
  | .defineGlobal => instruction.withName pool fun name =>
    frame.withTop fun content rest => .next ⟨rest, frame.memory.define name content⟩
  | .getGlobal => instruction.withName pool fun name =>
    frame.withVariable name instruction.line frame.push
  | .setGlobal => instruction.withName pool fun name =>
    frame.withVariable name instruction.line fun _ =>
      frame.withTop fun content rest =>
        .next ⟨content :: rest, frame.memory.define name content⟩

end Instruction

namespace Frame

/-- Carry out instructions one after the other. -/
def run (pool : List Content) : List Instruction → Frame → Progress
  | [], frame => .next frame
  | instruction :: rest, frame => (instruction.perform pool frame).andThen (run pool rest)

variable {pool : List Content} {frame : Frame} {code code' : List Instruction}

theorem run_append (pool : List Content) (code code' : List Instruction) (frame : Frame) :
    run pool (code ++ code') frame = (run pool code frame).andThen (run pool code') := by
  induction code generalizing frame with
  | nil => rfl
  | cons instruction rest ih =>
    rw [List.cons_append, run, run]
    cases instruction.perform pool frame with
    | next frame => exact ih frame
    | _ => rfl

theorem run_singleton (pool : List Content) (instruction : Instruction) (frame : Frame) :
    run pool [instruction] frame = instruction.perform pool frame := by
  rw [run]
  cases instruction.perform pool frame <;> rfl

end Frame

/-! ## pools -/

/-- From some entry on a pool holds these constants. -/
def Pooled (pool : List Content) (entry : Nat) (constants : List Constant) : Prop :=
  constants.map Constant.content <+: pool.drop entry

namespace Pooled

variable {pool : List Content} {entry : Nat} {constant : Constant} {constants rest : List Constant}

theorem self (constants : List Constant) : Pooled (constants.map Constant.content) 0 constants :=
  List.prefix_refl _

theorem left (h : Pooled pool entry (constants ++ rest)) : Pooled pool entry constants := by
  rw [Pooled, List.map_append] at h
  exact (List.prefix_append _ _).trans h

theorem right (h : Pooled pool entry (constants ++ rest)) :
    Pooled pool (entry + constants.length) rest := by
  obtain ⟨more, hmore⟩ := h
  rw [List.map_append, List.append_assoc] at hmore
  refine ⟨more, ?_⟩
  rw [← List.drop_drop, ← hmore, List.drop_left' (List.length_map _)]

theorem getElem? (h : Pooled pool entry (constant :: rest)) :
    pool[entry]? = some constant.content := by
  obtain ⟨more, hmore⟩ := h
  have hhead := congrArg (·[0]?) hmore
  simpa using hhead.symm

theorem tail (h : Pooled pool entry (constant :: rest)) : Pooled pool (entry + 1) rest := by
  rw [← List.singleton_append] at h
  exact h.right

end Pooled

/-! ## code of expressions -/

open Lox.Frame Progress

variable {pool : List Content} {entry : Nat}

namespace Frame

variable {frame : Frame}

theorem push_of_lt (h : frame.stack.length < stackCapacity) (content : Content) :
    frame.push content = .next ⟨content :: frame.stack, frame.memory⟩ := if_pos h

end Frame

namespace Instruction

/-- An operand that does not lead into the pool leads nowhere. -/
theorem withContent_cases (instruction : Instruction) (pool : List Content)
    (onward : Content → Progress) :
    instruction.withContent pool onward = .stuck ∨
      ∃ (entry : Nat) (c : Content), instruction.operands = [(entry : Int)] ∧
        pool[entry]? = some c ∧ instruction.withContent pool onward = onward c := by
  unfold withContent
  split
  · next entry hoperands =>
    split
    · next c hc => exact .inr ⟨entry, c, hoperands, hc, rfl⟩
    · exact .inl rfl
  · exact .inl rfl

/-- The name that is the pool entry of the operand. -/
def name? (pool : List Content) (instruction : Instruction) : Option Text :=
  match instruction.operands with
  | [.ofNat entry] => pool[entry]?.bind Content.text?
  | _ => none

/-- An operand that does not lead to a name leads nowhere. -/
theorem withName_eq (instruction : Instruction) (pool : List Content)
    (onward : Text → Progress) :
    instruction.withName pool onward = (instruction.name? pool).elim .stuck onward := by
  unfold withName withContent name?
  split
  · next entry _ =>
    cases pool[entry]? with
    | none => rfl
    | some c => cases c <;> rfl
  · rfl

theorem name?_of_pooled (opcode : Opcode) (line : Nat) {name : Text}
    {constants : List Constant} (h : Pooled pool entry (.text name :: constants)) :
    name? pool ⟨opcode, [(entry : Int)], line⟩ = some name := by
  show pool[entry]?.bind Content.text? = _
  rw [h.getElem?]
  rfl

theorem exists_of_name? {instruction : Instruction} {name : Text}
    (h : instruction.name? pool = some name) :
    ∃ entry : Nat, instruction.operands = [(entry : Int)] ∧ pool[entry]? = some (.text name) := by
  unfold name? at h
  split at h
  · next entry hoperands =>
    obtain ⟨c, hc, hname⟩ := Option.bind_eq_some_iff.1 h
    cases c <;> cases hname
    exact ⟨entry, hoperands, hc⟩
  · cases h

/-- An instruction whose operand is the entry of a constant. -/
theorem withContent_of_pooled {opcode : Opcode} {line : Nat} {constant : Constant}
    {constants : List Constant} (h : Pooled pool entry (constant :: constants))
    (onward : Content → Progress) :
    withContent ⟨opcode, [(entry : Int)], line⟩ pool onward = onward constant.content := by
  show (match pool[entry]? with | some content => onward content | none => .stuck) = _
  rw [h.getElem?]

theorem withName_of_pooled {opcode : Opcode} {line : Nat} {name : Text}
    {constants : List Constant} (h : Pooled pool entry (.text name :: constants))
    (onward : Text → Progress) :
    withName ⟨opcode, [(entry : Int)], line⟩ pool onward = onward name := by
  rw [withName, withContent_of_pooled h]
  rfl

end Instruction

theorem Literal.perform_code (value : Literal) {line : Nat} {frame : Frame}
    (hpool : Pooled pool entry value.constant?.toList)
    (hroom : frame.stack.length < stackCapacity) :
    (value.code entry line).perform pool frame =
      .next ⟨value.content :: frame.stack, frame.memory⟩ := by
  cases value with
  | nil => exact push_of_lt hroom _
  | bool b => cases b <;> exact push_of_lt hroom _
  | number value =>
    have hpush : Instruction.withContent ⟨.constant, [(entry : Int)], line⟩ pool frame.push =
        frame.push (.number value) := Instruction.withContent_of_pooled hpool _
    exact hpush.trans (push_of_lt hroom _)
  | string content =>
    have hpush : Instruction.withContent ⟨.constant, [(entry : Int)], line⟩ pool frame.push =
        frame.push (.text content) := Instruction.withContent_of_pooled hpool _
    exact hpush.trans (push_of_lt hroom _)

theorem UnaryOp.perform_opcode (op : UnaryOp) (line : Nat) (a : Content) (stack : List Content)
    (memory : Memory) :
    Instruction.perform pool ⟨op.opcode, [], line⟩ ⟨a :: stack, memory⟩ =
      ofContent stack (Evaluation.operate (op.apply a) line memory) := by
  cases op <;> rfl

namespace BinaryOp

variable {line : Nat} {a b : Content} {stack : List Content} {memory : Memory}

/-- An operation that is a binary operator, and a negation. -/
theorem run_negated (op : BinaryOp) {opcode : Opcode}
    (h : Instruction.perform pool ⟨opcode, [], line⟩ ⟨b :: a :: stack, memory⟩ =
      Frame.binary ⟨b :: a :: stack, memory⟩ op line) :
    Frame.run pool [⟨opcode, [], line⟩, ⟨.not, [], line⟩] ⟨b :: a :: stack, memory⟩ =
      ofContent stack (Evaluation.operate (Content.not <$> op.apply a b) line memory) := by
  have hop : Frame.binary ⟨b :: a :: stack, memory⟩ op line =
      ofContent stack (Evaluation.operate (op.apply a b) line memory) := rfl
  rw [run, h, hop]
  cases op.apply a b <;> rfl

theorem run_opcodes (op : BinaryOp) (line : Nat) (a b : Content) (stack : List Content)
    (memory : Memory) :
    Frame.run pool (op.opcodes.map fun opcode => ⟨opcode, [], line⟩) ⟨b :: a :: stack, memory⟩ =
      ofContent stack (Evaluation.operate (op.apply a b) line memory) := by
  cases op
  case notEqual => exact run_negated .equal rfl
  case greaterEqual => exact run_negated .less rfl
  case lessEqual => exact run_negated .greater rfl
  all_goals exact run_singleton _ _ _

end BinaryOp

/-- Code that goes on with the value of an expression does what an evaluation
does that goes on with it. -/
theorem Progress.andThen_ofContent {α : Type} {evaluation : Evaluation Content}
    {next : Content → Evaluation α} {memory : Memory} {stack : List Content}
    {onward : Frame → Progress} {finish : EStateM.Result RuntimeError Memory α → Progress}
    (hfail : ∀ error memory, finish (.error error memory) = .failed error memory)
    (hnext : ∀ content memory,
      onward ⟨content :: stack, memory⟩ = finish (next content memory)) :
    (ofContent stack (evaluation memory)).andThen onward =
      finish ((evaluation >>= next) memory) := by
  cases hresult : evaluation memory with
  | error error memory' =>
    rw [bind_error hresult]
    exact (hfail error memory').symm
  | ok content memory' =>
    rw [bind_ok hresult]
    exact hnext content memory'

/-- The code of an expression leaves its value on the stack, or fails as its
evaluation does.  Whatever is on the stack stays there. -/
theorem Expr.run_code (e : Expr) {frame : Frame} (hpool : Pooled pool entry e.constants)
    (hroom : frame.stack.length + e.nesting ≤ stackCapacity) :
    Frame.run pool (e.code entry) frame = ofContent frame.stack (e.eval frame.memory) := by
  induction e generalizing entry frame with
  | literal value line =>
    exact (run_singleton _ _ _).trans (value.perform_code hpool hroom)
  | global name line =>
    rw [code, run_singleton]
    show Instruction.withName _ _ _ = _
    rw [Instruction.withName_of_pooled hpool, withVariable, eval, Evaluation.lookUp]
    cases frame.memory.environment name with
    | none => rfl
    | some content => exact push_of_lt hroom content
  | assign name value ih =>
    rw [nesting] at hroom
    have hinner : frame.stack.length + value.nesting ≤ stackCapacity := by omega
    rw [code, run_append, ih hpool.tail hinner, eval]
    refine andThen_ofContent (fun _ _ => rfl) fun content memory => ?_
    -- the target is looked up in the memory that the value left
    rw [run_singleton]
    show Instruction.withName _ _ _ = ofContent _ (EStateM.bind (Evaluation.lookUp _ _) _ memory)
    unfold EStateM.bind Evaluation.lookUp
    rw [Instruction.withName_of_pooled hpool, withVariable]
    simp only
    cases memory.environment name <;> rfl
  | group inner line ih => exact ih hpool (by rw [nesting] at hroom; omega)
  | unary op operand ih =>
    rw [nesting] at hroom
    have hinner : frame.stack.length + operand.nesting ≤ stackCapacity := by omega
    rw [code, run_append, ih hpool hinner, eval]
    refine andThen_ofContent (fun _ _ => rfl) fun content memory => ?_
    rw [run_singleton, op.perform_opcode]
  | binary op left right ihleft ihright =>
    rw [nesting] at hroom
    have hfirst : frame.stack.length + left.nesting ≤ stackCapacity := by omega
    rw [code, List.append_assoc, run_append, ihleft hpool.left hfirst, eval]
    refine andThen_ofContent (fun _ _ => rfl) fun a memory => ?_
    have hsecond : (a :: frame.stack).length + right.nesting ≤ stackCapacity := by
      rw [List.length_cons]
      omega
    rw [run_append, ihright hpool.right hsecond]
    exact andThen_ofContent (fun _ _ => rfl) fun b memory =>
      op.run_opcodes right.lastLine a b frame.stack memory

/-! ## code of statements -/

/-- The code of a statement does what its execution does, and leaves the stack
empty. -/
theorem Stmt.run_code (statement : Stmt) {memory : Memory}
    (hpool : Pooled pool entry statement.constants) (hdepth : statement.Shallow) :
    Frame.run pool (statement.code entry) ⟨[], memory⟩ = ofUnit [] (statement.exec memory) := by
  have hexpression {e : Expr} {entry : Nat} (he : statement.expression? = some e)
      (hpool : Pooled pool entry e.constants) :
      Frame.run pool (e.code entry) ⟨[], memory⟩ = ofContent [] (e.eval memory) :=
    e.run_code hpool (by rw [List.length_nil, Nat.zero_add]; exact hdepth e he)
  cases statement with
  | var name nameLine initial line =>
    have hdefine {constants : List Constant} {content : Content} {memory : Memory}
        (hpool : Pooled pool entry (.text name :: constants)) :
        Frame.run pool [⟨.defineGlobal, [entry], line⟩] ⟨[content], memory⟩ =
          .next ⟨[], memory.define name content⟩ := by
      rw [run_singleton]
      exact Instruction.withName_of_pooled hpool _
    cases initial with
    | none => exact hdefine hpool
    | some e =>
      rw [code, run_append, hexpression rfl hpool.tail]
      exact andThen_ofContent (fun _ _ => rfl) fun content memory => hdefine hpool
  | print e line =>
    rw [code, run_append, hexpression rfl hpool]
    exact andThen_ofContent (fun _ _ => rfl) fun content memory => rfl
  | expression e line =>
    rw [code, run_append, hexpression rfl hpool]
    exact andThen_ofContent (fun _ _ => rfl) fun content memory => rfl

theorem Stmt.run_codeAll (statements : List Stmt) {memory : Memory}
    (hpool : Pooled pool entry (statements.flatMap Stmt.constants))
    (hdepth : ∀ statement ∈ statements, statement.Shallow) :
    Frame.run pool (Stmt.codeAll entry statements) ⟨[], memory⟩ =
      ofUnit [] (Stmt.execAll statements memory) := by
  induction statements generalizing entry memory with
  | nil => rfl
  | cons statement rest ih =>
    rw [List.flatMap_cons] at hpool
    rw [codeAll, run_append, statement.run_code hpool.left (hdepth _ (.head _)), execAll]
    cases hresult : statement.exec memory with
    | error error memory' =>
      rw [bind_error hresult]
      rfl
    | ok _ memory' =>
      rw [bind_ok hresult]
      exact ih hpool.right fun s hs => hdepth s (.tail _ hs)

end Lox
