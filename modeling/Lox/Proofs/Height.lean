import Lox.Proofs.Encoding
import Lox.Proofs.Frame

/-!
# Lox.Proofs.Height

How high the stack stands.

Each operation changes the height of the stack by a fixed amount
(`Opcode.height`), so the height at a place in the code does not depend on what
was computed on the way there (`Frame.length_stack_run`).  Within the code of
an expression the stack grows by no more than the nesting of the expression,
and after it by one.  Statements leave it as it was.
-/

namespace Lox

/-- The height that an operation leaves from some height. -/
def Opcode.height (op : Opcode) (height : Nat) : Nat :=
  match op with
  | constant | pushNil | pushTrue | pushFalse | getGlobal => height + 1
  | negate | not | setGlobal | ret => height
  | add | subtract | multiply | divide | equal | greater | less | print | pop | defineGlobal =>
    height - 1

/-- The height that some code leaves from some height. -/
def heightAfter (code : List Instruction) (height : Nat) : Nat :=
  code.foldl (fun height instruction => instruction.opcode.height height) height

@[simp] theorem heightAfter_nil (height : Nat) : heightAfter [] height = height := rfl

@[simp] theorem heightAfter_cons (instruction : Instruction) (code : List Instruction)
    (height : Nat) :
    heightAfter (instruction :: code) height =
      heightAfter code (instruction.opcode.height height) := rfl

theorem heightAfter_append (code code' : List Instruction) (height : Nat) :
    heightAfter (code ++ code') height = heightAfter code' (heightAfter code height) :=
  List.foldl_append

/-! ## frames -/

/-- Any next frame has a stack of this height. -/
def Progress.Stands (progress : Progress) (height : Nat) : Prop :=
  ∀ frame, progress = .next frame → frame.stack.length = height

namespace Progress.Stands

variable {frame : Frame} {pool : List Content} {height : Nat}

theorem next (frame : Frame) : (Progress.next frame).Stands frame.stack.length := by
  rintro _ ⟨⟩
  rfl

theorem failed (error : RuntimeError) (memory : Memory) :
    (Progress.failed error memory).Stands height := by
  rintro _ ⟨⟩

theorem stuck : Progress.stuck.Stands height := by
  rintro _ ⟨⟩

theorem push (frame : Frame) (content : Content) :
    (frame.push content).Stands (frame.stack.length + 1) := by
  unfold Frame.push
  split
  · exact next _
  · exact stuck

theorem ofContent (stack : List Content) (result : EStateM.Result RuntimeError Memory Content) :
    (Progress.ofContent stack result).Stands (stack.length + 1) := by
  cases result with
  | ok content memory => exact next _
  | error error memory => exact failed error memory

theorem withTop {onward : Content → List Content → Progress}
    (h : ∀ content rest, frame.stack = content :: rest → (onward content rest).Stands height) :
    (frame.withTop onward).Stands height := by
  unfold Frame.withTop
  split
  · next content rest hstack => exact h content rest hstack
  · exact stuck

theorem unary (frame : Frame) (op : UnaryOp) (line : Nat) :
    (frame.unary op line).Stands frame.stack.length :=
  withTop fun content rest hstack => by
    rw [hstack]
    exact ofContent rest _

theorem binary (frame : Frame) (op : BinaryOp) (line : Nat) :
    (frame.binary op line).Stands (frame.stack.length - 1) := by
  unfold Frame.binary
  split
  · next b a rest hstack =>
    rw [hstack]
    exact ofContent rest _
  · exact stuck

theorem withVariable {name : Text} {line : Nat} {onward : Content → Progress}
    (h : ∀ content, (onward content).Stands height) :
    (frame.withVariable name line onward).Stands height := by
  unfold Frame.withVariable
  split
  · exact h _
  · exact failed _ _

theorem withContent {instruction : Instruction} {onward : Content → Progress}
    (h : ∀ content, (onward content).Stands height) :
    (instruction.withContent pool onward).Stands height := by
  rcases instruction.withContent_cases pool onward with hstuck | ⟨_, content, _, _, honward⟩
  · rw [hstuck]
    exact stuck
  · rw [honward]
    exact h content

theorem withName {instruction : Instruction} {onward : Text → Progress}
    (h : ∀ name, (onward name).Stands height) :
    (instruction.withName pool onward).Stands height :=
  withContent fun content => by
    cases content with
    | text name => exact h name
    | _ => exact stuck

/-- A frame without its top stands one lower. -/
theorem below (frame : Frame) (memory : Content → List Content → Memory) :
    (frame.withTop fun content rest => .next ⟨rest, memory content rest⟩).Stands
      (frame.stack.length - 1) :=
  withTop fun content rest hstack => by
    rw [hstack]
    exact next _

theorem perform (pool : List Content) (instruction : Instruction) (frame : Frame) :
    (instruction.perform pool frame).Stands (instruction.opcode.height frame.stack.length) := by
  unfold Instruction.perform
  cases instruction.opcode
  case ret => exact stuck
  case constant => exact withContent (push frame)
  case pushNil => exact push frame _
  case pushTrue => exact push frame _
  case pushFalse => exact push frame _
  case negate => exact unary frame _ _
  case not => exact unary frame _ _
  case print => exact below frame _
  case pop => exact below frame _
  case defineGlobal => exact withName fun name => below frame _
  case getGlobal => exact withName fun name => withVariable (push frame)
  case setGlobal =>
    refine withName fun name => withVariable fun _ => withTop fun content rest hstack => ?_
    rw [hstack]
    exact next _
  all_goals exact binary frame _ _

end Progress.Stands

/-- The height of a stack after some code does not depend on its contents. -/
theorem Frame.length_stack_run {pool : List Content} {code : List Instruction}
    {frame frame' : Frame} (h : frame.run pool code = .next frame') :
    frame'.stack.length = heightAfter code frame.stack.length := by
  induction code generalizing frame with
  | nil =>
    cases h
    rfl
  | cons instruction code ih =>
    rw [run] at h
    cases hperform : instruction.perform pool frame with
    | next frame'' =>
      rw [hperform] at h
      rw [ih h, heightAfter_cons, Progress.Stands.perform pool instruction frame frame'' hperform]
    | failed error memory =>
      rw [hperform] at h
      cases h
    | stuck =>
      rw [hperform] at h
      cases h

/-! ## expressions -/

/-- The front of some code and more is the front of the code, or the code and a
front of more. -/
theorem prefix_append_cases {α : Type} {before front back : List α}
    (h : before <+: front ++ back) :
    before <+: front ∨ ∃ rest, before = front ++ rest ∧ rest <+: back := by
  rcases List.prefix_or_prefix_of_prefix h (List.prefix_append front back) with hfront | ⟨rest, rfl⟩
  · exact .inl hfront
  · exact .inr ⟨rest, rfl, (List.prefix_append_right_inj front).1 h⟩

theorem prefix_singleton_cases {α : Type} {before : List α} {a : α} (h : before <+: [a]) :
    before = [] ∨ before = [a] := by
  rcases List.prefix_cons_iff.1 h with rfl | ⟨rest, rfl, hrest⟩
  · exact .inl rfl
  · exact .inr (by rw [List.prefix_nil.1 hrest])

/-- Code that leaves one value on the stack, and on its way no more than
`peak` of them. -/
structure Raises (code : List Instruction) (peak : Nat) : Prop where
  after : ∀ height, heightAfter code height = height + 1
  within : ∀ height before, before <+: code → heightAfter before height ≤ height + peak

namespace Raises

variable {code code' : List Instruction} {peak peak' : Nat} {instruction : Instruction}

theorem mono (h : Raises code peak) (hle : peak ≤ peak') : Raises code peak' :=
  ⟨h.after, fun height before hbefore => by
    have := h.within height before hbefore
    omega⟩

/-- An operation that pushes a value. -/
theorem push (h : ∀ height, instruction.opcode.height height = height + 1) :
    Raises [instruction] 1 := by
  constructor
  · exact h
  · intro height before hbefore
    rcases prefix_singleton_cases hbefore with rfl | rfl
    · exact Nat.le_add_right height 1
    · exact Nat.le_of_eq (h height)

/-- Code that goes on with operations which keep the height. -/
theorem keep (h : Raises code peak) (hpeak : 0 < peak)
    (hkeep : ∀ instruction ∈ code', ∀ height, instruction.opcode.height height = height) :
    Raises (code ++ code') peak := by
  have hlevel (more : List Instruction) (hmore : ∀ instruction ∈ more, ∀ height,
      instruction.opcode.height height = height) (height : Nat) :
      heightAfter more height = height := by
    induction more generalizing height with
    | nil => rfl
    | cons instruction more ih =>
      rw [heightAfter_cons, hmore _ (.head _), ih fun i hi => hmore i (.tail _ hi)]
  constructor
  · intro height
    rw [heightAfter_append, hlevel _ hkeep, h.after]
  · intro height before hbefore
    rcases prefix_append_cases hbefore with hfront | ⟨rest, rfl, hrest⟩
    · exact h.within height before hfront
    · rw [heightAfter_append, hlevel _ fun i hi => hkeep i (hrest.subset hi), h.after]
      omega

/-- The code of two operands and an operation that joins them. -/
theorem join (h : Raises code peak) (h' : Raises code' peak') (hpeak : 0 < peak')
    (hjoin : ∀ height, instruction.opcode.height height = height - 1) :
    Raises (code ++ code' ++ [instruction]) (max peak (1 + peak')) := by
  constructor
  · intro height
    rw [heightAfter_append, heightAfter_append, h.after, h'.after]
    exact hjoin _
  · intro height before hbefore
    rcases prefix_append_cases hbefore with hoperands | ⟨rest, rfl, hrest⟩
    · rcases prefix_append_cases hoperands with hfront | ⟨rest, rfl, hrest⟩
      · have hle := h.within height before hfront
        omega
      · have hle := h'.within (height + 1) rest hrest
        rw [heightAfter_append, h.after]
        omega
    · rw [heightAfter_append, heightAfter_append, h.after, h'.after]
      rcases prefix_singleton_cases hrest with rfl | rfl
      · rw [heightAfter_nil]
        omega
      · rw [heightAfter_cons, heightAfter_nil, hjoin]
        omega

end Raises

/-- An expression leaves one value, and on its way no more than its nesting. -/
theorem Expr.raises_code (e : Expr) (entry : Nat) : Raises (e.code entry) e.nesting := by
  induction e generalizing entry with
  | literal value line =>
    refine .push fun height => ?_
    cases value with
    | bool b => cases b <;> rfl
    | _ => rfl
  | global name line => exact .push fun height => rfl
  | assign name value ih =>
    have hset : ∀ instruction ∈ [(⟨.setGlobal, [entry], value.lastLine⟩ : Instruction)], ∀ height,
        instruction.opcode.height height = height := by simp [Opcode.height]
    exact ((ih (entry + 1)).keep value.nesting_pos hset).mono (Nat.le_add_left _ 1)
  | group inner line ih => exact (ih entry).mono (Nat.le_add_left _ 1)
  | unary op operand ih =>
    refine ((ih entry).keep operand.nesting_pos ?_).mono (Nat.le_add_left _ 1)
    cases op <;> simp [Opcode.height, UnaryOp.opcode]
  | binary op left right ihleft ihright =>
    let operands := left.code entry ++ right.code (entry + left.constants.length)
    have hjoin (opcode : Opcode) (hopcode : ∀ height, opcode.height height = height - 1) :
        Raises (operands ++ [⟨opcode, [], right.lastLine⟩])
          (max left.nesting (1 + right.nesting)) :=
      (ihleft entry).join (ihright _) right.nesting_pos hopcode
    have hnegated (opcode : Opcode) (hopcode : ∀ height, opcode.height height = height - 1) :
        Raises (operands ++ ([⟨opcode, [], right.lastLine⟩] ++ [⟨.not, [], right.lastLine⟩]))
          (max left.nesting (1 + right.nesting)) := by
      rw [← List.append_assoc]
      exact (hjoin opcode hopcode).keep (by omega) (by simp [Opcode.height])
    rw [code]
    cases op
    case notEqual => exact hnegated .equal fun _ => rfl
    case greaterEqual => exact hnegated .less fun _ => rfl
    case lessEqual => exact hnegated .greater fun _ => rfl
    all_goals exact hjoin _ fun _ => rfl

/-- The size of the code of an expression does not depend on what comes before
it. -/
theorem Expr.byteCount_code (e : Expr) (entry entry' : Nat) :
    byteCount (e.code entry) = byteCount (e.code entry') := by
  induction e generalizing entry entry' with
  | literal value line =>
    cases value with
    | bool b => cases b <;> rfl
    | _ => rfl
  | global name line => rfl
  | assign name value ih => simp only [code, byteCount_append, ih (entry + 1) (entry' + 1)]; rfl
  | group inner line ih => exact ih entry entry'
  | unary op operand ih => simp only [code, byteCount_append, ih entry entry']
  | binary op left right ihleft ihright =>
    simp only [code, byteCount_append, ihleft entry entry',
      ihright _ (entry' + left.constants.length)]

/-! ## statements -/

namespace Stmt

/-- The code of a statement begins with that of its expression. -/
theorem code_of_expression? {statement : Stmt} {e : Expr} (h : statement.expression? = some e)
    (entry : Nat) : ∃ entry' more, statement.code entry = e.code entry' ++ more := by
  cases statement with
  | var name nameLine initial line =>
    obtain rfl : initial = some e := h
    exact ⟨entry + 1, _, rfl⟩
  | print value line =>
    obtain rfl := Option.some.inj h
    exact ⟨entry, _, rfl⟩
  | expression value line =>
    obtain rfl := Option.some.inj h
    exact ⟨entry, _, rfl⟩

theorem heightAfter_code (statement : Stmt) (entry height : Nat) :
    heightAfter (statement.code entry) height = height := by
  have hafter (e : Expr) (entry : Nat) {opcode : Opcode} {operands : List Int} {line : Nat}
      (hopcode : opcode.height (height + 1) = height) :
      heightAfter (e.code entry ++ [⟨opcode, operands, line⟩]) height = height := by
    rw [heightAfter_append, (e.raises_code entry).after]
    exact hopcode
  cases statement with
  | var name nameLine initial line =>
    cases initial with
    | none => rfl
    | some e => exact hafter e (entry + 1) rfl
  | print value line => exact hafter value entry rfl
  | expression value line => exact hafter value entry rfl

theorem heightAfter_codeAll (statements : List Stmt) (entry height : Nat) :
    heightAfter (codeAll entry statements) height = height := by
  induction statements generalizing entry with
  | nil => rfl
  | cons statement rest ih => rw [codeAll, heightAfter_append, heightAfter_code, ih]

theorem codeAll_append (before after : List Stmt) (entry : Nat) :
    codeAll entry (before ++ after) =
      codeAll entry before ++ codeAll (entry + (before.flatMap constants).length) after := by
  induction before generalizing entry with
  | nil => rfl
  | cons statement before ih =>
    rw [List.cons_append, codeAll, ih, codeAll, List.flatMap_cons, List.length_append,
      List.append_assoc, Nat.add_assoc]

/-- Between two statements the stack is as high as before the first one. -/
theorem heightAfter_boundary {statements before after : List Stmt} {front : List Instruction}
    (hstatements : statements = before ++ after) (hfront : front <+: codeAll 0 statements)
    (hcount : byteCount front = byteCount (codeAll 0 before)) (height : Nat) :
    heightAfter front height = height := by
  subst hstatements
  rw [codeAll_append] at hfront
  rw [eq_of_byteCount_eq hfront (List.prefix_append _ _) hcount, heightAfter_codeAll]

/-- Within the expression of a statement the stack grows by no more than its
nesting. -/
theorem heightAfter_expression {statements before after : List Stmt} {statement : Stmt} {e : Expr}
    {front : List Instruction} (hstatements : statements = before ++ statement :: after)
    (he : statement.expression? = some e) (hfront : front <+: codeAll 0 statements)
    (hfrom : byteCount (codeAll 0 before) ≤ byteCount front)
    (hto : byteCount front ≤ byteCount (codeAll 0 before) + byteCount (e.code 0)) (height : Nat) :
    heightAfter front height ≤ height + e.nesting := by
  subst hstatements
  obtain ⟨entry, more, hcode⟩ := code_of_expression? he (0 + (before.flatMap constants).length)
  rw [codeAll_append, codeAll, hcode, List.append_assoc] at hfront
  -- the front is the code of the statements before, and some of the expression
  obtain ⟨rest, rfl⟩ := prefix_of_byteCount_le (List.prefix_append _ _) hfront hfrom
  have hrest := (List.prefix_append_right_inj _).1 hfront
  have hle : byteCount rest ≤ byteCount (e.code entry) := by
    rw [byteCount_append] at hto
    rw [e.byteCount_code entry 0]
    omega
  rw [heightAfter_append, heightAfter_codeAll]
  exact (e.raises_code entry).within height rest
    (prefix_of_byteCount_le hrest (List.prefix_append _ _) hle)

end Stmt

end Lox
