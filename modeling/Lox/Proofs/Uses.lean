import Lox.Proofs.Frame

/-!
# Lox.Proofs.Uses

The variables that a program uses.

A use of a variable is a read, an assignment or a declaration.  The uses of a
tree are listed in the order in which they happen, and so are those of its
code: the two lists are the same (`Program.filterMap_use?_code`).  Every name
that is used stands in the source (`Program.Derives.names_of_uses`).
-/

namespace Lox

/-- What is done with a variable. -/
inductive Use where
  | read | assigned | declared
  deriving DecidableEq, Repr

/-! ## uses of trees -/

/-- The uses of an expression, in the order of its evaluation: the target of an
assignment comes after its right side. -/
def Expr.uses : Expr → List (Use × Text)
  | literal _ _ => []
  | global name _ => [(.read, name)]
  | assign name value => value.uses ++ [(.assigned, name)]
  | group inner _ => inner.uses
  | unary _ operand => operand.uses
  | binary _ left right => left.uses ++ right.uses

/-- The uses of a statement. -/
def Stmt.uses : Stmt → List (Use × Text)
  | var name _ none _ => [(.declared, name)]
  | var name _ (some initial) _ => initial.uses ++ [(.declared, name)]
  | print value _ => value.uses
  | expression value _ => value.uses

/-- The uses of a program. -/
def Program.uses (program : Program) : List (Use × Text) := program.statements.flatMap Stmt.uses

/-! ## uses of code -/

/-- What an operation does with a variable. -/
def Opcode.use? : Opcode → Option Use
  | getGlobal => some .read
  | setGlobal => some .assigned
  | defineGlobal => some .declared
  | _ => none

theorem Opcode.operandWidths_of_use? {op : Opcode} {use : Use} (h : op.use? = some use) :
    op.operandWidths = [1] := by
  cases op <;> cases h <;> rfl

/-- The use that an instruction makes of the variable that its operand names. -/
def Instruction.use? (pool : List Content) (instruction : Instruction) : Option (Use × Text) :=
  instruction.opcode.use?.bind fun use => (instruction.name? pool).map (use, ·)

section

variable {pool : List Content} {entry : Nat}

namespace Instruction

variable {instruction : Instruction}

theorem use?_eq_none (h : instruction.opcode.use? = none) : instruction.use? pool = none := by
  rw [use?, h, Option.bind_none]

theorem use?_of_pooled {opcode : Opcode} {use : Use} {line : Nat} {name : Text}
    {constants : List Constant} (h : opcode.use? = some use)
    (hpool : Pooled pool entry (.text name :: constants)) :
    use? pool ⟨opcode, [(entry : Int)], line⟩ = some (use, name) := by
  have hname := name?_of_pooled opcode line hpool
  rw [use?, h, Option.bind_some, hname, Option.map_some]

/-- The uses of a single instruction. -/
theorem filterMap_singleton (pool : List Content) (instruction : Instruction) :
    [instruction].filterMap (use? pool) = (instruction.use? pool).toList := by
  rw [List.filterMap_cons, List.filterMap_nil]
  cases instruction.use? pool <;> rfl

end Instruction

open Instruction

theorem Literal.use?_code (value : Literal) (entry line : Nat) :
    (value.code entry line).use? pool = none := by
  refine use?_eq_none ?_
  cases value with
  | bool value => cases value <;> rfl
  | _ => rfl

theorem UnaryOp.use?_opcode (op : UnaryOp) : op.opcode.use? = none := by cases op <;> rfl

theorem BinaryOp.use?_opcodes (op : BinaryOp) : ∀ opcode ∈ op.opcodes, opcode.use? = none := by
  cases op <;> decide

/-- The code of an expression uses what the expression uses, in the same
order. -/
theorem Expr.filterMap_use?_code (e : Expr) (hpool : Pooled pool entry e.constants) :
    (e.code entry).filterMap (use? pool) = e.uses := by
  induction e generalizing entry with
  | literal value line => rw [code, filterMap_singleton, value.use?_code]; rfl
  | global name line =>
    rw [code, filterMap_singleton, use?_of_pooled rfl hpool]
    rfl
  | assign name value ih =>
    rw [code, List.filterMap_append, ih hpool.tail, filterMap_singleton, use?_of_pooled rfl hpool]
    rfl
  | group inner line ih => exact ih hpool
  | unary op operand ih =>
    rw [code, List.filterMap_append, ih hpool, filterMap_singleton, use?_eq_none op.use?_opcode]
    exact List.append_nil _
  | binary op left right ihleft ihright =>
    have hnone : (op.opcodes.map fun opcode => Instruction.mk opcode [] right.lastLine).filterMap
        (use? pool) = [] := by
      rw [List.filterMap_map, List.filterMap_eq_nil_iff]
      exact fun opcode hopcode => use?_eq_none (op.use?_opcodes opcode hopcode)
    rw [code, List.filterMap_append, List.filterMap_append, ihleft hpool.left,
      ihright hpool.right, hnone, List.append_nil, uses]

theorem Stmt.filterMap_use?_code (statement : Stmt)
    (hpool : Pooled pool entry statement.constants) :
    (statement.code entry).filterMap (use? pool) = statement.uses := by
  cases statement with
  | var name nameLine initial line =>
    cases initial with
    | none =>
      rw [code, List.filterMap_cons_none (use?_eq_none rfl), filterMap_singleton,
        use?_of_pooled rfl hpool]
      rfl
    | some e =>
      rw [code, List.filterMap_append, e.filterMap_use?_code hpool.tail, filterMap_singleton,
        use?_of_pooled rfl hpool]
      rfl
  | print e line =>
    rw [code, List.filterMap_append, e.filterMap_use?_code hpool, filterMap_singleton]
    exact List.append_nil _
  | expression e line =>
    rw [code, List.filterMap_append, e.filterMap_use?_code hpool, filterMap_singleton]
    exact List.append_nil _

theorem Stmt.filterMap_use?_codeAll (statements : List Stmt)
    (hpool : Pooled pool entry (statements.flatMap Stmt.constants)) :
    (Stmt.codeAll entry statements).filterMap (use? pool) = statements.flatMap Stmt.uses := by
  induction statements generalizing entry with
  | nil => rfl
  | cons statement rest ih =>
    rw [List.flatMap_cons] at hpool
    rw [codeAll, List.filterMap_append, statement.filterMap_use?_code hpool.left,
      ih hpool.right, List.flatMap_cons]

/-- The code of a program uses what the program uses, in the same order. -/
theorem Program.filterMap_use?_code (program : Program) :
    (Stmt.codeAll 0 program.statements).filterMap
      (use? (program.constants.map Constant.content)) = program.uses :=
  Stmt.filterMap_use?_codeAll program.statements (.self _)

end

/-! ## names in the source -/

/-- A name stands among tokens. -/
def Token.Names (tokens : List Token) (name : Text) : Prop :=
  ∃ token ∈ tokens, token.kind = .identifier ∧ token.lexeme = name

theorem Token.Names.mono {tokens more : List Token} {name : Text} (h : Names tokens name)
    (hsubset : tokens ⊆ more) : Names more name :=
  let ⟨token, hmem, hkind⟩ := h
  ⟨token, hsubset hmem, hkind⟩

open Token

section

variable {tokens : List Token} {use : Use} {name : Text}

theorem Level.Derives.names_of_uses {level : Level} {e : Expr} (h : level.Derives tokens e)
    (huse : (use, name) ∈ e.uses) : Names tokens name := by
  induction h with
  | tighter _ ih => exact ih huse
  | @assign target _ _ _ hname _ _ ih =>
    rcases List.mem_append.1 huse with hvalue | htarget
    · exact (ih hvalue).mono fun token htoken => .tail _ (.tail _ htoken)
    · cases List.mem_singleton.1 htarget
      exact ⟨target, .head _, hname, rfl⟩
  | binary _ _ _ ihleft ihright =>
    rcases List.mem_append.1 huse with hleft | hright
    · exact (ihleft hleft).mono (List.subset_append_left _ _)
    · exact (ihright hright).mono fun token htoken =>
        List.mem_append_right _ (.tail _ htoken)
  | unary _ _ ih => exact (ih huse).mono (List.subset_cons_self _ _)
  | literal _ => cases huse
  | @global token hname =>
    cases List.mem_singleton.1 huse
    exact ⟨token, .head _, hname, rfl⟩
  | group _ _ _ ih =>
    exact (ih huse).mono fun token htoken => List.mem_append_left _ (.tail _ htoken)

theorem Stmt.Derives.names_of_uses {statement : Stmt} (h : statement.Derives tokens)
    (huse : (use, name) ∈ statement.uses) : Names tokens name := by
  cases h with
  | @declare _ target _ _ hname _ =>
    cases List.mem_singleton.1 huse
    exact ⟨target, .tail _ (.head _), hname, rfl⟩
  | @define _ target _ _ _ _ _ hname _ hinitial _ =>
    rcases List.mem_append.1 huse with hvalue | htarget
    · exact (hinitial.names_of_uses hvalue).mono fun token htoken =>
        List.mem_append_left _ (.tail _ (.tail _ (.tail _ htoken)))
    · cases List.mem_singleton.1 htarget
      exact ⟨target, .tail _ (.head _), hname, rfl⟩
  | print _ hvalue _ =>
    exact (hvalue.names_of_uses huse).mono fun token htoken =>
      List.mem_append_left _ (.tail _ htoken)
  | expression hvalue _ => exact (hvalue.names_of_uses huse).mono (List.subset_append_left _ _)

theorem Stmt.DerivesAll.names_of_uses {statements : List Stmt}
    (h : Stmt.DerivesAll tokens statements) (huse : (use, name) ∈ statements.flatMap Stmt.uses) :
    Names tokens name := by
  induction h with
  | nil => cases huse
  | cons hhead _ ih =>
    rw [List.flatMap_cons] at huse
    rcases List.mem_append.1 huse with hfirst | hrest
    · exact (hhead.names_of_uses hfirst).mono (List.subset_append_left _ _)
    · exact (ih hrest).mono (List.subset_append_right _ _)

/-- Every name that a program uses is that of an identifier in its source. -/
theorem Program.Derives.names_of_uses {program : Program} (h : program.Derives tokens)
    (huse : (use, name) ∈ program.uses) : Names tokens name := by
  obtain ⟨body, last, rfl, -, hbody, -⟩ := h
  exact (hbody.names_of_uses huse).mono (List.subset_append_left _ _)

end

end Lox
