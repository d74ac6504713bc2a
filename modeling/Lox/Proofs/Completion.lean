import Lox.Proofs.Acceptance
import Lox.Proofs.Encoding
import Lox.Proofs.Lines

/-!
# Lox.Proofs.Completion

What each instruction completes.

To every tree that the grammar derives from tokens belongs a list of
completions: the operations of its code, each with the tokens of the construct
that is complete when the operation is written (`Level.Completes`).  The code of
the tree has these operations, each with the line of the last of its tokens
(`Level.Completes.code`), and these tokens stand in the order of the source
(`Level.Completes.drawn`).
-/

namespace Lox

/-- An operation and the construct that it completes: the tokens of the
construct before the last one, and the last one. -/
structure Completion where
  opcode : Opcode
  front : List Token
  last : Token

/-- The operation that puts a literal on the stack. -/
def Literal.opcode : Literal → Opcode
  | nil => .pushNil
  | bool true => .pushTrue
  | bool false => .pushFalse
  | number _ => .constant
  | string _ => .constant

/-! ## completions of trees -/

/-- The completions of an expression, by the rules of the grammar.  A literal or
the value of a variable is complete with its token, an operation with the last
token of the whole expression.  A group writes nothing of its own, but it ends
with its parenthesis. -/
inductive Level.Completes : Level → List Token → Expr → List Completion → Prop where
  | tighter {level : Level} {tokens : List Token} {e : Expr} {completions : List Completion}
      (inner : level.next.Completes tokens e completions) : level.Completes tokens e completions
  | assign {name sign last : Token} {front : List Token} {value : Expr}
      {completions : List Completion} (hname : name.kind = .identifier)
      (hsign : sign.kind = .equal)
      (inner : Level.expression.Completes (front ++ [last]) value completions) :
      Level.expression.Completes (name :: sign :: front ++ [last]) (.assign name.lexeme value)
        (completions ++ [⟨.setGlobal, name :: sign :: front, last⟩])
  | binary {level : Level} {sign last : Token} {op : BinaryOp} {before front : List Token}
      {left right : Expr} {completions completions' : List Completion}
      (hsign : Joins level sign.kind op) (hleft : level.Completes before left completions)
      (hright : level.next.Completes (front ++ [last]) right completions') :
      level.Completes (before ++ sign :: front ++ [last]) (.binary op left right)
        (completions ++ completions' ++
          op.opcodes.map fun opcode => ⟨opcode, before ++ sign :: front, last⟩)
  | unary {sign last : Token} {op : UnaryOp} {front : List Token} {operand : Expr}
      {completions : List Completion} (hsign : Signs sign.kind op)
      (inner : Level.unary.Completes (front ++ [last]) operand completions) :
      Level.unary.Completes (sign :: front ++ [last]) (.unary op operand)
        (completions ++ [⟨op.opcode, sign :: front, last⟩])
  | literal {token : Token} {value : Literal} (h : Denotes token.kind token.lexeme value) :
      Level.primary.Completes [token] (.literal value token.line) [⟨value.opcode, [], token⟩]
  | global {token : Token} (h : token.kind = .identifier) :
      Level.primary.Completes [token] (.global token.lexeme token.line) [⟨.getGlobal, [], token⟩]
  | group {opening closing : Token} {tokens : List Token} {inner : Expr}
      {completions : List Completion} (hopening : opening.kind = .leftParen)
      (hclosing : closing.kind = .rightParen)
      (hinner : Level.expression.Completes tokens inner completions) :
      Level.primary.Completes (opening :: tokens ++ [closing]) (.group inner closing.line)
        completions

/-- The completions of a declaration.  The value of a variable without an
initial one is complete with its name, everything else with the semicolon. -/
inductive Stmt.Completes : List Token → Stmt → List Completion → Prop where
  | declare {intro name semicolon : Token} (hintro : intro.kind = .keyword .varWord)
      (hname : name.kind = .identifier) (hsemicolon : semicolon.kind = .semicolon) :
      Stmt.Completes [intro, name, semicolon] (.var name.lexeme name.line none semicolon.line)
        [⟨.pushNil, [intro], name⟩, ⟨.defineGlobal, [intro, name], semicolon⟩]
  | define {intro name sign semicolon : Token} {tokens : List Token} {initial : Expr}
      {completions : List Completion} (hintro : intro.kind = .keyword .varWord)
      (hname : name.kind = .identifier) (hsign : sign.kind = .equal)
      (hinitial : Level.expression.Completes tokens initial completions)
      (hsemicolon : semicolon.kind = .semicolon) :
      Stmt.Completes (intro :: name :: sign :: tokens ++ [semicolon])
        (.var name.lexeme name.line (some initial) semicolon.line)
        (completions ++ [⟨.defineGlobal, intro :: name :: sign :: tokens, semicolon⟩])
  | print {intro semicolon : Token} {tokens : List Token} {value : Expr}
      {completions : List Completion} (hintro : intro.kind = .keyword .printWord)
      (hvalue : Level.expression.Completes tokens value completions)
      (hsemicolon : semicolon.kind = .semicolon) :
      Stmt.Completes (intro :: tokens ++ [semicolon]) (.print value semicolon.line)
        (completions ++ [⟨.print, intro :: tokens, semicolon⟩])
  | expression {semicolon : Token} {tokens : List Token} {value : Expr}
      {completions : List Completion}
      (hvalue : Level.expression.Completes tokens value completions)
      (hsemicolon : semicolon.kind = .semicolon) :
      Stmt.Completes (tokens ++ [semicolon]) (.expression value semicolon.line)
        (completions ++ [⟨.pop, tokens, semicolon⟩])

/-- The completions of consecutive declarations. -/
inductive Stmt.CompletesAll : List Token → List Stmt → List Completion → Prop where
  | nil : Stmt.CompletesAll [] [] []
  | cons {tokens more : List Token} {statement : Stmt} {rest : List Stmt}
      {completions completions' : List Completion}
      (head : statement.Completes tokens completions)
      (tail : Stmt.CompletesAll more rest completions') :
      Stmt.CompletesAll (tokens ++ more) (statement :: rest) (completions ++ completions')

/-- The completions of a program, the last of which is the return at the end
marker. -/
def Program.Completes (tokens : List Token) (program : Program)
    (completions : List Completion) : Prop :=
  ∃ body last before, tokens = body ++ [last] ∧ last.kind = .endOfInput ∧
    Stmt.CompletesAll body program.statements before ∧ program.endLine = last.line ∧
    completions = before ++ [⟨.ret, body, last⟩]

/-- The completions of a lone expression. -/
def Query.Completes (tokens : List Token) (query : Query) (completions : List Completion) : Prop :=
  ∃ body last before, tokens = body ++ [last] ∧ last.kind = .endOfInput ∧
    Level.expression.Completes body query.expression before ∧ query.endLine = last.line ∧
    completions = before ++ [⟨.ret, body, last⟩]

variable {tokens : List Token} {level : Level} {e : Expr} {completions : List Completion}

/-! ## what is derived is completed -/

/-- The last token of an expression is at its last line. -/
theorem Level.Derives.exists_last (h : level.Derives tokens e) :
    ∃ front last, tokens = front ++ [last] ∧ last.line = e.lastLine := by
  induction h with
  | tighter _ ih => exact ih
  | @assign name sign _ _ _ _ _ ih =>
    obtain ⟨front, last, rfl, hline⟩ := ih
    exact ⟨name :: sign :: front, last, rfl, hline⟩
  | @binary _ sign _ before _ _ _ _ _ _ _ ih =>
    obtain ⟨front, last, rfl, hline⟩ := ih
    exact ⟨before ++ sign :: front, last, by simp, hline⟩
  | @unary sign _ _ _ _ _ ih =>
    obtain ⟨front, last, rfl, hline⟩ := ih
    exact ⟨sign :: front, last, rfl, hline⟩
  | @literal token _ _ => exact ⟨[], token, rfl, rfl⟩
  | @global token _ => exact ⟨[], token, rfl, rfl⟩
  | @group opening closing tokens _ _ _ _ _ => exact ⟨opening :: tokens, closing, rfl, rfl⟩

theorem Level.Derives.line_last {front : List Token} {last : Token}
    (h : level.Derives (front ++ [last]) e) : last.line = e.lastLine := by
  obtain ⟨front', last', heq, hline⟩ := h.exists_last
  obtain ⟨-, hlast⟩ := List.append_inj' heq rfl
  cases hlast
  exact hline

theorem Level.Derives.exists_completes (h : level.Derives tokens e) :
    ∃ completions, level.Completes tokens e completions := by
  induction h with
  | tighter _ ih =>
    obtain ⟨completions, hinner⟩ := ih
    exact ⟨completions, .tighter hinner⟩
  | assign hname hsign inner ih =>
    obtain ⟨completions, hinner⟩ := ih
    obtain ⟨front, last, rfl, -⟩ := inner.exists_last
    exact ⟨_, .assign hname hsign hinner⟩
  | @binary _ sign _ before _ _ _ hsign _ right ihleft ihright =>
    obtain ⟨completions, hleft⟩ := ihleft
    obtain ⟨completions', hright⟩ := ihright
    obtain ⟨front, last, rfl, -⟩ := right.exists_last
    rw [← List.cons_append, ← List.append_assoc]
    exact ⟨_, .binary hsign hleft hright⟩
  | unary hsign inner ih =>
    obtain ⟨completions, hinner⟩ := ih
    obtain ⟨front, last, rfl, -⟩ := inner.exists_last
    exact ⟨_, .unary hsign hinner⟩
  | literal h => exact ⟨_, .literal h⟩
  | global h => exact ⟨_, .global h⟩
  | group hopening hclosing _ ih =>
    obtain ⟨completions, hinner⟩ := ih
    exact ⟨completions, .group hopening hclosing hinner⟩

theorem Stmt.Derives.exists_completes {statement : Stmt} (h : statement.Derives tokens) :
    ∃ completions, statement.Completes tokens completions := by
  cases h with
  | declare hintro hname hsemicolon => exact ⟨_, .declare hintro hname hsemicolon⟩
  | define hintro hname hsign hinitial hsemicolon =>
    obtain ⟨completions, hvalue⟩ := hinitial.exists_completes
    exact ⟨_, .define hintro hname hsign hvalue hsemicolon⟩
  | print hintro hvalue hsemicolon =>
    obtain ⟨completions, hvalue⟩ := hvalue.exists_completes
    exact ⟨_, .print hintro hvalue hsemicolon⟩
  | expression hvalue hsemicolon =>
    obtain ⟨completions, hvalue⟩ := hvalue.exists_completes
    exact ⟨_, .expression hvalue hsemicolon⟩

theorem Stmt.DerivesAll.exists_completes {statements : List Stmt}
    (h : Stmt.DerivesAll tokens statements) :
    ∃ completions, Stmt.CompletesAll tokens statements completions := by
  induction h with
  | nil => exact ⟨[], .nil⟩
  | cons head _ ih =>
    obtain ⟨completions, hhead⟩ := head.exists_completes
    obtain ⟨completions', htail⟩ := ih
    exact ⟨_, .cons hhead htail⟩

theorem Program.Derives.exists_completes {program : Program} (h : program.Derives tokens) :
    ∃ completions, program.Completes tokens completions := by
  obtain ⟨body, last, htokens, hlast, hbody, hline⟩ := h
  obtain ⟨before, hbefore⟩ := hbody.exists_completes
  exact ⟨_, body, last, before, htokens, hlast, hbefore, hline, rfl⟩

theorem Query.Derives.exists_completes {query : Query} (h : query.Derives tokens) :
    ∃ completions, query.Completes tokens completions := by
  obtain ⟨body, last, htokens, hlast, hbody, hline⟩ := h
  obtain ⟨before, hbefore⟩ := hbody.exists_completes
  exact ⟨_, body, last, before, htokens, hlast, hbefore, hline, rfl⟩

/-! ## what is completed is derived -/

theorem Level.Completes.derives (h : level.Completes tokens e completions) :
    level.Derives tokens e := by
  induction h with
  | tighter _ ih => exact .tighter ih
  | assign hname hsign _ ih => exact .assign hname hsign ih
  | binary hsign _ _ ihleft ihright =>
    rw [List.append_assoc, List.cons_append]
    exact .binary hsign ihleft ihright
  | unary hsign _ ih => exact .unary hsign ih
  | literal h => exact .literal h
  | global h => exact .global h
  | group hopening hclosing _ ih => exact .group hopening hclosing ih

/-! ## operations and lines -/

/-- What an instruction tells of the source: its operation and its line. -/
def Instruction.mark (instruction : Instruction) : Opcode × Nat :=
  (instruction.opcode, instruction.line)

/-- What a completion makes the instruction tell. -/
def Completion.mark (completion : Completion) : Opcode × Nat :=
  (completion.opcode, completion.last.line)

theorem Literal.mark_code (value : Literal) (entry line : Nat) :
    (value.code entry line).mark = (value.opcode, line) := by
  cases value with
  | bool b => cases b <;> rfl
  | _ => rfl

/-- The instructions of an expression are those of its completions. -/
theorem Level.Completes.code (h : level.Completes tokens e completions) (entry : Nat) :
    (e.code entry).map Instruction.mark = completions.map Completion.mark := by
  induction h generalizing entry with
  | tighter _ ih => exact ih entry
  | assign _ _ inner ih =>
    rw [Expr.code, List.map_append, List.map_append, ih, ← inner.derives.line_last]
    rfl
  | binary _ _ hright ihleft ihright =>
    rw [Expr.code, List.map_append, List.map_append, List.map_append, List.map_append, ihleft,
      ihright, ← hright.derives.line_last, List.map_map, List.map_map]
    rfl
  | unary _ inner ih =>
    rw [Expr.code, List.map_append, List.map_append, ih, ← inner.derives.line_last]
    rfl
  | literal _ => exact congrArg (fun mark => [mark]) (Literal.mark_code _ _ _)
  | global _ => rfl
  | group _ _ _ ih => exact ih entry

theorem Stmt.Completes.code {statement : Stmt} (h : statement.Completes tokens completions)
    (entry : Nat) :
    (statement.code entry).map Instruction.mark = completions.map Completion.mark := by
  cases h with
  | declare _ _ _ => rfl
  | define _ _ _ hinitial _ =>
    rw [Stmt.code, List.map_append, List.map_append, hinitial.code]
    rfl
  | print _ hvalue _ =>
    rw [Stmt.code, List.map_append, List.map_append, hvalue.code]
    rfl
  | expression hvalue _ =>
    rw [Stmt.code, List.map_append, List.map_append, hvalue.code]
    rfl

theorem Stmt.CompletesAll.code {statements : List Stmt}
    (h : Stmt.CompletesAll tokens statements completions) (entry : Nat) :
    (Stmt.codeAll entry statements).map Instruction.mark = completions.map Completion.mark := by
  induction h generalizing entry with
  | nil => rfl
  | cons head _ ih => rw [Stmt.codeAll, List.map_append, List.map_append, head.code, ih]

theorem Program.Completes.code {program : Program} (h : program.Completes tokens completions) :
    program.code.map Instruction.mark = completions.map Completion.mark := by
  obtain ⟨body, last, before, -, -, hbefore, hline, rfl⟩ := h
  rw [Program.code, List.map_append, List.map_append, hbefore.code, hline]
  rfl

theorem Query.Completes.code {query : Query} (h : query.Completes tokens completions) :
    query.code.map Instruction.mark = completions.map Completion.mark := by
  obtain ⟨body, last, before, -, -, hbefore, hline, rfl⟩ := h
  rw [Query.code, List.map_append, List.map_append, hbefore.code, hline]
  rfl

/-! ## the order of the source -/

/-- Tokens taken from others in their order, some perhaps repeatedly. -/
structure Drawn (picked tokens : List Token) : Prop where
  mem : ∀ token ∈ picked, token ∈ tokens
  ascending : Ascending (tokens.map Token.line) → Ascending (picked.map Token.line)

namespace Drawn

variable {picked picked' tokens' : List Token}

theorem of_sublist (h : Drawn picked tokens) (hsublist : tokens.Sublist tokens') :
    Drawn picked tokens' :=
  ⟨fun token htoken => hsublist.mem (h.mem token htoken),
    fun hascending => h.ascending (hascending.sublist (hsublist.map _))⟩

theorem append (h : Drawn picked tokens) (h' : Drawn picked' tokens') :
    Drawn (picked ++ picked') (tokens ++ tokens') := by
  refine ⟨fun token htoken => ?_, fun hascending => ?_⟩
  · exact List.mem_append.2 ((List.mem_append.1 htoken).imp (h.mem token) (h'.mem token))
  · rw [List.map_append, Ascending, List.pairwise_append] at *
    obtain ⟨hfirst, hsecond, hacross⟩ := hascending
    refine ⟨h.ascending hfirst, h'.ascending hsecond, fun line hline line' hline' => ?_⟩
    obtain ⟨token, htoken, rfl⟩ := List.mem_map.1 hline
    obtain ⟨token', htoken', rfl⟩ := List.mem_map.1 hline'
    exact hacross _ (List.mem_map_of_mem (h.mem token htoken)) _
      (List.mem_map_of_mem (h'.mem token' htoken'))

/-- The last token may be taken once more. -/
theorem last {front : List Token} {last : Token} (h : Drawn picked (front ++ [last])) :
    Drawn (picked ++ [last]) (front ++ [last]) := by
  refine ⟨fun token htoken => ?_, fun hascending => ?_⟩
  · obtain hpicked | hlast := List.mem_append.1 htoken
    · exact h.mem token hpicked
    · exact List.mem_append_right front hlast
  · have hpicked := h.ascending hascending
    rw [List.map_append, List.map_singleton] at hascending ⊢
    refine List.pairwise_append.2 ⟨hpicked, List.pairwise_singleton .., ?_⟩
    intro line hline line' hline'
    obtain ⟨token, htoken, rfl⟩ := List.mem_map.1 hline
    rw [List.mem_singleton.1 hline']
    refine hascending.le_last ?_
    rw [← List.map_singleton, ← List.map_append]
    exact List.mem_map_of_mem (h.mem token htoken)

theorem lasts {front : List Token} {last : Token} (h : Drawn picked (front ++ [last]))
    (count : Nat) : Drawn (picked ++ List.replicate count last) (front ++ [last]) := by
  induction count with
  | zero => rwa [List.replicate_zero, List.append_nil]
  | succ count ih =>
    rw [List.replicate_succ', ← List.append_assoc]
    exact ih.last

theorem singleton (token : Token) : Drawn [token] [token] := ⟨fun _ => id, id⟩

end Drawn

/-- The last tokens of the constructs of an expression. -/
theorem Level.Completes.drawn (h : level.Completes tokens e completions) :
    Drawn (completions.map Completion.last) tokens := by
  induction h with
  | tighter _ ih => exact ih
  | @assign name sign last front _ _ _ _ _ ih =>
    rw [List.map_append, List.map_singleton]
    exact (ih.of_sublist (List.sublist_append_right [name, sign] _)).last
  | @binary _ sign last op before front _ _ completions completions' _ _ _ ihleft ihright =>
    have hright := ihright.of_sublist (List.sublist_cons_self sign _)
    have hboth := ihleft.append hright
    rw [← List.cons_append, ← List.append_assoc] at hboth
    rw [List.map_append, List.map_append, List.map_map]
    have hlasts := hboth.lasts op.opcodes.length
    rwa [← List.map_const'] at hlasts
  | @unary sign last _ front _ _ _ _ ih =>
    rw [List.map_append, List.map_singleton]
    exact (ih.of_sublist (List.sublist_cons_self sign _)).last
  | literal _ => exact .singleton _
  | global _ => exact .singleton _
  | @group opening closing tokens _ _ _ _ _ ih =>
    exact (ih.of_sublist (List.sublist_cons_self opening _)).of_sublist
      (List.sublist_append_left _ [closing])

/-- A construct that ends with a token after all those of its parts. -/
theorem Drawn.closed {picked front : List Token} {inner : List Token} (h : Drawn picked inner)
    (hsublist : inner.Sublist front) (last : Token) :
    Drawn (picked ++ [last]) (front ++ [last]) :=
  (h.of_sublist hsublist).append (.singleton last)

theorem Stmt.Completes.drawn {statement : Stmt} (h : statement.Completes tokens completions) :
    Drawn (completions.map Completion.last) tokens := by
  cases h with
  | @declare intro name semicolon _ _ _ =>
    exact Drawn.closed (.singleton name) (List.sublist_cons_self intro _) semicolon
  | @define intro name sign semicolon tokens _ _ _ _ _ hinitial _ =>
    rw [List.map_append]
    exact hinitial.drawn.closed (List.sublist_append_right [intro, name, sign] _) semicolon
  | @print intro semicolon tokens _ _ _ hvalue _ =>
    rw [List.map_append]
    exact hvalue.drawn.closed (List.sublist_cons_self intro _) semicolon
  | @expression semicolon tokens _ _ hvalue _ =>
    rw [List.map_append]
    exact hvalue.drawn.closed (List.Sublist.refl _) semicolon

theorem Stmt.CompletesAll.drawn {statements : List Stmt}
    (h : Stmt.CompletesAll tokens statements completions) :
    Drawn (completions.map Completion.last) tokens := by
  induction h with
  | nil => exact ⟨fun _ => id, id⟩
  | cons head _ ih =>
    rw [List.map_append]
    exact head.drawn.append ih

theorem Program.Completes.drawn {program : Program} (h : program.Completes tokens completions) :
    Drawn (completions.map Completion.last) tokens := by
  obtain ⟨body, last, before, rfl, -, hbefore, -, rfl⟩ := h
  rw [List.map_append]
  exact hbefore.drawn.closed (List.Sublist.refl _) last

theorem Query.Completes.drawn {query : Query} (h : query.Completes tokens completions) :
    Drawn (completions.map Completion.last) tokens := by
  obtain ⟨body, last, before, rfl, -, hbefore, -, rfl⟩ := h
  rw [List.map_append]
  exact hbefore.drawn.closed (List.Sublist.refl _) last

/-! ## units -/

/-- How many bytes the operations of some completions take. -/
def Completion.byteCount : List Completion → Nat
  | [] => 0
  | completion :: rest => completion.opcode.size + byteCount rest

/-- A unit is made of completions: their operations follow one another, and each
byte of an operation has the line of the last token of its construct. -/
structure Chunk.Carries (chunk : Chunk) (completions : List Completion) : Prop where
  lines : chunk.lines = completions.flatMap fun completion =>
    List.replicate completion.opcode.size (completion.last.line : Int)
  opcodes : ∀ before completion after, completions = before ++ completion :: after →
    chunk.byte? ↑(Completion.byteCount before) = some (completion.opcode.code : Int)

variable {code : List Instruction} {chunk : Chunk}

theorem Completion.byteCount_eq (h : code.map Instruction.mark = completions.map Completion.mark) :
    Completion.byteCount completions = Lox.byteCount code := by
  induction completions generalizing code with
  | nil =>
    obtain rfl := List.map_eq_nil_iff.1 h
    rfl
  | cons completion rest ih =>
    obtain ⟨instruction, more, rfl, hmark, hmore⟩ := List.map_eq_cons_iff.1 h
    have hopcode : instruction.opcode = completion.opcode := congrArg Prod.fst hmark
    rw [Completion.byteCount, byteCount_cons, hopcode, ih hmore]

/-- Lists with the same images have an element each wherever one of them has
one. -/
theorem exists_split_of_map_eq {α β γ : Type} {f : α → γ} {g : β → γ} {before after : List α}
    {a : α} {others : List β} (h : (before ++ a :: after).map f = others.map g) :
    ∃ before' b after', others = before' ++ b :: after' ∧
      before.map f = before'.map g ∧ f a = g b := by
  rw [List.map_append, List.map_cons] at h
  obtain ⟨before', more, rfl, hbefore, hmore⟩ := List.map_eq_append_iff.1 h.symm
  obtain ⟨b, after', rfl, hb, -⟩ := List.map_eq_cons_iff.1 hmore
  exact ⟨before', b, after', rfl, hbefore.symm, hb.symm⟩

/-- Every byte of an instruction has its line. -/
theorem Instruction.lines_bytes (instruction : Instruction) :
    instruction.bytes.map CodeByte.line =
      List.replicate instruction.opcode.size (instruction.line : Int) := by
  rw [bytes, List.map_map, ← Opcode.length_encode instruction.opcode instruction.operands,
    ← List.map_const']
  rfl

theorem Chunk.carries (hcode : chunk.GoesOn 0 code)
    (hmarks : code.map Instruction.mark = completions.map Completion.mark) :
    chunk.Carries completions := by
  refine ⟨?_, fun before completion after hcompletions => ?_⟩
  · have hlines (code : List Instruction) : (code.flatMap fun instruction =>
        instruction.bytes.map CodeByte.line) = (code.map Instruction.mark).flatMap fun mark =>
          List.replicate mark.1.size (mark.2 : Int) := by
      simp only [Instruction.lines_bytes, List.flatMap_map]
      rfl
    have hall : chunk.code.toList = code.flatMap Instruction.bytes := hcode
    rw [Chunk.lines, hall, List.map_flatMap, hlines, hmarks, List.flatMap_map]
    rfl
  · rw [hcompletions] at hmarks
    obtain ⟨before', instruction, after', rfl, hbefore, hmark⟩ :=
      exists_split_of_map_eq hmarks.symm
    have hgoes := hcode.append
    rw [Nat.zero_add, ← Completion.byteCount_eq hbefore.symm] at hgoes
    have hopcode : completion.opcode = instruction.opcode := congrArg Prod.fst hmark
    rw [hgoes.byte?, hopcode]

/-- The lines of a unit never go up where its completions are in order. -/
theorem Chunk.Carries.ascending (h : chunk.Carries completions)
    (hascending : Ascending ((completions.map Completion.last).map Token.line)) :
    chunk.lines.Pairwise (· ≤ ·) := by
  rw [h.lines, List.pairwise_flatMap]
  refine ⟨fun completion _ => List.pairwise_replicate.2 (.inr (Int.le_refl _)), ?_⟩
  rw [List.map_map, Ascending, List.pairwise_map] at hascending
  refine hascending.imp fun hle line hline line' hline' => ?_
  rw [List.eq_of_mem_replicate hline, List.eq_of_mem_replicate hline']
  exact Int.ofNat_le.2 hle

end Lox
