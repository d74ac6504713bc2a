import Lox.Proofs.Compiler

/-!
# Lox.Proofs.Compiler.Expression

Expressions in one pass.

Whatever tokens are ahead, compiling an expression comes to an end, throws
nothing and leaves as many expressions open as there were.  It takes, records
and asks for what parsing the expression does, and if nothing is recorded it
writes the code of the tree.  The induction is on how many more expressions may
be opened, as in the parser; the loop over operators is followed by what is
pending, and that is also what the clock has to count.
-/

namespace Lox

namespace Compiler

variable {all : List Lexed} {origin : Heap} {c c' c'' : Compiler} {p q : Parser}
  {levels count clock : Nat} {floor : Precedence} {form : PrefixForm} {tree : Option Expr}

/-- The code of a tree, if there is one, was written. -/
def Yields (c : Compiler) (tree : Option Expr) (c' : Compiler) : Prop :=
  ∃ e, tree = some e ∧ Wrote c c' (e.code c.parser.constants.length) e.constants ∧
    e.lastLine = c'.parser.previous.line

theorem Yields.after (h : Yields c' tree c'') (hwrote : Wrote c c' [] []) : Yields c tree c'' := by
  obtain ⟨e, he, hyields, hline⟩ := h
  have hentry := hwrote.entry
  rw [List.length_nil, Nat.add_zero] at hentry
  exact ⟨e, he, hentry ▸ hwrote.trans hyields, hline⟩

/-- What compiling an expression does with some number of expressions to be
opened, and a clock that counts all that is pending. -/
def Nests (all : List Lexed) (origin : Heap) (levels : Nat) : Prop :=
  ∀ {c : Compiler} {p : Parser} {clock : Nat} (floor : Precedence), c.At all origin p →
    c.depth + levels = nestingLimit → p.pending.length < clock →
      Compiles all origin (operand clock floor) c (Parser.operand levels floor p).2 fun _ c' =>
        Yields c (Parser.operand levels floor p).1 c'

/-! ## leaves -/

theorem compiles_atom (hc : c.At all origin p) {value : Literal} (h : value.constant? = none)
    (entry : Nat) :
    Compiles all origin (atom value) c p fun _ c' =>
      Wrote c c' [value.code entry p.previous.line] [] := by
  cases value with
  | nil => exact compiles_emit hc .pushNil []
  | bool value =>
    cases value with
    | true => exact compiles_emit hc .pushTrue []
    | false => exact compiles_emit hc .pushFalse []
  | number value => cases h
  | string content => cases h

theorem compiles_pooled (hc : c.At all origin p) (constant : Constant) :
    Compiles all origin (pooled constant) c (p.request constant) fun _ c' =>
      Wrote c c' [⟨.constant, [p.constants.length], p.previous.line⟩] [constant] := by
  refine (compiles_request hc constant).bind fun index c₁ hc₁ _ => ?_
  refine (compiles_emit hc₁ .constant [index]).mono fun _ _ _ hwrote hasked => ?_
  obtain ⟨rfl, hasked⟩ := hasked
  rw [Parser.previous_request] at hwrote
  exact hasked.trans hwrote

/-! ## expressions within expressions -/

theorem compiles_named (hnested : Nests all origin levels) (hc : c.At all origin p)
    (hdepth : c.depth + levels = nestingLimit) (hclock : p.pending.length < clock)
    (assignable : Bool) :
    Compiles all origin (named (operand clock) assignable p.previous.lexeme) c
      (Parser.named (Parser.operand levels) assignable p).2 fun _ c' =>
        Yields c (Parser.named (Parser.operand levels) assignable p).1 c' := by
  rw [named]
  refine (compiles_request hc (.text p.previous.lexeme)).bind fun index c₁ hc₁ hdepth₁ => .get ?_
  rw [hc₁.parser]
  simp only [Parser.named]
  split
  · refine (compiles_take hc₁).bind fun _ c₂ hc₂ hdepth₂ => ?_
    have hclock₂ : (p.request (.text p.previous.lexeme)).take.pending.length < clock := by
      rw [Parser.length_pending_take, Parser.pending_request]
      omega
    refine (hnested .assignment hc₂ (by omega) hclock₂).bind fun _ c₃ hc₃ hdepth₃ => ?_
    refine (compiles_emit hc₃ .setGlobal [index]).mono fun _ c₄ hc₄ hset hvalue htake hasked => ?_
    obtain ⟨rfl, hasked⟩ := hasked
    obtain ⟨e, he, hvalue, hline⟩ := hvalue
    have hentry := (hasked.trans htake).entry
    have hwrote := ((hasked.trans htake).trans hvalue).trans hset
    rw [hc.parser] at hentry
    refine ⟨.assign p.previous.lexeme e, by rw [he]; rfl, ?_,
      by rw [hc₄.parser, ← hc₃.parser]; exact hline⟩
    rw [hc₃.parser] at hline
    simpa [Expr.code, Expr.constants, hentry, hline, hc.parser] using hwrote
  · refine (compiles_emit hc₁ .getGlobal [index]).mono fun _ c₂ hc₂ hread hasked => ?_
    obtain ⟨rfl, hasked⟩ := hasked
    have hwrote := hasked.trans hread
    rw [Parser.previous_request] at hwrote
    refine ⟨.global p.previous.lexeme p.previous.line, rfl, ?_, ?_⟩
    · simpa [Expr.code, Expr.constants, hc.parser] using hwrote
    · rw [hc₂.parser, Parser.previous_request]
      rfl

theorem compiles_grouped (hnested : Nests all origin levels) (hc : c.At all origin p)
    (hdepth : c.depth + levels = nestingLimit) (hclock : p.pending.length < clock) :
    Compiles all origin (do operand clock .assignment; expect .rightParen .closingParenExpected) c
      (Parser.grouped (Parser.operand levels) p).2 fun _ c' =>
        Yields c (Parser.grouped (Parser.operand levels) p).1 c' := by
  refine (hnested .assignment hc hdepth hclock).bind fun _ c₁ hc₁ _ => ?_
  refine (compiles_expect hc₁ .rightParen .closingParenExpected).mono
    fun _ c₂ hc₂ hexpect hinner => ?_
  obtain ⟨e, he, hinner, -⟩ := hinner
  obtain ⟨hkind, hexpect⟩ := hexpect
  simp only [Parser.grouped, Parser.expect_of_eq hkind, he]
  refine ⟨.group e _, rfl, ?_, ?_⟩
  · simpa [Expr.code, Expr.constants] using hinner.trans hexpect
  · rw [hc₂.parser, Parser.expect_of_eq hkind, Parser.previous_take]
    rfl

theorem compiles_leading (hnested : Nests all origin levels) (hc : c.At all origin p)
    (hdepth : c.depth + levels = nestingLimit) (hclock : p.pending.length < clock)
    (hform : p.previous.kind.prefixForm? = some form) (assignable : Bool) :
    Compiles all origin (leading (operand clock) assignable form) c
      (Parser.leading (Parser.operand levels) assignable form p).2 fun _ c' =>
        Yields c (Parser.leading (Parser.operand levels) assignable form p).1 c' := by
  rw [leading]
  refine .get ?_
  rw [hc.parser]
  have hbegins := begins_of_prefixForm? hform
  cases form with
  | atom value =>
    refine (compiles_atom hc hbegins.1 c.parser.constants.length).mono fun _ c₁ hc₁ hwrote => ?_
    refine ⟨.literal value p.previous.line, rfl, ?_, by rw [hc₁.parser]; rfl⟩
    rw [Expr.constants, hbegins.1]
    exact hwrote
  | number =>
    refine (compiles_pooled hc _).mono fun _ c₁ hc₁ hwrote => ?_
    refine ⟨_, rfl, hc.parser ▸ hwrote, ?_⟩
    rw [hc₁.parser, Parser.previous_request]
    rfl
  | string =>
    refine (compiles_pooled hc _).mono fun _ c₁ hc₁ hwrote => ?_
    refine ⟨_, rfl, hc.parser ▸ hwrote, ?_⟩
    rw [hc₁.parser, Parser.previous_request]
    rfl
  | name => exact compiles_named hnested hc hdepth hclock assignable
  | group => exact compiles_grouped hnested hc hdepth hclock
  | unary op =>
    refine (hnested .unary hc hdepth hclock).bind fun _ c₁ hc₁ _ => ?_
    refine (compiles_emit hc₁ op.opcode []).mono fun _ c₂ hc₂ hwrote hoperand => ?_
    obtain ⟨e, he, hoperand, hline⟩ := hoperand
    refine ⟨.unary op e, by simp only [Parser.leading, he, Option.map_some], ?_, ?_⟩
    · rw [hc₁.parser] at hline
      simpa [Expr.code, Expr.constants, hline] using hoperand.trans hwrote
    · rw [hc₂.parser, ← hc₁.parser]
      exact hline

/-- A refused equals sign leaves something recorded. -/
theorem compiles_settle (hc : c.At all origin p) (assignable : Bool) (c₀ : Compiler)
    (tree : Option Expr) :
    Compiles all origin (settle assignable) c (Parser.settle assignable (tree, p)).2 fun _ c' =>
      Yields c₀ tree c → Yields c₀ (Parser.settle assignable (tree, p)).1 c' := by
  rw [settle, Parser.settle]
  refine .get ?_
  rw [hc.parser]
  split
  · refine (compiles_take hc).bind fun _ c₁ hc₁ _ => ?_
    exact (compiles_recordAt hc₁ Parser.previous .invalidAssignmentTarget).mono
      fun _ _ _ => False.elim
  · exact compiles_pure hc id

/-- Operations that share a line. -/
theorem compiles_opcodes (hc : c.At all origin p) (opcodes : List Opcode) :
    Compiles all origin (opcodes.forM fun opcode => emit opcode []) c p fun _ c' =>
      Wrote c c' (opcodes.map fun opcode => ⟨opcode, [], p.previous.line⟩) [] := by
  induction opcodes generalizing c with
  | nil => exact compiles_pure hc (.refl c)
  | cons opcode opcodes ih =>
    refine (compiles_emit hc opcode []).bind fun _ c₁ hc₁ _ => ?_
    exact (ih hc₁).mono fun _ _ _ hrest hfirst => hfirst.trans hrest

/-- Before an operator that binds too loosely, or none, the loop ends. -/
theorem compiles_trailing_stop (hc : c.At all origin p)
    (h : ∀ op, p.current.kind.binaryOp? = some op → ¬ floor ≤ op.precedence)
    (nested : OperandCompiler) (rounds count : Nat) (c₀ : Compiler) (left : Option Expr) :
    Compiles all origin (trailing nested floor (rounds + 1)) c
      (Parser.trailing (Parser.operand levels) floor count left p).2 fun _ c' =>
        Yields c₀ left c →
          Yields c₀ (Parser.trailing (Parser.operand levels) floor count left p).1 c' := by
  rw [Parser.trailing_stop h, trailing]
  refine .get ?_
  rw [hc.parser]
  split
  · exact compiles_pure hc id
  · next op hop =>
    rw [if_neg (h op hop)]
    exact compiles_pure hc id

theorem compiles_trailing (hall : Terminated all) (hnested : Nests all origin levels)
    (hc : c.At all origin p) (hdepth : c.depth + levels = nestingLimit)
    (hclock : p.pending.length < clock) {rounds : Nat} (hrounds : p.pending.length < rounds)
    (hcount : p.pending.length ≤ count) (c₀ : Compiler) (left : Option Expr) :
    Compiles all origin (trailing (operand clock) floor rounds) c
      (Parser.trailing (Parser.operand levels) floor count left p).2 fun _ c' =>
        Yields c₀ left c →
          Yields c₀ (Parser.trailing (Parser.operand levels) floor count left p).1 c' := by
  induction count generalizing c p rounds left with
  | zero =>
    obtain ⟨rounds, rfl⟩ : ∃ n, rounds = n + 1 := ⟨rounds - 1, by omega⟩
    have hended := (hc.accounts.sealed hall).ended
    have hend := Parser.kind_of_pending_eq_nil hended (List.eq_nil_of_length_eq_zero (by omega))
    exact compiles_trailing_stop hc (by simp [hend, TokenKind.binaryOp?]) _ rounds 0 c₀ left
  | succ count ih =>
    obtain ⟨rounds, rfl⟩ : ∃ n, rounds = n + 1 := ⟨rounds - 1, by omega⟩
    by_cases hgo : ∃ op, p.current.kind.binaryOp? = some op ∧ floor ≤ op.precedence
    case neg =>
      exact compiles_trailing_stop hc (fun op hop hle => hgo ⟨op, hop, hle⟩) _ rounds _ c₀ left
    obtain ⟨op, hop, hle⟩ := hgo
    rw [Parser.trailing_go hop hle, trailing]
    refine .get ?_
    rw [hc.parser]
    simp only [hop, if_pos hle]
    refine (compiles_take hc).bind fun _ c₁ hc₁ hdepth₁ => ?_
    have hended := (hc.accounts.sealed hall).ended
    have hpending := List.length_pos_iff.2
      (Parser.pending_ne_nil hended (Parser.ne_of_binaryOp? hop rfl))
    have htaken := Parser.length_pending_take p
    refine (hnested op.precedence.tighter hc₁ (by omega) (by omega)).bind
      fun _ c₂ hc₂ hdepth₂ => ?_
    refine (compiles_opcodes hc₂ op.opcodes).bind fun _ c₃ hc₃ hdepth₃ => ?_
    have hshorter := (Parser.Leads.operand levels op.precedence.tighter p.take).suffix.length_le
    refine (ih hc₃ (by omega) (by omega) (by omega) (by omega) _).mono
      fun _ c₄ hc₄ hrest hopcodes hright htake hleft => hrest ?_
    obtain ⟨a, rfl, hleft, -⟩ := hleft
    obtain ⟨b, hb, hright, hline⟩ := hright
    have hentry := (hleft.trans htake).entry
    refine ⟨.binary op a b, by rw [hb]; rfl, ?_, by rw [hc₃.parser, ← hc₂.parser]; exact hline⟩
    rw [hc₂.parser] at hline
    rw [List.length_append, List.length_nil, Nat.add_zero] at hentry
    rw [hentry] at hright
    simpa [Expr.code, Expr.constants, hline] using
      ((hleft.trans htake).trans hright).trans hopcodes

/-! ## all expressions -/

theorem compiles_opened (hall : Terminated all) (hnested : Nests all origin levels)
    (hc : c.At all origin p) (hdepth : c.depth + levels = nestingLimit)
    (hclock : p.pending.length ≤ clock) :
    Compiles all origin (opened (operand clock) floor clock) c
      (Parser.operand (levels + 1) floor p).2 fun _ c' =>
        Yields c (Parser.operand (levels + 1) floor p).1 c' := by
  rw [opened]
  refine (compiles_take hc).bind fun _ c₁ hc₁ hdepth₁ => .get ?_
  rw [hc₁.parser, Parser.previous_take]
  cases hform : p.current.kind.prefixForm? with
  | none =>
    rw [Parser.operand_of_none hform]
    have hrefused := compiles_recordAt hc₁ Parser.previous .expressionExpected
    rw [Parser.previous_take] at hrefused
    exact hrefused.mono fun _ _ _ => False.elim
  | some form =>
    rw [Parser.operand_of_some hform]
    have hended := (hc.accounts.sealed hall).ended
    have hpending := List.length_pos_iff.2
      (Parser.pending_ne_nil hended (Parser.ne_of_prefixForm? hform rfl))
    have htaken : p.take.pending.length < clock := by
      rw [Parser.length_pending_take]
      omega
    have hleading := compiles_leading hnested hc₁ (by omega) htaken
      (by rw [Parser.previous_take, hform]) (floor ≤ .assignment)
    have hshorter := (Parser.Moves.leading (Parser.Moves.operand levels) (floor ≤ .assignment) form
      p.take).leads.suffix.length_le
    generalize Parser.leading _ _ form p.take = read at hleading hshorter ⊢
    obtain ⟨left, p₂⟩ := read
    refine hleading.bind fun _ c₂ hc₂ hdepth₂ => ?_
    have hshorter : p₂.pending.length ≤ p.take.pending.length := hshorter
    refine (compiles_trailing hall hnested hc₂ (by omega) (by omega) (by omega) (Nat.le_refl _) c
      left).bind fun _ c₃ hc₃ _ => ?_
    exact (compiles_settle hc₃ (floor ≤ .assignment) c _).mono
      fun _ c₄ _ hsettle htrailing hleading htake => hsettle (htrailing (hleading.after htake))

/-- A call that leaves as many expressions open as there were is entered in the
ledger. -/
theorem compiles_noteNested (hc : c.At all origin p) :
    Compiles all origin (noteNested c.depth) c p fun _ c' => Wrote c c' [] [] := by
  refine ⟨(), { c with nested := c.nested ++ [(c.depth, c.depth)] }, rfl, hc.parser ▸ .refl _, ?_,
    rfl, fun _ => ⟨by simp, by simp⟩⟩
  refine ⟨hc.parser, hc.accounts, hc.heap, hc.pool, hc.deepest, fun call hcall => ?_, hc.declared⟩
  rcases List.mem_append.1 hcall with hearlier | hnow
  · exact hc.nested call hearlier
  · obtain rfl := List.mem_singleton.1 hnow
    rfl

/-- What is done with one more expression open. -/
theorem compiles_entered (hc : c.At all origin p) (hlimit : c.depth < nestingLimit)
    {m : Compiling Unit}
    (hm : ∀ {c' : Compiler}, c'.At all origin p → c'.depth = c.depth + 1 →
      Compiles all origin m c' q fun _ c'' => Yields c' tree c'') :
    Compiles all origin (do enter; m; leave; noteNested c.depth) c q fun _ c' =>
      Yields c tree c' := by
  let entered : Compiler :=
    { c with depth := c.depth + 1, deepest := max c.deepest (c.depth + 1) }
  have hentered : entered.At all origin p :=
    ⟨hc.parser, hc.accounts, hc.heap, hc.pool, Nat.max_le.2 ⟨hc.deepest, hlimit⟩, hc.nested,
      hc.declared⟩
  obtain ⟨_, c₁, hends, hleads, hc₁, hdepth, hyields⟩ := hm hentered rfl
  let left : Compiler := { c₁ with depth := c₁.depth - 1 }
  have hleft : left.At all origin q :=
    ⟨hc₁.parser, hc₁.accounts, hc₁.heap, hc₁.pool, hc₁.deepest, hc₁.nested, hc₁.declared⟩
  have hbalanced : left.depth = c.depth := by
    show c₁.depth - 1 = c.depth
    rw [hdepth]
    rfl
  obtain ⟨_, c₂, hnoted, -, hc₂, hdepth₂, hwrote₂⟩ := compiles_noteNested hleft
  rw [hbalanced] at hnoted
  have henter : Ends enter c () entered := rfl
  have hleave : Ends leave c₁ () left := rfl
  refine ⟨(), c₂, henter.bind (hends.bind (hleave.bind hnoted)), hleads, hc₂,
    hdepth₂.trans hbalanced, fun hnil => ?_⟩
  -- opening and closing write nothing
  obtain ⟨e, he, hwrote, hline⟩ := hyields hnil
  have hopen : Wrote c left (e.code c.parser.constants.length) e.constants :=
    ⟨hwrote.code, hwrote.constants⟩
  refine ⟨e, he, by simpa using hopen.trans (hwrote₂ hnil), ?_⟩
  rw [hc₂.parser, ← hc₁.parser]
  exact hline

/-- With `levels` more expressions to be opened, an expression compiles as it is
parsed. -/
theorem nests (hall : Terminated all) (levels : Nat) : Nests all origin levels := by
  induction levels with
  | zero =>
    intro c p clock floor hc hdepth hclock
    obtain ⟨clock, rfl⟩ : ∃ n, clock = n + 1 := ⟨clock - 1, by omega⟩
    rw [operand]
    refine .get ?_
    rw [if_pos (by omega)]
    refine (compiles_recordAt hc Parser.current .nestedTooDeeply).bind fun _ c₁ hc₁ hdepth₁ => ?_
    rw [← hdepth₁]
    exact (compiles_noteNested hc₁).mono fun _ _ _ _ => False.elim
  | succ levels ih =>
    intro c p clock floor hc hdepth hclock
    obtain ⟨clock, rfl⟩ : ∃ n, clock = n + 1 := ⟨clock - 1, by omega⟩
    rw [operand]
    refine .get ?_
    rw [if_neg (by omega)]
    exact compiles_entered hc (by omega) fun hc' hdepth' =>
      compiles_opened hall ih hc' (by omega) (by omega)

end Compiler

end Lox
