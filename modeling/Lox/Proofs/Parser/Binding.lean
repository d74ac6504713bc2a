import Lox.Proofs.Grammar

/-!
# Lox.Proofs.Parser.Binding

How the parser's tables spell the grammar.

The parser knows precedences and roles of tokens, the grammar knows levels and
rules.  A level is what the parser accepts at one precedence
(`Level.precedence`); the operators of a level are exactly those of its
precedence, and the next level is one step tighter.
-/

namespace Lox

/-- The precedence at which the parser reads a level. -/
def Level.precedence : Level → Precedence
  | expression => .assignment
  | equality => .equality
  | comparison => .comparison
  | term => .term
  | factor => .factor
  | unary => .unary
  | primary => .primary

namespace Precedence

theorem le_refl (a : Precedence) : a ≤ a := Nat.le_refl a.rank

theorem le_trans {a b c : Precedence} (h : a ≤ b) (h' : b ≤ c) : a ≤ c := Nat.le_trans h h'

/-- Between a precedence and the next tighter one there is none. -/
theorem le_of_not_tighter_le {a b : Precedence} (h : ¬ a.tighter ≤ b) : b ≤ a := by
  cases a <;> cases b <;> revert h <;> decide

end Precedence

namespace Level

theorem precedence_le_next (level : Level) : level.precedence ≤ level.next.precedence := by
  cases level <;> decide

theorem precedence_le_primary (level : Level) : level.precedence ≤ primary.precedence := by
  cases level <;> decide

/-- Only expressions are read where an assignment may stand. -/
theorem eq_expression_of_precedence_le {level : Level} (h : level.precedence ≤ .assignment) :
    level = .expression := by
  cases level <;> revert h <;> decide

/-- A looser level reaches a tighter one by way of the next level. -/
theorem next_le {floor level : Level} (hne : floor ≠ level)
    (hle : floor.precedence ≤ level.precedence) :
    floor.precedence.rank < floor.next.precedence.rank ∧
      floor.next.precedence ≤ level.precedence := by
  cases floor <;> cases level <;> revert hne hle <;> decide

/-- A phrase of a level is a phrase of every looser one. -/
theorem Derives.loosen {floor level : Level} {tokens : List Token} {e : Expr}
    (h : level.Derives tokens e) (hle : floor.precedence ≤ level.precedence) :
    floor.Derives tokens e := by
  by_cases heq : floor = level
  · exact heq ▸ h
  · obtain ⟨hlt, hnext⟩ := next_le heq hle
    have hrank : floor.next.precedence.rank ≤ level.precedence.rank := hnext
    exact .tighter (h.loosen hnext)
termination_by level.precedence.rank - floor.precedence.rank

theorem Derives.of_primary {level : Level} {tokens : List Token} {e : Expr}
    (h : primary.Derives tokens e) : level.Derives tokens e :=
  h.loosen level.precedence_le_primary

end Level

/-! ## operators -/

namespace Joins

variable {level : Level} {kind : TokenKind} {op : BinaryOp}

theorem binaryOp? (h : Joins level kind op) : kind.binaryOp? = some op := by cases h <;> rfl

theorem precedence (h : Joins level kind op) : op.precedence = level.precedence := by
  cases h <;> rfl

/-- The right operand of an operator belongs to the next level. -/
theorem tighter (h : Joins level kind op) : op.precedence.tighter = level.next.precedence := by
  cases h <;> rfl

theorem ne_equal (h : Joins level kind op) : kind ≠ .equal := by cases h <;> decide

end Joins

/-- Every operator that the parser knows joins operands on some level. -/
theorem joins_of_binaryOp? {kind : TokenKind} {op : BinaryOp} (h : kind.binaryOp? = some op) :
    ∃ level, Joins level kind op := by
  cases kind <;> simp only [TokenKind.binaryOp?, reduceCtorEq, Option.some.injEq] at h <;>
    subst h <;> exact ⟨_, by constructor⟩

/-- Binary operators bind less tightly than unary ones. -/
theorem BinaryOp.precedence_le_unary (op : BinaryOp) : op.precedence ≤ .unary := by
  cases op <;> decide

theorem BinaryOp.precedence_le_primary (op : BinaryOp) : op.precedence ≤ .primary := by
  cases op <;> decide

theorem BinaryOp.not_unary_le_precedence (op : BinaryOp) : ¬ .unary ≤ op.precedence := by
  cases op <;> decide

theorem BinaryOp.not_precedence_le_assignment (op : BinaryOp) :
    ¬ op.precedence ≤ .assignment := by
  cases op <;> decide

/-! ## beginnings -/

theorem Signs.prefixForm? {kind : TokenKind} {op : UnaryOp} (h : Signs kind op) :
    kind.prefixForm? = some (.unary op) := by
  cases h <;> rfl

/-- What the parser takes a token for at the start of an expression decides
the rule of the grammar. -/
theorem begins_of_prefixForm? {kind : TokenKind} {form : PrefixForm}
    (h : kind.prefixForm? = some form) :
    match form with
    | .atom value => value.constant? = none ∧ ∀ lexeme, Denotes kind lexeme value
    | .number => kind = .number
    | .string => kind = .string
    | .name => kind = .identifier
    | .group => kind = .leftParen
    | .unary op => Signs kind op := by
  unfold TokenKind.prefixForm? at h
  split at h <;> cases h <;> first | rfl | exact ⟨rfl, fun lexeme => by constructor⟩ | constructor

/-- A phrase begins with a token that the parser can begin an expression
with. -/
theorem Level.Derives.exists_cons {level : Level} {tokens : List Token} {e : Expr}
    (h : level.Derives tokens e) :
    ∃ token rest, tokens = token :: rest ∧ token.kind.prefixForm? ≠ none := by
  induction h with
  | tighter _ ih => exact ih
  | assign hname _ _ _ => exact ⟨_, _, rfl, by simp [hname, TokenKind.prefixForm?]⟩
  | binary _ _ _ ih _ =>
    obtain ⟨token, rest, rfl, htoken⟩ := ih
    exact ⟨token, _, rfl, htoken⟩
  | unary hsign _ _ => exact ⟨_, _, rfl, by simp [hsign.prefixForm?]⟩
  | literal h =>
    refine ⟨_, _, rfl, ?_⟩
    generalize Token.kind _ = kind at h
    cases h <;> simp [TokenKind.prefixForm?]
  | global h => exact ⟨_, _, rfl, by simp [h, TokenKind.prefixForm?]⟩
  | group hopening _ _ _ => exact ⟨_, _, rfl, by simp [hopening, TokenKind.prefixForm?]⟩

end Lox
