import Lox.Proofs.Parser.Complete

/-!
# Lox.Proofs.Parser.Sound

What the parser reads, the grammar derives.

A call on a parser without flaws either leaves a diagnostic or has read a
phrase of its level (`Parser.Reading`).  The loop over binary operators keeps
the invariant that the left operand is a phrase of some level which the next
token follows: after an operator that is the operator's own level, since the
right operand was read as far as the next level goes.
-/

namespace Lox

/-- The last of these tokens is the end marker. -/
def Ended (ahead : List Token) : Prop :=
  ∃ init last, ahead = init ++ [last] ∧ last.kind = .endOfInput

namespace Ended

variable {token next : Token} {tokens rest : List Token}

theorem suffix (h : Ended (tokens ++ next :: rest)) : Ended (next :: rest) := by
  obtain ⟨init, last, heq, hlast⟩ := h
  have hmem := congrArg List.getLast? heq
  simp only [List.getLast?_append, List.getLast?_singleton, Option.some_or] at hmem
  rw [Option.or_of_isSome (by simp)] at hmem
  obtain ⟨init', hinit'⟩ := List.getLast?_eq_some_iff.1 hmem
  exact ⟨init', last, hinit', hlast⟩

theorem tail (h : Ended (token :: next :: rest)) : Ended (next :: rest) := by
  rw [← List.singleton_append] at h
  exact h.suffix

/-- A token with nothing after it is the end marker. -/
theorem kind_of_singleton (h : Ended [token]) : token.kind = .endOfInput := by
  obtain ⟨init, last, heq, hlast⟩ := h
  have hlen := congrArg List.length heq
  simp only [List.length_append, List.length_singleton] at hlen
  obtain rfl : init = [] := List.eq_nil_of_length_eq_zero (by omega)
  obtain rfl := List.singleton_inj.1 heq
  exact hlast

theorem exists_cons {ahead : List Token} (h : Ended ahead) :
    ∃ token rest, ahead = token :: rest := by
  obtain ⟨init, last, rfl, -⟩ := h
  cases init <;> exact ⟨_, _, rfl⟩

/-- After any other token there is one more. -/
theorem exists_cons_of_ne (h : Ended (token :: rest)) (hne : token.kind ≠ .endOfInput) :
    ∃ next more, rest = next :: more := by
  cases rest with
  | nil => exact absurd h.kind_of_singleton hne
  | cons next more => exact ⟨next, more, rfl⟩

end Ended

namespace Parser

/-- The result of a call that looked at `ahead`: a complaint, or a phrase of
the level within the limits, read up to a token that may follow it. -/
inductive Reading (level : Level) (follow : Token → Prop) (limit : Nat) (ahead : List Token)
    (constants : List Constant) : Option Expr × Parser → Prop where
  | complaint {result : Option Expr × Parser} (h : result.2.diagnostics ≠ []) :
      Reading level follow limit ahead constants result
  | phrase {e : Expr} {tokens rest : List Token} {next previous : Token} {taken : Nat}
      (hderives : level.Derives tokens e) (hahead : ahead = tokens ++ next :: rest)
      (hdepth : e.nesting ≤ limit)
      (hroom : constants.length + e.constants.length ≤ poolCapacity) (hfollow : follow next) :
      Reading level follow limit ahead constants
        (some e, quiet previous (next :: rest) (constants ++ e.constants) taken)

/-- With this many levels left, a call complains or reads a phrase, whichever
of the levels that calls are made at it is made at. -/
def Reads (levels : Nat) : Prop :=
  ∀ (level : Level) (previous : Token) (ahead : List Token) (constants : List Constant)
    (taken : Nat), level.precedence ≤ .unary → Ended ahead → constants.length ≤ poolCapacity →
    Reading level level.Stops levels ahead constants
      (operand levels level.precedence (quiet previous ahead constants taken))

variable {levels : Nat} {floor level : Level} {previous token next : Token}
  {ahead rest : List Token} {constants : List Constant} {taken : Nat}

/-! ## beginnings -/

/-- A pool entry is asked for, or there is a complaint. -/
theorem reading_pooled {kind : TokenKind} {lexeme : Text} {line : Nat} {constant : Constant}
    {value : Literal} (hvalue : Denotes kind lexeme value)
    (hconstant : value.constant? = some constant) :
    Reading .primary Level.primary.Follows (levels + 1) (⟨kind, lexeme, line⟩ :: next :: rest)
      constants
      ((quiet ⟨kind, lexeme, line⟩ (next :: rest) constants taken).pooled constant value) := by
  by_cases hlt : constants.length < poolCapacity
  · have hentry : (Expr.literal value line).constants = [constant] := by
      simp [Expr.constants, hconstant]
    have hresult :
        (quiet ⟨kind, lexeme, line⟩ (next :: rest) constants taken).pooled constant value =
          (some (.literal value line), quiet ⟨kind, lexeme, line⟩ (next :: rest)
            (constants ++ (Expr.literal value line).constants) taken) := by
      rw [pooled, request_quiet hlt, hentry, previous_quiet]
    have hderives : Level.primary.Derives [⟨kind, lexeme, line⟩] (.literal value line) :=
      .literal hvalue
    rw [hresult]
    exact .phrase hderives rfl (Nat.le_add_left 1 levels)
      (by rw [hentry]; exact hlt) (Level.follows_primary next)
  · exact .complaint (request_quiet_ne_nil hlt constant)

/-- A name is read as an assignment where one may stand and an equals sign
follows, otherwise as a variable. -/
theorem reading_named (hnested : Reads levels) (hname : token.kind = .identifier)
    (hended : Ended (next :: rest)) :
    ∃ level, floor.precedence ≤ level.precedence ∧
      Reading level level.Follows (levels + 1) (token :: next :: rest) constants
        (named (operand levels) (floor.precedence ≤ .assignment)
          (quiet token (next :: rest) constants taken)) := by
  by_cases hlt : constants.length < poolCapacity
  · simp only [named, previous_quiet, request_quiet hlt, current_quiet]
    split
    · next hassign =>
      simp only [Bool.and_eq_true, decide_eq_true_eq, beq_iff_eq] at hassign
      refine ⟨.expression, hassign.1, ?_⟩
      obtain ⟨first, more, rfl⟩ := hended.exists_cons_of_ne (by rw [hassign.2]; decide)
      have hvalue := hnested .expression next (first :: more)
        (constants ++ [.text token.lexeme]) (taken + 1) (by decide) hended.tail
        (by rw [List.length_append]; exact hlt)
      rw [take_quiet]
      change Reading _ _ _ _ _ (operand levels .assignment _) at hvalue
      generalize operand levels .assignment _ = result at hvalue ⊢
      cases hvalue with
      | complaint h => exact .complaint h
      | @phrase e tokens _ _ previous taken hderives hahead hdepth hroom hfollow =>
        simp only [List.length_append, List.length_singleton] at hroom
        have hentries : constants ++ [.text token.lexeme] ++ e.constants =
            constants ++ (Expr.assign token.lexeme e).constants := by simp [Expr.constants]
        rw [hentries]
        exact .phrase (.assign hname hassign.2 hderives) (by rw [hahead]; rfl)
          (by simp only [Expr.nesting]; omega)
          (by simp only [Expr.constants, List.length_cons]; omega) hfollow.follows
    · exact ⟨.primary, floor.precedence_le_primary, .phrase (.global hname) rfl
        (Nat.le_add_left 1 levels) hlt (Level.follows_primary next)⟩
  · have hasked : ((quiet token (next :: rest) constants taken).request
        (.text token.lexeme)).diagnostics ≠ [] := request_quiet_ne_nil hlt _
    exact ⟨.primary, floor.precedence_le_primary,
      .complaint ((Moves.named_request (Moves.operand levels) _ _).leads.complains hasked)⟩

theorem reading_grouped (hnested : Reads levels) (hopening : token.kind = .leftParen)
    (hended : Ended (next :: rest)) (hroom : constants.length ≤ poolCapacity) :
    Reading .primary Level.primary.Follows (levels + 1) (token :: next :: rest) constants
      (grouped (operand levels) (quiet token (next :: rest) constants taken)) := by
  have hinner := hnested .expression token (next :: rest) constants taken (by decide) hended hroom
  change Reading _ _ _ _ _ (operand levels .assignment _) at hinner
  simp only [grouped]
  generalize operand levels .assignment _ = result at hinner ⊢
  cases hinner with
  | complaint h => exact .complaint ((Leads.expect _ _ _).complains h)
  | @phrase e tokens after closing previous taken hderives hahead hdepth hroom hfollow =>
    by_cases hclosing : closing.kind = .rightParen
    · rw [hahead] at hended ⊢
      obtain ⟨first, more, rfl⟩ := hended.suffix.exists_cons_of_ne (by rw [hclosing]; decide)
      rw [expect_quiet hclosing]
      exact .phrase (.group hopening hclosing hderives) (by simp)
        (by simp only [Expr.nesting]; omega) hroom (Level.follows_primary first)
    · exact .complaint (expect_quiet_ne_nil hclosing _)

theorem reading_unary {op : UnaryOp} (hnested : Reads levels) (hsign : Signs token.kind op)
    (hended : Ended (next :: rest)) (hroom : constants.length ≤ poolCapacity) :
    Reading .unary Level.unary.Follows (levels + 1) (token :: next :: rest) constants
      (leading (operand levels) (floor.precedence ≤ .assignment) (.unary op)
        (quiet token (next :: rest) constants taken)) := by
  have hoperand := hnested .unary token (next :: rest) constants taken (by decide) hended hroom
  change Reading _ _ _ _ _ (operand levels .unary _) at hoperand
  simp only [leading]
  generalize operand levels .unary _ = result at hoperand ⊢
  cases hoperand with
  | complaint h => exact .complaint h
  | @phrase e tokens after after' previous taken hderives hahead hdepth hroom hfollow =>
    exact .phrase (.unary hsign hderives) (by rw [hahead]; rfl)
      (by simp only [Expr.nesting]; omega) hroom (Level.follows_unary _)

/-- Whatever begins an expression is read as a phrase of some level that the
next token follows. -/
theorem reading_leading {form : PrefixForm} (hnested : Reads levels)
    (hform : token.kind.prefixForm? = some form) (hfloor : floor.precedence ≤ .unary)
    (hended : Ended (next :: rest)) (hroom : constants.length ≤ poolCapacity) (taken : Nat) :
    ∃ level, floor.precedence ≤ level.precedence ∧
      Reading level level.Follows (levels + 1) (token :: next :: rest) constants
        (leading (operand levels) (floor.precedence ≤ .assignment) form
          (quiet token (next :: rest) constants taken)) := by
  have hbegins := begins_of_prefixForm? hform
  cases form with
  | atom value =>
    obtain ⟨hnone, hvalue⟩ := hbegins
    refine ⟨.primary, floor.precedence_le_primary, ?_⟩
    have hentries : (Expr.literal value token.line).constants = [] := by
      simp [Expr.constants, hnone]
    have hphrase : Reading .primary Level.primary.Follows (levels + 1) (token :: next :: rest)
        constants (some (.literal value token.line), quiet token (next :: rest)
          (constants ++ (Expr.literal value token.line).constants) taken) :=
      .phrase (.literal (hvalue token.lexeme)) rfl (Nat.le_add_left 1 levels)
        (by rw [hentries]; exact hroom) (Level.follows_primary next)
    rwa [hentries, List.append_nil] at hphrase
  | number =>
    refine ⟨.primary, floor.precedence_le_primary, ?_⟩
    obtain ⟨kind, lexeme, line⟩ := token
    obtain rfl : kind = .number := hbegins
    exact reading_pooled (.number lexeme) rfl
  | string =>
    refine ⟨.primary, floor.precedence_le_primary, ?_⟩
    obtain ⟨kind, lexeme, line⟩ := token
    obtain rfl : kind = .string := hbegins
    exact reading_pooled (.string lexeme) rfl
  | name => exact reading_named hnested hbegins hended
  | group =>
    exact ⟨.primary, floor.precedence_le_primary, reading_grouped hnested hbegins hended hroom⟩
  | unary op => exact ⟨.unary, hfloor, reading_unary hnested hbegins hended hroom⟩

/-! ## the loop over operators -/

/-- The loop keeps a left operand that is a phrase of some level which the
next token follows, and ends before a token that binds too loosely. -/
theorem reading_trailing (hnested : Reads levels) (count : Nat) {e : Expr} {tokens : List Token}
    (hderives : level.Derives tokens e) (hahead : ahead = tokens ++ next :: rest)
    (hfloor : floor.precedence ≤ level.precedence) (hdepth : e.nesting ≤ levels + 1)
    (hroom : constants.length + e.constants.length ≤ poolCapacity) (hfollow : level.Follows next)
    (hended : Ended ahead) (hcount : rest.length ≤ count) :
    Reading floor
      (fun next => ∀ op, next.kind.binaryOp? = some op → ¬ floor.precedence ≤ op.precedence)
      (levels + 1) ahead constants
      (trailing (operand levels) floor.precedence count (some e)
        (quiet previous (next :: rest) (constants ++ e.constants) taken)) := by
  induction count generalizing level e tokens next rest previous taken with
  | zero =>
    obtain rfl : rest = [] := List.eq_nil_of_length_eq_zero (by omega)
    refine .phrase (hderives.loosen hfloor) hahead hdepth hroom ?_
    -- nothing follows the end marker, which is no operator
    rw [hahead] at hended
    simp [hended.suffix.kind_of_singleton, TokenKind.binaryOp?]
  | succ count ih =>
    simp only [trailing, current_quiet]
    split
    · next hnone => exact .phrase (hderives.loosen hfloor) hahead hdepth hroom (by simp [hnone])
    · next op hop =>
      split
      · next hle =>
        obtain ⟨level', hjoins⟩ := joins_of_binaryOp? hop
        have hended' : Ended (next :: rest) := (hahead ▸ hended).suffix
        obtain ⟨first, more, rfl⟩ := hended'.exists_cons_of_ne fun hend => by
          rw [hend] at hop
          cases hop
        have hright := hnested level'.next next (first :: more) (constants ++ e.constants)
          (taken + 1) (by rw [← hjoins.tighter]; cases op <;> decide) hended'.tail
          (by rw [List.length_append]; exact hroom)
        rw [← hjoins.tighter] at hright
        rw [take_quiet]
        generalize operand levels op.precedence.tighter _ = result at hright ⊢
        cases hright with
        | complaint h =>
          exact .complaint ((Moves.trailing (Moves.operand levels) _ _ _ _).leads.complains h)
        | @phrase right tokens' rest' next' previous' taken' hright hahead' hdepth' hroom' hstops =>
          have hleft : level'.Derives tokens e :=
            hderives.loosen (by rw [← hjoins.precedence]; exact hfollow op hop)
          have hentries : constants ++ e.constants ++ right.constants =
              constants ++ (Expr.binary op e right).constants := by simp [Expr.constants]
          have hdepth'' : (Expr.binary op e right).nesting ≤ levels + 1 := by
            simp only [Expr.nesting]
            omega
          have hroom'' : constants.length + (Expr.binary op e right).constants.length ≤
              poolCapacity := by
            simp only [Expr.constants, List.length_append] at hroom' ⊢
            omega
          have hfollow' : level'.Follows next' := by
            intro other hother
            rw [← hjoins.precedence]
            exact Precedence.le_of_not_tighter_le (hjoins.tighter ▸ hstops.operator other hother)
          have hcount' : rest'.length ≤ count := by
            have hlength := congrArg List.length hahead'
            simp only [List.length_append, List.length_cons] at hlength hcount
            omega
          -- the whole is a phrase of the operator's own level, which `next'` follows
          rw [hentries]
          exact ih (.binary hjoins hleft hright) (by simp [hahead, hahead'])
            (hjoins.precedence ▸ hle) hdepth'' hroom'' hfollow' hcount'
      · next hle =>
        refine .phrase (hderives.loosen hfloor) hahead hdepth hroom fun other hother => ?_
        obtain rfl : op = other := Option.some.inj (hop.symm.trans hother)
        exact hle

/-! ## calls -/

/-- The check for an equals sign leaves only phrases that the next token
ends. -/
theorem Reading.settle {limit : Nat} {result : Option Expr × Parser}
    (h : Reading level
      (fun next => ∀ op, next.kind.binaryOp? = some op → ¬ level.precedence ≤ op.precedence)
      limit ahead constants result) :
    Reading level level.Stops limit ahead constants
      (Parser.settle (level.precedence ≤ .assignment) result) := by
  cases h with
  | complaint h => exact .complaint ((Leads.settle _ _).complains h)
  | @phrase e tokens rest next previous taken hderives hahead hdepth hroom hoperator =>
    unfold Parser.settle
    split
    · exact .complaint (diagnostics_record_ne_nil (by cases rest <;> rfl) _ _ _)
    · next hsign =>
      refine .phrase hderives hahead hdepth hroom ⟨hoperator, fun hlevel hequal => hsign ?_⟩
      simp only [current_quiet, hequal, hlevel]
      decide

theorem reads (levels : Nat) : Reads levels := by
  induction levels with
  | zero => exact fun _ _ _ _ _ _ _ _ => .complaint (recordAt_quiet_ne_nil _ _)
  | succ levels ih =>
    intro level previous ahead constants taken hlevel hended hroom
    obtain ⟨token, rest, rfl⟩ := hended.exists_cons
    cases rest with
    | nil =>
      have hnone : token.kind.prefixForm? = none := by rw [hended.kind_of_singleton]; rfl
      simp only [operand, take_quiet_last, previous_quiet, hnone]
      exact .complaint (recordAt_quiet_ne_nil _ _)
    | cons next rest =>
      cases hform : token.kind.prefixForm? with
      | none =>
        simp only [operand, take_quiet, previous_quiet, hform]
        exact .complaint (recordAt_quiet_ne_nil _ _)
      | some form =>
        rw [operand_quiet hform]
        obtain ⟨level', hle, hleading⟩ :=
          reading_leading ih hform hlevel hended.tail hroom (taken + 1)
        refine Reading.settle ?_
        generalize leading (operand levels) _ form _ = result at hleading ⊢
        cases hleading with
        | complaint h =>
          exact .complaint ((Moves.trailing (Moves.operand levels) _ _ _ _).leads.complains h)
        | phrase hderives hahead hdepth hroom hfollow =>
          exact reading_trailing ih _ hderives hahead hle hdepth hroom hfollow hended
            (Nat.le_of_eq length_pending_quiet.symm)

end Parser

end Lox
