import Lox.Proofs.Parser.Binding

/-!
# Lox.Proofs.Viability

Which token sequences can still become a program.

Between two tokens a program awaits one of a few things: a statement, a name,
an operand, an operator (`Awaiting`).  Of what was read so far only the number
of open groups matters beside that, and whether an equals sign could make an
assignment of it.  `Awaiting.step` says what is awaited after one more token,
if the token may stand there at all.

A token sequence begins some program exactly if each of its tokens may stand
where it stands (`viable_iff`).  The grammar alone is concerned here, not the
parser.
-/

namespace Lox

/-! ## what is awaited -/

/-- What a program goes on with.  An operand or an operator is awaited inside
`depth` groups.  Before an operand, `assignable` says that a whole expression
may stand there; after one, that it is a name which an equals sign would make
the target of an assignment. -/
inductive Awaiting where
  | statement
  | name
  | initializer
  | operand (assignable : Bool) (depth : Nat)
  | operator (assignable : Bool) (depth : Nat)
  | nothing
  deriving DecidableEq, Repr

namespace Awaiting

/-- What is awaited after a token that begins an operand. -/
@[simp] def afterForm (assignable : Bool) (depth : Nat) : PrefixForm → Awaiting
  | .atom _ | .number | .string => operator false depth
  | .name => operator assignable depth
  | .group => operand true (depth + 1)
  | .unary _ => operand false depth

/-- What is awaited after a token, if it may stand here. -/
def step : Awaiting → TokenKind → Option Awaiting
  | statement, kind =>
    if kind = .endOfInput then some nothing
    else if kind = .keyword .varWord then some name
    else if kind = .keyword .printWord then some (operand true 0)
    else kind.prefixForm?.map (afterForm true 0)
  | name, kind => if kind = .identifier then some initializer else none
  | initializer, kind =>
    if kind = .equal then some (operand true 0)
    else if kind = .semicolon then some statement
    else none
  | operand assignable depth, kind => kind.prefixForm?.map (afterForm assignable depth)
  | operator assignable depth, kind =>
    if kind.binaryOp?.isSome then some (operand false depth)
    else
      match kind, assignable, depth with
      | .equal, true, depth => some (operand true depth)
      | .rightParen, _, depth + 1 => some (operator false depth)
      | .semicolon, _, 0 => some statement
      | _, _, _ => none
  | nothing, _ => none

/-- What is awaited after consecutive tokens, if each may stand where it
stands. -/
def run : Awaiting → List Token → Option Awaiting
  | state, [] => some state
  | state, token :: rest => (state.step token.kind).bind (run · rest)

variable {state : Awaiting} {token : Token} {tokens more : List Token} {kind : TokenKind}
  {assignable : Bool} {depth : Nat}

@[simp] theorem run_nil (state : Awaiting) : state.run [] = some state := rfl

@[simp] theorem run_cons (state : Awaiting) (token : Token) (rest : List Token) :
    state.run (token :: rest) = (state.step token.kind).bind (run · rest) := rfl

theorem run_append (state : Awaiting) (tokens more : List Token) :
    state.run (tokens ++ more) = (state.run tokens).bind (run · more) := by
  induction tokens generalizing state with
  | nil => simp
  | cons token tokens ih => cases h : state.step token.kind <;> simp [h, ih]

/-- What is true of a sequence is true of its beginnings. -/
theorem exists_run_of_append {last : Awaiting} (h : state.run (tokens ++ more) = some last) :
    ∃ middle, state.run tokens = some middle ∧ middle.run more = some last := by
  rw [run_append] at h
  exact Option.bind_eq_some_iff.1 h

theorem run_append_of_run {middle : Awaiting} (h : state.run tokens = some middle) :
    state.run (tokens ++ more) = middle.run more := by
  rw [run_append, h, Option.bind_some]

@[simp] theorem step_operand (assignable : Bool) (depth : Nat) (kind : TokenKind) :
    (operand assignable depth).step kind =
      kind.prefixForm?.map (afterForm assignable depth) := rfl

/-- A statement may begin with an expression. -/
theorem step_statement (h : kind.prefixForm? ≠ none) :
    statement.step kind = (operand true 0).step kind := by
  cases kind with
  | keyword word => cases word <;> first | rfl | exact absurd rfl h
  | endOfInput => exact absurd rfl h
  | _ => rfl

theorem step_operator (h : kind.binaryOp?.isSome = true) (assignable : Bool) (depth : Nat) :
    (operator assignable depth).step kind = some (operand false depth) := by simp [step, h]

@[simp] theorem step_endOfInput : statement.step .endOfInput = some nothing := rfl

@[simp] theorem step_varWord : statement.step (.keyword .varWord) = some name := rfl

@[simp] theorem step_printWord : statement.step (.keyword .printWord) = some (operand true 0) := rfl

@[simp] theorem step_name : name.step .identifier = some initializer := rfl

@[simp] theorem step_initial : initializer.step .equal = some (operand true 0) := rfl

@[simp] theorem step_uninitialized : initializer.step .semicolon = some statement := rfl

@[simp] theorem step_equal (depth : Nat) :
    (operator true depth).step .equal = some (operand true depth) := rfl

@[simp] theorem step_rightParen (assignable : Bool) (depth : Nat) :
    (operator assignable (depth + 1)).step .rightParen = some (operator false depth) := by
  cases assignable <;> rfl

@[simp] theorem step_semicolon (assignable : Bool) :
    (operator assignable 0).step .semicolon = some statement := by cases assignable <;> rfl

/-- Where an operator is awaited, only four kinds of token may stand. -/
theorem step_operator_cases {next : Awaiting}
    (h : (operator assignable depth).step kind = some next) :
    (kind.binaryOp?.isSome = true ∧ next = operand false depth) ∨
    (kind = .equal ∧ assignable = true ∧ next = operand true depth) ∨
    (kind = .rightParen ∧ ∃ outer, depth = outer + 1 ∧ next = operator false outer) ∨
    (kind = .semicolon ∧ depth = 0 ∧ next = statement) := by
  simp only [step] at h
  split at h
  · simp_all
  · split at h <;> simp_all

/-- An equals sign apart, the same may follow a name and anything else. -/
theorem step_operator_of_ne (h : kind ≠ .equal) (named named' : Bool) (depth : Nat) :
    (operator named depth).step kind = (operator named' depth).step kind := by
  cases kind <;> first
    | exact absurd rfl h
    | cases depth <;> cases named <;> cases named' <;> rfl

/-! ## phrases -/

/-- Tokens that lead from an operand to an operator in the same group. -/
def Completes (tokens : List Token) : Prop :=
  ∀ depth, ∃ named, (operand false depth).run tokens = some (operator named depth)

/-- Tokens that lead from an operator to an operator in the same group. -/
def Continues (tokens : List Token) : Prop :=
  ∀ depth, ∃ named, (operator false depth).run tokens = some (operator named depth)

theorem continues_nil : Continues [] := fun _ => ⟨false, rfl⟩

/-- Whatever continues an expression begins with an operator. -/
theorem continues_cons :
    Continues (token :: tokens) ↔ token.kind.binaryOp?.isSome = true ∧ Completes tokens := by
  constructor
  · intro h
    have hop : token.kind.binaryOp?.isSome = true := by
      obtain ⟨_, hrun⟩ := h 0
      obtain ⟨_, hrun'⟩ := h 1
      obtain ⟨next, hstep, -⟩ := Option.bind_eq_some_iff.1 hrun
      obtain ⟨next', hstep', -⟩ := Option.bind_eq_some_iff.1 hrun'
      -- outside all groups no parenthesis may stand, inside one no semicolon
      rcases step_operator_cases hstep with ⟨hop, -⟩ | ⟨-, hfalse, -⟩ | ⟨-, _, hdepth, -⟩ |
        ⟨hsemicolon, -⟩
      · exact hop
      · cases hfalse
      · cases hdepth
      · rw [hsemicolon] at hstep'
        cases hstep'
    refine ⟨hop, fun depth => ?_⟩
    simpa [step_operator hop] using h depth
  · rintro ⟨hop, h⟩ depth
    simpa [step_operator hop] using h depth

/-- A semicolon after an operand ends the statement outside all groups, and may
not stand inside one. -/
theorem Completes.run_semicolon (h : Completes tokens) (hkind : token.kind = .semicolon) :
    (operand false 0).run (tokens ++ [token]) = some statement ∧
      (operand false 1).run (tokens ++ [token]) = none := by
  obtain ⟨named, hrun⟩ := h 0
  obtain ⟨named', hrun'⟩ := h 1
  rw [run_append_of_run hrun, run_append_of_run hrun']
  cases named <;> cases named' <;> simp [hkind] <;> rfl

end Awaiting

/-! ## what the grammar derives may stand -/

section

variable {level floor : Level} {tokens before after more front part : List Token} {e : Expr}
  {depth : Nat} {assignable : Bool} {token : Token}

open Awaiting

theorem Joins.isSome_binaryOp? {kind : TokenKind} {op : BinaryOp} (h : Joins level kind op) :
    kind.binaryOp?.isSome = true := by simp [h.binaryOp?]

theorem Joins.ne_expression {kind : TokenKind} {op : BinaryOp} (h : Joins level kind op) :
    level ≠ .expression := by cases h <;> decide

theorem Joins.next_le_unary {kind : TokenKind} {op : BinaryOp} (h : Joins level kind op) :
    level.next.precedence ≤ Level.unary.precedence := by cases h <;> decide

theorem Joins.not_unary_le {kind : TokenKind} {op : BinaryOp} (h : Joins level kind op) :
    ¬ Level.unary.precedence ≤ level.precedence := by cases h <;> decide

theorem Level.expression_le (level : Level) : expression.precedence ≤ level.precedence := by
  cases level <;> decide

theorem Level.next_ne_expression (level : Level) : level.next ≠ .expression := by
  cases level <;> decide

/-- After a phrase an operator is awaited. -/
theorem Level.Derives.run (h : level.Derives tokens e)
    (hassignable : level = .expression → assignable = true) (depth : Nat) :
    ∃ named, (operand assignable depth).run tokens = some (operator named depth) := by
  induction h generalizing assignable depth with
  | tighter _ ih => exact ih (fun h => absurd h (Level.next_ne_expression _)) depth
  | assign hname hsign _ ih =>
    obtain rfl := hassignable rfl
    obtain ⟨named, hrun⟩ := ih (fun _ => rfl) depth
    exact ⟨named, by simp [hname, hsign, TokenKind.prefixForm?, hrun]⟩
  | binary hsign _ _ ihleft ihright =>
    obtain ⟨named, hleft⟩ := ihleft (fun h => absurd h hsign.ne_expression) depth
    obtain ⟨named', hright⟩ := ihright (fun h => absurd h (Level.next_ne_expression _)) depth
    refine ⟨named', ?_⟩
    rw [run_append_of_run hleft, run_cons, step_operator hsign.isSome_binaryOp?, Option.bind_some,
      hright]
  | unary hsign _ ih =>
    obtain ⟨named, hrun⟩ := @ih false (fun h => by cases h) depth
    exact ⟨named, by simp [hsign.prefixForm?, hrun]⟩
  | literal h =>
    refine ⟨false, ?_⟩
    generalize hkind : Token.kind _ = kind at h
    cases h <;> simp [hkind, TokenKind.prefixForm?]
  | global h => exact ⟨assignable, by simp [h, TokenKind.prefixForm?]⟩
  | group hopening hclosing _ ih =>
    obtain ⟨named, hrun⟩ := ih (fun _ => rfl) (depth + 1)
    exact ⟨false, by simp [hopening, TokenKind.prefixForm?, run_append, hrun, hclosing]⟩

theorem Level.Derives.run_statement (h : Level.expression.Derives tokens e) :
    ∃ named, Awaiting.statement.run tokens = some (operator named 0) := by
  obtain ⟨named, hrun⟩ := h.run (fun _ => rfl) 0
  obtain ⟨first, rest, rfl, hfirst⟩ := h.exists_cons
  exact ⟨named, by rw [run_cons, step_statement hfirst, ← run_cons, hrun]⟩

theorem Stmt.Derives.run {statement : Stmt} (h : statement.Derives tokens) :
    Awaiting.statement.run tokens = some .statement := by
  cases h with
  | declare hintro hname hsemicolon => simp [hintro, hname, hsemicolon]
  | define hintro hname hsign hinitial hsemicolon =>
    obtain ⟨named, hrun⟩ := hinitial.run (fun _ => rfl) 0
    simp [hintro, hname, hsign, run_append, hrun, hsemicolon]
  | print hintro hvalue hsemicolon =>
    obtain ⟨named, hrun⟩ := hvalue.run (fun _ => rfl) 0
    simp [hintro, run_append, hrun, hsemicolon]
  | expression hvalue hsemicolon =>
    obtain ⟨named, hrun⟩ := hvalue.run_statement
    simp [run_append, hrun, hsemicolon]

theorem Stmt.DerivesAll.run {statements : List Stmt} (h : Stmt.DerivesAll tokens statements) :
    Awaiting.statement.run tokens = some .statement := by
  induction h with
  | nil => rfl
  | cons hhead _ ih => rw [run_append_of_run hhead.run, ih]

theorem Program.Derives.run {program : Program} (h : program.Derives tokens) :
    Awaiting.statement.run tokens = some .nothing := by
  obtain ⟨body, last, rfl, hlast, hbody, -⟩ := h
  simp [run_append_of_run hbody.run, hlast]

/-! ## what may stand can be completed -/

/-- A phrase goes on with an operator and a tighter phrase. -/
theorem Level.Derives.extend {sign : Token} {op : BinaryOp} {right : Expr}
    (h : level.Derives before e) (hsign : Joins floor sign.kind op)
    (hle : level.precedence ≤ floor.precedence) (hright : Level.unary.Derives after right) :
    ∃ whole, level.Derives (before ++ sign :: after) whole := by
  have hoperand : floor.next.Derives after right := hright.loosen hsign.next_le_unary
  induction h with
  | @tighter level _ _ inner ih =>
    by_cases heq : level = floor
    · subst heq
      exact ⟨_, .binary hsign (.tighter inner) hoperand⟩
    · obtain ⟨whole, hwhole⟩ := ih (Level.next_le heq hle).2
      exact ⟨whole, .tighter hwhole⟩
  | assign hname hequal _ ih =>
    obtain ⟨whole, hwhole⟩ := ih hle
    exact ⟨_, .assign hname hequal hwhole⟩
  | @binary level _ _ _ _ _ _ hjoins hleft hafter _ ih =>
    by_cases heq : level = floor
    · subst heq
      exact ⟨_, .binary hsign (.binary hjoins hleft hafter) hoperand⟩
    · obtain ⟨whole, hwhole⟩ := ih (Level.next_le heq hle).2
      exact ⟨_, by simpa using Level.Derives.binary hjoins hleft hwhole⟩
  | unary => exact absurd hle hsign.not_unary_le
  | literal | global | group =>
    exact absurd (Precedence.le_trans (by decide) hle) hsign.not_unary_le

/-- Tokens that an operand would make an expression: any expression, or only
one that binds as tightly as a unary operator. -/
def Expects (assignable : Bool) (part : List Token) : Prop :=
  ∀ tokens e, (if assignable then Level.expression else Level.unary).Derives tokens e →
    ∃ whole, Level.expression.Derives (part ++ tokens) whole

/-- Tokens of a statement before an expression that stands inside some
groups. -/
inductive Encloses : Nat → List Token → Prop where
  | bare : Encloses 0 []
  | print {intro : Token} (hintro : intro.kind = .keyword .printWord) : Encloses 0 [intro]
  | define {intro name sign : Token} (hintro : intro.kind = .keyword .varWord)
      (hname : name.kind = .identifier) (hsign : sign.kind = .equal) :
      Encloses 0 [intro, name, sign]
  | group {depth : Nat} {front part : List Token} {assignable : Bool} {opening : Token}
      (outer : Encloses depth front) (hpart : Expects assignable part)
      (hopening : opening.kind = .leftParen) : Encloses (depth + 1) (front ++ part ++ [opening])

/-- What the tokens of a program read so far are, by what is awaited. -/
inductive Reached : List Token → Awaiting → Prop where
  | statement {tokens : List Token} {statements : List Stmt}
      (h : Stmt.DerivesAll tokens statements) : Reached tokens .statement
  | name {tokens : List Token} {statements : List Stmt} {intro : Token}
      (h : Stmt.DerivesAll tokens statements) (hintro : intro.kind = .keyword .varWord) :
      Reached (tokens ++ [intro]) .name
  | initializer {tokens : List Token} {statements : List Stmt} {intro name : Token}
      (h : Stmt.DerivesAll tokens statements) (hintro : intro.kind = .keyword .varWord)
      (hname : name.kind = .identifier) : Reached (tokens ++ [intro, name]) .initializer
  | operand {tokens front part : List Token} {statements : List Stmt} {assignable : Bool}
      {depth : Nat} (h : Stmt.DerivesAll tokens statements) (hfront : Encloses depth front)
      (hpart : Expects assignable part) :
      Reached (tokens ++ (front ++ part)) (.operand assignable depth)
  | operator {tokens front part : List Token} {statements : List Stmt} {assignable : Bool}
      {depth : Nat} {e : Expr} (h : Stmt.DerivesAll tokens statements)
      (hfront : Encloses depth front) (hpart : Level.expression.Derives part e)
      (hname : assignable = true → ∃ before name, part = before ++ [name] ∧
        name.kind = .identifier ∧ Expects true before) :
      Reached (tokens ++ (front ++ part)) (.operator assignable depth)
  | nothing {tokens : List Token} {program : Program} (h : program.Derives tokens) :
      Reached tokens .nothing

namespace Expects

theorem nil : Expects true [] := fun _ e h => ⟨e, h⟩

/-- A tight operand completes whatever awaits one. -/
theorem tight (h : Expects assignable part) (hunary : Level.unary.Derives tokens e) :
    ∃ whole, Level.expression.Derives (part ++ tokens) whole := by
  cases assignable with
  | true => exact h _ _ (hunary.loosen (by decide))
  | false => exact h _ _ hunary

theorem primary (h : Expects assignable part) (hprimary : Level.primary.Derives tokens e) :
    ∃ whole, Level.expression.Derives (part ++ tokens) whole := h.tight hprimary.of_primary

theorem assign {name sign : Token} (h : Expects true part) (hname : name.kind = .identifier)
    (hsign : sign.kind = .equal) : Expects true (part ++ [name, sign]) := by
  intro tokens e hvalue
  obtain ⟨whole, hwhole⟩ := h _ _ (.assign hname hsign hvalue)
  exact ⟨whole, by simpa using hwhole⟩

theorem unary {sign : Token} {op : UnaryOp} (h : Expects assignable part)
    (hsign : Signs sign.kind op) : Expects false (part ++ [sign]) := by
  intro tokens e hoperand
  obtain ⟨whole, hwhole⟩ := h.tight (.unary hsign hoperand)
  exact ⟨whole, by simpa using hwhole⟩

theorem binary {sign : Token} (h : Level.expression.Derives part e)
    (hsign : sign.kind.binaryOp?.isSome = true) : Expects false (part ++ [sign]) := by
  intro tokens right hright
  obtain ⟨op, hop⟩ := Option.isSome_iff_exists.1 hsign
  obtain ⟨floor, hjoins⟩ := joins_of_binaryOp? hop
  obtain ⟨whole, hwhole⟩ := h.extend hjoins floor.expression_le hright
  exact ⟨whole, by simpa using hwhole⟩

end Expects

/-- Outside all groups an expression and a semicolon complete a statement. -/
theorem Encloses.statement (h : Encloses 0 front) (hpart : Level.expression.Derives part e)
    (hsemicolon : token.kind = .semicolon) :
    ∃ statement, Stmt.Derives (front ++ part ++ [token]) statement := by
  cases h with
  | bare => exact ⟨_, .expression hpart hsemicolon⟩
  | print hintro => exact ⟨_, .print hintro hpart hsemicolon⟩
  | define hintro hname hsign => exact ⟨_, .define hintro hname hsign hpart hsemicolon⟩

/-- An expression, the parentheses that close the groups around it and a
semicolon complete a statement. -/
theorem Encloses.complete (h : Encloses depth front) (hpart : Level.expression.Derives part e) :
    ∃ closing statement, Stmt.Derives (front ++ part ++ closing) statement := by
  induction h generalizing part e with
  | bare => exact ⟨[⟨.semicolon, [], 1⟩], Encloses.bare.statement hpart rfl⟩
  | print hintro => exact ⟨[⟨.semicolon, [], 1⟩], (Encloses.print hintro).statement hpart rfl⟩
  | define hintro hname hsign =>
    exact ⟨[⟨.semicolon, [], 1⟩], (Encloses.define hintro hname hsign).statement hpart rfl⟩
  | @group _ _ _ _ opening _ hhole hopening ih =>
    have hgroup : Level.primary.Derives (opening :: part ++ [⟨.rightParen, [], 1⟩]) _ :=
      .group hopening rfl hpart
    obtain ⟨whole, hwhole⟩ := hhole.primary hgroup
    obtain ⟨closing, statement, hstatement⟩ := ih hwhole
    exact ⟨⟨.rightParen, [], 1⟩ :: closing, statement, by simpa using hstatement⟩

theorem Stmt.DerivesAll.concat {statement : Stmt} {statements : List Stmt}
    (h : Stmt.DerivesAll tokens statements) (hlast : statement.Derives more) :
    Stmt.DerivesAll (tokens ++ more) (statements ++ [statement]) := by
  induction h with
  | nil => simpa using Stmt.DerivesAll.cons hlast .nil
  | cons hhead _ ih => simpa using Stmt.DerivesAll.cons hhead ih

namespace Reached

variable {state next : Awaiting} {statements : List Stmt}

/-- What is reached by a token that begins an operand. -/
theorem form {form : PrefixForm} (h : Stmt.DerivesAll tokens statements)
    (hfront : Encloses depth front) (hpart : Expects assignable part)
    (hform : token.kind.prefixForm? = some form) :
    Reached (tokens ++ (front ++ part) ++ [token]) (afterForm assignable depth form) := by
  have hbegins := begins_of_prefixForm? hform
  have hliteral {value : Literal} (hvalue : Denotes token.kind token.lexeme value) :
      Reached (tokens ++ (front ++ part) ++ [token]) (.operator false depth) := by
    obtain ⟨whole, hwhole⟩ := hpart.primary (.literal hvalue)
    simpa using Reached.operator h hfront hwhole (by simp)
  cases form with
  | atom value => exact hliteral (hbegins.2 _)
  | number =>
    have hkind : token.kind = .number := hbegins
    exact hliteral (by rw [hkind]; exact .number _)
  | string =>
    have hkind : token.kind = .string := hbegins
    exact hliteral (by rw [hkind]; exact .string _)
  | name =>
    obtain ⟨whole, hwhole⟩ := hpart.primary (.global hbegins)
    have hname : assignable = true → ∃ before name, part ++ [token] = before ++ [name] ∧
        name.kind = .identifier ∧ Expects true before := by
      rintro rfl
      exact ⟨part, token, rfl, hbegins, hpart⟩
    simpa [afterForm] using Reached.operator h hfront hwhole hname
  | group => simpa [afterForm] using Reached.operand h (.group hfront hpart hbegins) .nil
  | unary op => simpa [afterForm] using Reached.operand h hfront (hpart.unary hbegins)

/-- What is read and awaited stays in step, token by token. -/
theorem step (h : Reached tokens state) (hstep : state.step token.kind = some next) :
    Reached (tokens ++ [token]) next := by
  cases h with
  | statement h =>
    have hfront := Encloses.bare
    simp only [Awaiting.step] at hstep
    split at hstep
    · next hend =>
      obtain rfl := Option.some.inj hstep
      have hprogram : Program.Derives (tokens ++ [token]) ⟨_, token.line⟩ :=
        ⟨tokens, token, rfl, hend, h, rfl⟩
      exact .nothing hprogram
    split at hstep
    · next hvar =>
      obtain rfl := Option.some.inj hstep
      exact .name h hvar
    split at hstep
    · next hprint =>
      obtain rfl := Option.some.inj hstep
      simpa using Reached.operand h (.print hprint) .nil
    · obtain ⟨form, hform, rfl⟩ := Option.map_eq_some_iff.1 hstep
      simpa using Reached.form h hfront .nil hform
  | name h hintro =>
    simp only [Awaiting.step, Option.ite_none_right_eq_some, Option.some.injEq] at hstep
    obtain ⟨hname, rfl⟩ := hstep
    simpa using Reached.initializer h hintro hname
  | initializer h hintro hname =>
    simp only [Awaiting.step] at hstep
    split at hstep
    · next hsign =>
      obtain rfl := Option.some.inj hstep
      simpa using Reached.operand h (.define hintro hname hsign) .nil
    · simp only [Option.ite_none_right_eq_some, Option.some.injEq] at hstep
      obtain ⟨hsemicolon, rfl⟩ := hstep
      simpa using Reached.statement (h.concat (.declare hintro hname hsemicolon))
  | operand h hfront hpart =>
    obtain ⟨form, hform, rfl⟩ := Option.map_eq_some_iff.1 hstep
    exact .form h hfront hpart hform
  | operator h hfront hpart hname =>
    rcases step_operator_cases hstep with ⟨hop, rfl⟩ | ⟨hsign, hassignable, rfl⟩ |
      ⟨hclosing, outer, rfl, rfl⟩ | ⟨hsemicolon, rfl, rfl⟩
    · simpa using Reached.operand h hfront (.binary hpart hop)
    · obtain ⟨before, name, rfl, hidentifier, hbefore⟩ := hname hassignable
      simpa using Reached.operand h hfront (hbefore.assign hidentifier hsign)
    · cases hfront with
      | group houter hhole hopening =>
        obtain ⟨whole, hwhole⟩ := hhole.primary (.group hopening hclosing hpart)
        simpa using Reached.operator h houter hwhole (by simp)
    · obtain ⟨statement, hstatement⟩ := hfront.statement hpart hsemicolon
      simpa using Reached.statement (h.concat hstatement)
  | nothing _ => cases hstep

/-- Whatever is read and awaited can be completed. -/
theorem complete (h : Reached tokens state) :
    ∃ more program, Program.Derives (tokens ++ more) program := by
  have hend {tokens : List Token} {statements : List Stmt}
      (h : Stmt.DerivesAll tokens statements) :
      Program.Derives (tokens ++ [⟨.endOfInput, [], 1⟩]) ⟨statements, 1⟩ :=
    ⟨tokens, _, rfl, rfl, h, rfl⟩
  have hphrase {tokens front part : List Token} {statements : List Stmt} {depth : Nat} {e : Expr}
      (h : Stmt.DerivesAll tokens statements) (hfront : Encloses depth front)
      (hpart : Level.expression.Derives part e) :
      ∃ more program, Program.Derives (tokens ++ (front ++ part) ++ more) program := by
    obtain ⟨closing, statement, hstatement⟩ := hfront.complete hpart
    exact ⟨_, _, by simpa using hend (h.concat hstatement)⟩
  cases h with
  | statement h => exact ⟨_, _, hend h⟩
  | name h hintro =>
    have hstatement : Stmt.Derives [_, ⟨.identifier, [], 1⟩, ⟨.semicolon, [], 1⟩] _ :=
      .declare hintro rfl rfl
    exact ⟨_, _, by simpa using hend (h.concat hstatement)⟩
  | initializer h hintro hname =>
    have hstatement : Stmt.Derives [_, _, ⟨.semicolon, [], 1⟩] _ := .declare hintro hname rfl
    exact ⟨_, _, by simpa using hend (h.concat hstatement)⟩
  | operand h hfront hpart =>
    have hnil : Level.primary.Derives [⟨.keyword .nilWord, [], 1⟩] (.literal .nil 1) :=
      .literal (.nil _)
    obtain ⟨whole, hwhole⟩ := hpart.primary hnil
    obtain ⟨more, program, hprogram⟩ := hphrase h hfront hwhole
    exact ⟨_, program, by simpa using hprogram⟩
  | operator h hfront hpart _ => exact hphrase h hfront hpart
  | nothing h => exact ⟨[], _, by simpa using h⟩

theorem of_run (h : Reached tokens state) (hrun : state.run more = some next) :
    Reached (tokens ++ more) next := by
  induction more generalizing tokens state with
  | nil => simpa [Option.some.inj hrun] using h
  | cons token more ih =>
    obtain ⟨middle, hmiddle, hrest⟩ := Option.bind_eq_some_iff.1 hrun
    simpa using ih (h.step hmiddle) hrest

end Reached

/-- Tokens begin a program exactly if each of them may stand where it
stands. -/
theorem viable_iff :
    (∃ more program, Program.Derives (tokens ++ more) program) ↔
      ∃ state, Awaiting.statement.run tokens = some state := by
  constructor
  · rintro ⟨more, program, h⟩
    obtain ⟨state, hrun, -⟩ := exists_run_of_append h.run
    exact ⟨state, hrun⟩
  · rintro ⟨state, hrun⟩
    exact (Reached.of_run (.statement .nil) hrun).complete

end

end Lox
