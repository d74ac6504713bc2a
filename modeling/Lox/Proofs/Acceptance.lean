import Lox.Chunk.Lowering
import Lox.Proofs.Parser.Statement

/-!
# Lox.Proofs.Acceptance

The compiler accepts exactly its grammar.

A source is accepted if it scans without a fault, its tokens are derived by the
grammar, it has no more pooled tokens than fit in a pool, and its expressions
are nested within the limit.  What accepted sources parse to is derived from
their tokens, and asks for the constants of the tree.
-/

namespace Lox

variable {source : Text} {tokens : List Token}

/-! ## pooled tokens -/

/-- The pool entry that a token asks for: its number, the text between its
quotes, or its name. -/
def Token.constant? (token : Token) : Option Constant :=
  match token.kind with
  | .number => some (.number (Decimal.read token.lexeme))
  | .string => some (.text (Parser.unquote token.lexeme))
  | .identifier => some (.text token.lexeme)
  | _ => none

theorem Token.isSome_constant? (token : Token) :
    token.constant?.isSome = token.kind.isPooled := by
  obtain ⟨kind, lexeme, line⟩ := token
  cases kind <;> rfl

theorem Token.constant?_of_not_pooled {token : Token} (h : token.kind.isPooled = false) :
    token.constant? = none := by
  rw [← Option.not_isSome_iff_eq_none, token.isSome_constant?, h]
  simp

theorem pooledTokens_eq_length (tokens : List Token) :
    pooledTokens tokens = (tokens.filterMap Token.constant?).length := by
  simp only [List.length_filterMap_eq_countP, Token.isSome_constant?, pooledTokens]

theorem Denotes.constant? {token : Token} {value : Literal}
    (h : Denotes token.kind token.lexeme value) : token.constant? = value.constant? := by
  obtain ⟨kind, lexeme, line⟩ := token
  cases h <;> rfl

theorem Joins.not_pooled {level : Level} {kind : TokenKind} {op : BinaryOp}
    (h : Joins level kind op) : kind.isPooled = false := by cases h <;> rfl

theorem Signs.not_pooled {kind : TokenKind} {op : UnaryOp} (h : Signs kind op) :
    kind.isPooled = false := by cases h <;> rfl

/-- The pool entries of an expression are those of its tokens. -/
theorem Level.Derives.constants {level : Level} {e : Expr} (h : level.Derives tokens e) :
    tokens.filterMap Token.constant? = e.constants := by
  induction h with
  | tighter _ ih => exact ih
  | assign hname hsign _ ih => simp [Token.constant?, hname, hsign, ih, Expr.constants]
  | binary hsign _ _ ihleft ihright =>
    simp [Token.constant?_of_not_pooled hsign.not_pooled, ihleft, ihright, Expr.constants]
  | unary hsign _ ih =>
    simp [Token.constant?_of_not_pooled hsign.not_pooled, ih, Expr.constants]
  | literal h =>
    rw [List.filterMap_cons, h.constant?, Expr.constants]
    split <;> simp_all
  | global h => simp [Token.constant?, h, Expr.constants]
  | group hopening hclosing _ ih => simp [Token.constant?, hopening, hclosing, ih, Expr.constants]

theorem Stmt.Derives.constants {statement : Stmt} (h : statement.Derives tokens) :
    tokens.filterMap Token.constant? = statement.constants := by
  cases h with
  | declare hintro hname hsemicolon =>
    simp [Token.constant?, hintro, hname, hsemicolon, Stmt.constants]
  | define hintro hname hsign hinitial hsemicolon =>
    simp [Token.constant?, hintro, hname, hsign, hsemicolon, hinitial.constants, Stmt.constants]
  | print hintro hvalue hsemicolon =>
    simp [Token.constant?, hintro, hsemicolon, hvalue.constants, Stmt.constants]
  | expression hvalue hsemicolon =>
    simp [Token.constant?, hsemicolon, hvalue.constants, Stmt.constants]

theorem Stmt.DerivesAll.constants {statements : List Stmt}
    (h : Stmt.DerivesAll tokens statements) :
    tokens.filterMap Token.constant? = statements.flatMap Stmt.constants := by
  induction h with
  | nil => rfl
  | cons hhead _ ih => rw [List.filterMap_append, hhead.constants, ih, List.flatMap_cons]

/-- The end marker takes no entry. -/
theorem filterMap_constant?_end {body : List Token} {last : Token}
    (h : last.kind = .endOfInput) :
    (body ++ [last]).filterMap Token.constant? = body.filterMap Token.constant? := by
  simp [Token.constant?, h]

theorem Program.Derives.constants {program : Program} (h : program.Derives tokens) :
    tokens.filterMap Token.constant? = program.constants := by
  obtain ⟨body, last, rfl, hlast, hbody, -⟩ := h
  rw [filterMap_constant?_end hlast, hbody.constants, Program.constants]

theorem Program.Derives.pooledTokens {program : Program} (h : program.Derives tokens) :
    pooledTokens tokens = program.constants.length := by
  rw [pooledTokens_eq_length, h.constants]

theorem Query.Derives.constants {query : Query} (h : query.Derives tokens) :
    tokens.filterMap Token.constant? = query.expression.constants := by
  obtain ⟨body, last, rfl, hlast, hbody, -⟩ := h
  rw [filterMap_constant?_end hlast, hbody.constants]

theorem Query.Derives.pooledTokens {query : Query} (h : query.Derives tokens) :
    pooledTokens tokens = query.expression.constants.length := by
  rw [pooledTokens_eq_length, h.constants]

/-! ## the first token -/

namespace Parser

theorem start_of_scan (h : scan source = tokens.map .token) :
    start source = quiet ⟨.endOfInput, [], 1⟩ tokens [] 1 := by
  rw [start, lex_of_scan h]
  cases tokens <;> rfl

theorem accounts_start (source : Text) : (start source).Accounts (lex source) := by
  obtain ⟨init, last, heq, -, -⟩ := terminated_lex source
  obtain ⟨first, rest, hfirst⟩ : ∃ first rest, lex source = first :: rest :=
    List.exists_cons_of_ne_nil (by simp [heq])
  obtain ⟨faults, token⟩ := first
  refine ⟨[], ⟨faults, token⟩, ?_, ?_, ?_⟩ <;> simp only [start, hfirst, take, List.nil_append]
  · intro hquiet
    obtain rfl := faults_eq_nil_of_recordFaults rfl hquiet
    exact ⟨rfl, rfl, by simp⟩

variable {all : List Lexed} {p : Parser}

/-- A parser that reached the end without a diagnostic has seen no faults. -/
theorem Accounts.faultless_of_end (h : p.Accounts all) (hall : Terminated all)
    (hend : p.current.kind = .endOfInput) (hquiet : p.diagnostics = []) :
    ∀ lexed ∈ all, lexed.faults = [] := by
  obtain ⟨passed, lexed, rfl, hcurrent, hflaws⟩ := h
  rw [hall.eq_nil_of_kind (hcurrent ▸ hend)]
  exact (hflaws hquiet).2.2

/-- A statement takes a token from those pending. -/
theorem Accounts.length_pending_statement (h : p.Accounts all) (hall : Terminated all)
    (hgo : p.current.kind ≠ .endOfInput) :
    p.statement.2.pending.length < p.pending.length := by
  obtain ⟨passed, lexed, rfl, hcurrent, -⟩ := h
  have hle := (Leads.statement_take p).suffix.length_le
  cases hpending : p.pending with
  | nil => exact absurd hpending (hall.ne_nil_of_kind (hcurrent ▸ hgo))
  | cons first rest =>
    simp only [take, hpending] at hle
    exact Nat.lt_succ_of_le hle

theorem Accounts.faultless_of_statements (h : p.Accounts all) (hall : Terminated all)
    {count : Nat} (hcount : p.pending.length < count)
    (hquiet : (p.statements count).2.diagnostics = []) : ∀ lexed ∈ all, lexed.faults = [] := by
  induction count generalizing p with
  | zero => omega
  | succ count ih =>
    have hstart := (Leads.statements _ p).keeps hquiet
    have hoverflowed : p.overflowed = false := by
      obtain ⟨passed, lexed, -, -, hflaws⟩ := h
      exact (hflaws hstart).2.1
    by_cases hend : p.current.kind = .endOfInput
    · exact h.faultless_of_end hall hend hstart
    · rw [statements_of_ne hoverflowed hend] at hquiet
      have hless := h.length_pending_statement hall hend
      exact ih ((Leads.statement p).accounts h) (by omega) hquiet

/-- Without a diagnostic, an expected token was there. -/
theorem Accounts.kind_of_expect (h : p.Accounts all) {kind : TokenKind} {error : SyntaxError}
    (hquiet : (p.expect kind error).2.diagnostics = []) : p.current.kind = kind := by
  obtain ⟨_, _, -, -, hcalm⟩ := h
  have hpanicking := (hcalm ((Leads.expect p kind error).keeps hquiet)).1
  by_cases hkind : p.current.kind = kind
  · exact hkind
  · rw [expect, if_neg hkind] at hquiet
    exact absurd hquiet (diagnostics_record_ne_nil hpanicking _ _ _)

end Parser

/-! ## programs -/

theorem Parsed.ofParser_eq_ok {α : Type} {read : Option α × Parser} {tree : α}
    (h : (Parsed.ofParser read).result = .ok tree) :
    read.1 = some tree ∧ read.2.diagnostics = [] := by
  obtain ⟨parsed, p⟩ := read
  simp only [ofParser] at h
  split at h
  · next hquiet => exact ⟨congrArg some (Except.ok.inj h), hquiet⟩
  · cases h

open Lox.Parser

/-- What the grammar derives within the limits is parsed, and asks for the
constants of the tree. -/
theorem Program.parse_of_derives {program : Program} (hscan : scan source = tokens.map .token)
    (hderives : program.Derives tokens)
    (hdepth : ∀ statement ∈ program.statements, statement.Shallow)
    (hroom : program.constants.length ≤ poolCapacity) :
    Program.parse source = ⟨.ok program, program.constants⟩ := by
  obtain ⟨statements, endLine⟩ := program
  obtain ⟨body, last, rfl, hlast, hbody, rfl⟩ := hderives
  have hentries : ([] : List Constant).length + (statements.flatMap Stmt.constants).length ≤
      poolCapacity := by rwa [List.length_nil, Nat.zero_add]
  obtain ⟨taken, hread⟩ :=
    hbody.parse ⟨.endOfInput, [], 1⟩ 1 hlast hdepth hentries (Nat.lt_succ_self _)
  have hpending : (start source).pending.length = body.length := by
    rw [start_of_scan hscan]
    simp [quiet]
  rw [Program.parse, Parser.program, hpending, start_of_scan hscan, hread]
  rfl

/-- The tokens of a source without faults, the last of which is the only end
marker. -/
theorem exists_tokens_of_faultless (h : ∀ lexed ∈ lex source, lexed.faults = []) :
    ∃ tokens, scan source = tokens.map .token ∧ Ended tokens ∧
      ∀ {body last rest}, tokens = body ++ last :: rest → last.kind = .endOfInput → rest = [] := by
  have hscan := scan_of_faultless h
  have hterminated := terminated_lex source
  rw [lex_of_scan hscan] at hterminated
  refine ⟨(lex source).map Lexed.token, hscan, ?_, ?_⟩
  · obtain ⟨init, last, heq, hlast, -⟩ := terminated_lex source
    exact ⟨init.map Lexed.token, last.token, by simp [heq], hlast⟩
  · intro body last rest htokens hlast
    rw [htokens, List.map_append, List.map_cons] at hterminated
    exact List.map_eq_nil_iff.1 (hterminated.eq_nil_of_kind hlast)

theorem length_pending_of_ended {previous : Token} {constants : List Constant} {taken : Nat}
    (h : Ended tokens) :
    (quiet previous tokens constants taken).pending.length + 1 = tokens.length := by
  obtain ⟨init, last, rfl, -⟩ := h
  simp [quiet]

/-- Whatever parses without diagnostics the grammar derives, within the
limits. -/
theorem Program.derives_of_parse {program : Program}
    (h : (Program.parse source).result = .ok program) :
    ∃ tokens, scan source = tokens.map .token ∧ program.Derives tokens ∧
      (∀ statement ∈ program.statements, statement.Shallow) ∧
      program.constants.length ≤ poolCapacity := by
  obtain ⟨hprogram, hquiet⟩ := Parsed.ofParser_eq_ok h
  have hfaultless := (accounts_start source).faultless_of_statements (terminated_lex source)
    (Nat.lt_succ_self _) hquiet
  obtain ⟨tokens, hscan, hended, hlast_eq⟩ := exists_tokens_of_faultless hfaultless
  simp only [Parser.program, start_of_scan hscan, length_pending_of_ended hended]
    at hprogram hquiet
  obtain ⟨body, last, rest, previous, taken, htokens, hlast, hall, hdepth, hroom, hresult⟩ :=
    derivesAll_statements _ hended (Nat.zero_le _) (Nat.le_refl _) hquiet
  obtain rfl := hlast_eq htokens hlast
  obtain rfl := Option.some.inj hprogram
  refine ⟨tokens, hscan, ⟨body, last, htokens, hlast, hall, ?_⟩, hdepth, ?_⟩
  · rw [hresult]
    rfl
  · rwa [List.length_nil, Nat.zero_add] at hroom

/-! ## lone expressions -/

theorem Query.parse_of_derives {query : Query} (hscan : scan source = tokens.map .token)
    (hderives : query.Derives tokens) (hdepth : query.expression.nesting ≤ nestingLimit)
    (hroom : query.expression.constants.length ≤ poolCapacity) :
    Query.parse source = ⟨.ok query, query.expression.constants⟩ := by
  obtain ⟨e, endLine⟩ := query
  obtain ⟨body, last, rfl, hlast, hbody, rfl⟩ := hderives
  have hentries : ([] : List Constant).length + e.constants.length ≤ poolCapacity := by
    rwa [List.length_nil, Nat.zero_add]
  have hstops : Level.expression.Stops last := Level.stops_of_kind hlast rfl (by decide) _
  obtain ⟨previous, taken, hread⟩ :=
    hbody.parse ⟨.endOfInput, [], 1⟩ [] 1 hdepth hentries hstops
  rw [Query.parse, Parser.query, start_of_scan hscan]
  simp only [hread, expect, current_quiet, hlast]
  rfl

/-- Where nothing is recorded, an expression was read up to the end. -/
theorem Query.derives_of_quiet (hquiet : (Parser.query source).2.diagnostics = []) :
    ∃ tokens query, scan source = tokens.map .token ∧ (Parser.query source).1 = some query ∧
      query.Derives tokens ∧ query.expression.nesting ≤ nestingLimit ∧
      query.expression.constants.length ≤ poolCapacity := by
  simp only [Parser.query] at hquiet ⊢
  have haccounts := (Leads.expression _).accounts (accounts_start source)
  have hend := haccounts.kind_of_expect hquiet
  have hfaultless := haccounts.faultless_of_end (terminated_lex source) hend
    ((Leads.expect _ _ _).keeps hquiet)
  obtain ⟨tokens, hscan, hended, hlast_eq⟩ := exists_tokens_of_faultless hfaultless
  rw [start_of_scan hscan] at hquiet hend ⊢
  have hread := reads nestingLimit .expression ⟨.endOfInput, [], 1⟩ tokens [] 1 (by decide) hended
    (Nat.zero_le _)
  change Reading _ _ _ _ _ (quiet _ tokens [] 1).expression at hread
  generalize (quiet _ tokens [] 1).expression = result at hread hquiet hend ⊢
  cases hread with
  | complaint hflaw => exact absurd hquiet ((Leads.expect _ _ _).complains hflaw)
  | @phrase e body rest last previous taken hderives htokens hdepth hroom _ =>
    obtain rfl := hlast_eq htokens hend
    simp only [expect, if_pos hend, Option.map_some]
    exact ⟨tokens, _, hscan, rfl, ⟨body, last, htokens, hend, hderives, rfl⟩, hdepth,
      by simpa only [List.length_nil, Nat.zero_add] using hroom⟩

theorem Query.derives_of_parse {query : Query} (h : (Query.parse source).result = .ok query) :
    ∃ tokens, scan source = tokens.map .token ∧ query.Derives tokens ∧
      query.expression.nesting ≤ nestingLimit ∧
      query.expression.constants.length ≤ poolCapacity := by
  obtain ⟨hquery, hquiet⟩ := Parsed.ofParser_eq_ok h
  obtain ⟨tokens, found, hscan, hfound, hderives⟩ := Query.derives_of_quiet hquiet
  rw [hquery] at hfound
  obtain rfl := Option.some.inj hfound
  exact ⟨tokens, hscan, hderives⟩

/-! ## acceptance -/

theorem Parsed.exists_compile_iff {α : Type} (parsed : Parsed α) (code : α → List Instruction)
    (heap : Heap) :
    (∃ chunk, (parsed.compile code heap).1 = .ok chunk) ↔ ∃ tree, parsed.result = .ok tree := by
  obtain ⟨result, constants⟩ := parsed
  cases result <;> simp [Parsed.compile, Except.map]

/-- A source compiles as a program exactly if it scans without faults to tokens
that the grammar derives as a program, of which no more than 256 are pooled,
and all of whose expressions are nested no deeper than 256; as a lone
expression exactly if the same holds of the grammar of those. -/
theorem compile_ok_iff (source : Text) (heap : Heap) :
    ((∃ chunk, (Program.compile source heap).1 = .ok chunk) ↔
      ∃ (tokens : List Token) (program : Program),
        scan source = tokens.map .token ∧ program.Derives tokens ∧ pooledTokens tokens ≤ 256 ∧
        ∀ statement ∈ program.statements, ∀ e, statement.expression? = some e →
          e.nesting ≤ 256) ∧
    ((∃ chunk, (Query.compile source heap).1 = .ok chunk) ↔
      ∃ (tokens : List Token) (query : Query),
        scan source = tokens.map .token ∧ query.Derives tokens ∧ pooledTokens tokens ≤ 256 ∧
        query.expression.nesting ≤ 256) := by
  constructor
  · rw [Program.compile, Parsed.exists_compile_iff]
    constructor
    · rintro ⟨program, hparse⟩
      obtain ⟨tokens, hscan, hderives, hdepth, hroom⟩ := Program.derives_of_parse hparse
      exact ⟨tokens, program, hscan, hderives, hderives.pooledTokens ▸ hroom, hdepth⟩
    · rintro ⟨tokens, program, hscan, hderives, hroom, hdepth⟩
      rw [hderives.pooledTokens] at hroom
      exact ⟨program, by rw [Program.parse_of_derives hscan hderives hdepth hroom]⟩
  · rw [Query.compile, Parsed.exists_compile_iff]
    constructor
    · rintro ⟨query, hparse⟩
      obtain ⟨tokens, hscan, hderives, hdepth, hroom⟩ := Query.derives_of_parse hparse
      exact ⟨tokens, query, hscan, hderives, hderives.pooledTokens ▸ hroom, hdepth⟩
    · rintro ⟨tokens, query, hscan, hderives, hroom, hdepth⟩
      rw [hderives.pooledTokens] at hroom
      exact ⟨query, by rw [Query.parse_of_derives hscan hderives hdepth hroom]⟩

end Lox
