import Lox.Proofs.Parser.Sound
import Lox.Proofs.Tokens

/-!
# Lox.Proofs.Parser.Statement

Statements, both ways: what the grammar derives as a declaration the parser
reads as one, and what the parser reads without a complaint the grammar
derives.  A run of statements goes on up to the end marker, because every
statement takes a token.
-/

namespace Lox

open Lox.Parser

variable {statement : Stmt} {e : Expr} {tokens ahead rest : List Token}
  {previous token next : Token} {constants : List Constant} {taken : Nat}

theorem Level.Derives.parse (h : Level.expression.Derives tokens e) (previous : Token)
    (rest : List Token) (taken : Nat) (hdepth : e.nesting ≤ nestingLimit)
    (hroom : constants.length + e.constants.length ≤ poolCapacity)
    (hnext : Level.expression.Stops next) :
    ∃ previous' taken',
      (quiet previous (tokens ++ next :: rest) constants taken).expression =
        (some e, quiet previous' (next :: rest) (constants ++ e.constants) taken') :=
  h.reaches.operand previous rest taken hdepth hroom hnext

theorem stops_semicolon (h : token.kind = .semicolon) (level : Level) : level.Stops token :=
  level.stops_of_kind h rfl (by decide)

/-! ## what the grammar derives is read -/

namespace Parser

theorem declaration_declare {intro name semicolon : Token} (hname : name.kind = .identifier)
    (hsemicolon : semicolon.kind = .semicolon) (hroom : constants.length < poolCapacity) :
    (quiet intro (name :: semicolon :: next :: rest) constants taken).declaration =
      (some (.var name.lexeme name.line none semicolon.line),
        quiet semicolon (next :: rest) (constants ++ [.text name.lexeme]) (taken + 2)) := by
  simp only [declaration, expect_quiet hname, previous_quiet, request_quiet hroom]
  rw [if_neg (by simp [hsemicolon])]
  simp only [expect_quiet hsemicolon]
  rfl

theorem declaration_define {name sign semicolon : Token} (intro next : Token)
    (rest : List Token) (taken : Nat) (hname : name.kind = .identifier) (hsign : sign.kind = .equal)
    (hinitial : Level.expression.Derives tokens e) (hsemicolon : semicolon.kind = .semicolon)
    (hdepth : e.nesting ≤ nestingLimit)
    (hroom : constants.length + (1 + e.constants.length) ≤ poolCapacity) :
    ∃ taken', (quiet intro (name :: sign :: (tokens ++ semicolon :: next :: rest)) constants
        taken).declaration =
      (some (.var name.lexeme name.line (some e) semicolon.line),
        quiet semicolon (next :: rest) (constants ++ .text name.lexeme :: e.constants) taken') := by
  have hentries : (constants ++ [Constant.text name.lexeme]).length + e.constants.length ≤
      poolCapacity := by
    simp only [List.length_append, List.length_singleton]
    omega
  obtain ⟨previous', taken', hread⟩ :=
    hinitial.parse sign (next :: rest) (taken + 1 + 1) hdepth hentries
      (stops_semicolon hsemicolon _)
  obtain ⟨first, more, rfl⟩ := List.exists_cons_of_ne_nil hinitial.ne_nil
  refine ⟨taken' + 1, ?_⟩
  rw [List.cons_append] at hread ⊢
  simp only [declaration, expect_quiet hname, previous_quiet,
    request_quiet (show constants.length < poolCapacity by omega)]
  rw [if_pos (by simp [hsign])]
  simp only [take_quiet, hread, expect_quiet hsemicolon, List.append_assoc, List.singleton_append]
  rfl

theorem printing_quiet {semicolon : Token} (hvalue : Level.expression.Derives tokens e)
    (intro next : Token) (rest : List Token) (taken : Nat)
    (hsemicolon : semicolon.kind = .semicolon) (hdepth : e.nesting ≤ nestingLimit)
    (hroom : constants.length + e.constants.length ≤ poolCapacity) :
    ∃ taken', (quiet intro (tokens ++ semicolon :: next :: rest) constants taken).printing =
      (some (.print e semicolon.line),
        quiet semicolon (next :: rest) (constants ++ e.constants) taken') := by
  obtain ⟨previous', taken', hread⟩ :=
    hvalue.parse intro (next :: rest) taken hdepth hroom (stops_semicolon hsemicolon _)
  refine ⟨taken' + 1, ?_⟩
  simp only [printing, hread, expect_quiet hsemicolon]
  rfl

theorem evaluation_quiet {semicolon : Token} (hvalue : Level.expression.Derives tokens e)
    (previous next : Token) (rest : List Token) (taken : Nat)
    (hsemicolon : semicolon.kind = .semicolon) (hdepth : e.nesting ≤ nestingLimit)
    (hroom : constants.length + e.constants.length ≤ poolCapacity) :
    ∃ taken', (quiet previous (tokens ++ semicolon :: next :: rest) constants taken).evaluation =
      (some (.expression e semicolon.line),
        quiet semicolon (next :: rest) (constants ++ e.constants) taken') := by
  obtain ⟨previous', taken', hread⟩ :=
    hvalue.parse previous (next :: rest) taken hdepth hroom (stops_semicolon hsemicolon _)
  refine ⟨taken' + 1, ?_⟩
  simp only [evaluation, hread, expect_quiet hsemicolon]
  rfl

theorem unrecovered_var {p : Parser} (h : p.current.kind = .keyword .varWord) :
    p.unrecovered = p.take.declaration := if_pos h

theorem unrecovered_print {p : Parser} (h : p.current.kind = .keyword .printWord) :
    p.unrecovered = p.take.printing := by
  unfold unrecovered
  rw [if_neg (by simp [h]), if_pos h]

theorem unrecovered_of_ne {p : Parser} (hvar : p.current.kind ≠ .keyword .varWord)
    (hprint : p.current.kind ≠ .keyword .printWord) : p.unrecovered = p.evaluation := by
  unfold unrecovered
  rw [if_neg hvar, if_neg hprint]

theorem statement_of_unrecovered {p q : Parser} {parsed : Option Stmt}
    (h : p.unrecovered = (parsed, q)) (hq : q.panicking = false) : p.statement = (parsed, q) := by
  simp [statement, h, hq]

theorem statements_end {p : Parser} (hp : p.overflowed = false)
    (h : p.current.kind = .endOfInput) (count : Nat) :
    p.statements (count + 1) = ([], p.take) := by
  unfold statements
  rw [if_neg (by simp [hp]), if_pos h]

theorem statements_of_ne {p : Parser} (hp : p.overflowed = false)
    (h : p.current.kind ≠ .endOfInput) (count : Nat) :
    p.statements (count + 1) =
      (p.statement.1.toList ++ (p.statement.2.statements count).1,
        (p.statement.2.statements count).2) := by
  rw [statements, if_neg (by simp [hp]), if_neg h]

end Parser

namespace Stmt.Derives

theorem unrecovered (h : statement.Derives tokens) (previous next : Token) (rest : List Token)
    (taken : Nat) (hdepth : statement.Shallow)
    (hroom : constants.length + statement.constants.length ≤ poolCapacity) :
    ∃ previous' taken',
      (quiet previous (tokens ++ next :: rest) constants taken).unrecovered =
        (some statement,
          quiet previous' (next :: rest) (constants ++ statement.constants) taken') := by
  cases h with
  | @declare intro name semicolon hintro hname hsemicolon =>
    refine ⟨semicolon, taken + 1 + 2, ?_⟩
    simp only [List.cons_append, List.nil_append]
    rw [unrecovered_var (by exact hintro), take_quiet,
      declaration_declare hname hsemicolon hroom]
    rfl
  | @define intro name sign semicolon tokens initial hintro hname hsign hinitial hsemicolon =>
    have hentries : constants.length + (1 + initial.constants.length) ≤ poolCapacity := by
      simp only [Stmt.constants, List.length_cons] at hroom
      omega
    obtain ⟨taken', hread⟩ := declaration_define intro next rest (taken + 1) hname hsign hinitial
      hsemicolon (hdepth _ rfl) hentries
    refine ⟨semicolon, taken', ?_⟩
    simp only [List.cons_append, List.append_assoc, List.nil_append]
    rw [unrecovered_var (by exact hintro), take_quiet, hread]
    rfl
  | @print intro semicolon tokens value hintro hvalue hsemicolon =>
    obtain ⟨taken', hread⟩ :=
      printing_quiet hvalue intro next rest (taken + 1) hsemicolon (hdepth _ rfl) hroom
    obtain ⟨first, more, rfl⟩ := List.exists_cons_of_ne_nil hvalue.ne_nil
    refine ⟨semicolon, taken', ?_⟩
    simp only [List.cons_append, List.append_assoc, List.nil_append] at hread ⊢
    rw [unrecovered_print (by exact hintro), take_quiet, hread]
    rfl
  | @expression semicolon tokens value hvalue hsemicolon =>
    obtain ⟨taken', hread⟩ :=
      evaluation_quiet hvalue previous next rest taken hsemicolon (hdepth _ rfl) hroom
    obtain ⟨first, more, rfl, hfirst⟩ := hvalue.exists_cons
    refine ⟨semicolon, taken', ?_⟩
    simp only [List.cons_append, List.append_assoc, List.nil_append] at hread ⊢
    have hne {word : Keyword} (hword : (TokenKind.keyword word).prefixForm? = none) :
        first.kind ≠ .keyword word := fun h => hfirst (by rw [h, hword])
    rw [unrecovered_of_ne (by exact hne rfl) (by exact hne rfl), hread]
    rfl

theorem parse (h : statement.Derives tokens) (previous next : Token) (rest : List Token)
    (taken : Nat) (hdepth : statement.Shallow)
    (hroom : constants.length + statement.constants.length ≤ poolCapacity) :
    ∃ previous' taken',
      (quiet previous (tokens ++ next :: rest) constants taken).statement =
        (some statement,
          quiet previous' (next :: rest) (constants ++ statement.constants) taken') := by
  obtain ⟨previous', taken', hread⟩ := h.unrecovered previous next rest taken hdepth hroom
  exact ⟨previous', taken', statement_of_unrecovered hread rfl⟩

/-- No statement begins with the end marker. -/
theorem exists_cons (h : statement.Derives tokens) :
    ∃ token rest, tokens = token :: rest ∧ token.kind ≠ .endOfInput := by
  cases h with
  | declare hintro _ _ => exact ⟨_, _, rfl, by simp [hintro]⟩
  | define hintro _ _ _ _ => exact ⟨_, _, rfl, by simp [hintro]⟩
  | print hintro _ _ => exact ⟨_, _, rfl, by simp [hintro]⟩
  | expression hvalue _ =>
    obtain ⟨first, more, rfl, hfirst⟩ := hvalue.exists_cons
    exact ⟨first, _, rfl, fun h => hfirst (by rw [h]; rfl)⟩

end Stmt.Derives

/-- A run of statements is read up to the end marker. -/
theorem Stmt.DerivesAll.parse {statements : List Stmt} {last : Token}
    (h : Stmt.DerivesAll tokens statements) (previous : Token) (taken : Nat)
    (hlast : last.kind = .endOfInput)
    (hdepth : ∀ statement ∈ statements, statement.Shallow)
    (hroom : constants.length + (statements.flatMap Stmt.constants).length ≤ poolCapacity)
    {count : Nat} (hcount : tokens.length < count) :
    ∃ taken', (quiet previous (tokens ++ [last]) constants taken).statements count =
      (statements,
        quiet last [last] (constants ++ statements.flatMap Stmt.constants) taken') := by
  induction h generalizing previous constants taken count with
  | nil =>
    obtain ⟨count, rfl⟩ : ∃ n, count = n + 1 := ⟨count - 1, by simp at hcount; omega⟩
    refine ⟨taken + 1, ?_⟩
    rw [List.nil_append, statements_end rfl (by exact hlast), take_quiet_last, List.flatMap_nil,
      List.append_nil]
  | @cons tokens more statement statements hhead htail ih =>
    simp only [List.flatMap_cons, List.length_append] at hroom hcount
    obtain ⟨first, others, htokens, hfirst⟩ := hhead.exists_cons
    obtain ⟨count, rfl⟩ : ∃ n, count = n + 1 := ⟨count - 1, by omega⟩
    obtain ⟨next, rest, hrest⟩ : ∃ next rest, more ++ [last] = next :: rest :=
      List.exists_cons_of_ne_nil (by simp)
    have hfirstRoom : constants.length + statement.constants.length ≤ poolCapacity := by omega
    obtain ⟨previous', taken', hread⟩ :=
      hhead.parse previous next rest taken (hdepth _ (.head _)) hfirstRoom
    have hmoreRoom : (constants ++ statement.constants).length +
        (statements.flatMap Stmt.constants).length ≤ poolCapacity := by
      simp only [List.length_append]
      omega
    have hlength := congrArg List.length htokens
    simp only [List.length_cons] at hlength
    have hmoreCount : more.length < count := by omega
    obtain ⟨taken'', hmore⟩ :=
      ih previous' taken' (fun s hs => hdepth s (.tail _ hs)) hmoreRoom hmoreCount
    refine ⟨taken'', ?_⟩
    have hgo : (quiet previous (tokens ++ more ++ [last]) constants taken).current.kind ≠
        .endOfInput := by
      simp only [htokens, List.cons_append, current_quiet]
      exact hfirst
    rw [← hrest, ← List.append_assoc] at hread
    rw [statements_of_ne rfl hgo, hread]
    simp only [hmore, Option.toList, List.flatMap_cons, List.append_assoc]
    rfl

/-! ## what is read, the grammar derives -/

namespace Parser

/-- The result of a call that looked at `ahead` for a statement: a complaint,
or a statement within the limits. -/
inductive StatementReading (ahead : List Token) (constants : List Constant) :
    Option Stmt × Parser → Prop where
  | complaint {result : Option Stmt × Parser} (h : result.2.diagnostics ≠ []) :
      StatementReading ahead constants result
  | statement {statement : Stmt} {tokens rest : List Token} {next previous : Token} {taken : Nat}
      (hderives : statement.Derives tokens) (hahead : ahead = tokens ++ next :: rest)
      (hdepth : statement.Shallow)
      (hroom : constants.length + statement.constants.length ≤ poolCapacity) :
      StatementReading ahead constants
        (some statement, quiet previous (next :: rest) (constants ++ statement.constants) taken)

/-- A semicolon is taken, or there is a complaint. -/
theorem expect_semicolon_or (hended : Ended (next :: rest)) (previous : Token)
    (constants : List Constant) (taken : Nat) (error : SyntaxError) :
    ((quiet previous (next :: rest) constants taken).expect .semicolon error).2.diagnostics ≠ [] ∨
      ∃ first more, next.kind = .semicolon ∧ rest = first :: more ∧
        (quiet previous (next :: rest) constants taken).expect .semicolon error =
          (some next, quiet next (first :: more) constants (taken + 1)) := by
  by_cases hkind : next.kind = .semicolon
  · obtain ⟨first, more, rfl⟩ := hended.exists_cons_of_ne (by rw [hkind]; decide)
    exact .inr ⟨first, more, hkind, rfl, expect_quiet hkind error⟩
  · exact .inl (expect_quiet_ne_nil hkind error)

/-- What an expression and the semicolon after it come to. -/
theorem expression_expect_or (hended : Ended ahead) (hroom : constants.length ≤ poolCapacity)
    (previous : Token) (taken : Nat) (error : SyntaxError) :
    let read := (quiet previous ahead constants taken).expression
    (read.2.expect .semicolon error).2.diagnostics ≠ [] ∨
      ∃ e tokens semicolon next rest taken', ahead = tokens ++ semicolon :: next :: rest ∧
        Level.expression.Derives tokens e ∧ semicolon.kind = .semicolon ∧
        e.nesting ≤ nestingLimit ∧ constants.length + e.constants.length ≤ poolCapacity ∧
        read.1 = some e ∧ read.2.expect .semicolon error =
          (some semicolon, quiet semicolon (next :: rest) (constants ++ e.constants) taken') := by
  have hread := reads nestingLimit .expression previous ahead constants taken (by decide) hended
    hroom
  change Reading _ _ _ _ _ (quiet previous ahead constants taken).expression at hread
  generalize (quiet previous ahead constants taken).expression = result at hread
  cases hread with
  | complaint h => exact .inl ((Leads.expect _ _ _).complains h)
  | @phrase e tokens after semicolon previous' taken' hderives hahead hdepth hroom hfollow =>
    rw [hahead] at hended
    rcases expect_semicolon_or hended.suffix previous' (constants ++ e.constants) taken' error with
      hnone | ⟨next, rest, hkind, rfl, hsome⟩
    · exact .inl hnone
    · exact .inr ⟨e, tokens, semicolon, next, rest, taken' + 1, hahead, hderives, hkind, hdepth,
        hroom, rfl, hsome⟩

theorem reading_printing {intro : Token} (hintro : intro.kind = .keyword .printWord)
    (hended : Ended (next :: rest)) (hroom : constants.length ≤ poolCapacity) :
    StatementReading (intro :: next :: rest) constants
      (quiet intro (next :: rest) constants taken).printing := by
  rcases expression_expect_or hended hroom intro taken (.semicolonExpected .value) with
    hnone | ⟨e, tokens, semicolon, next', rest', taken', hahead, hderives, hkind, hdepth, hentries,
      hread, hsome⟩
  · exact .complaint hnone
  · have hstatement : (quiet intro (next :: rest) constants taken).printing =
        (some (.print e semicolon.line),
          quiet semicolon (next' :: rest') (constants ++ e.constants) taken') := by
      simp only [printing, hread, hsome]
      rfl
    rw [hstatement]
    exact .statement (.print hintro hderives hkind) (by simp [hahead])
      (fun _ he => Option.some.inj he ▸ hdepth) hentries

theorem reading_evaluation (hended : Ended ahead) (hroom : constants.length ≤ poolCapacity) :
    StatementReading ahead constants (quiet previous ahead constants taken).evaluation := by
  rcases expression_expect_or hended hroom previous taken (.semicolonExpected .expression) with
    hnone | ⟨e, tokens, semicolon, next', rest', taken', hahead, hderives, hkind, hdepth, hentries,
      hread, hsome⟩
  · exact .complaint hnone
  · have hstatement : (quiet previous ahead constants taken).evaluation =
        (some (.expression e semicolon.line),
          quiet semicolon (next' :: rest') (constants ++ e.constants) taken') := by
      simp only [evaluation, hread, hsome]
      rfl
    rw [hstatement]
    exact .statement (.expression hderives hkind) (by simp [hahead])
      (fun _ he => Option.some.inj he ▸ hdepth) hentries

theorem reading_declaration {intro : Token} (hintro : intro.kind = .keyword .varWord)
    (hended : Ended (next :: rest)) :
    StatementReading (intro :: next :: rest) constants
      (quiet intro (next :: rest) constants taken).declaration := by
  by_cases hname : next.kind = .identifier
  case neg =>
    exact .complaint ((Leads.declaration_expect _).complains (expect_quiet_ne_nil hname _))
  obtain ⟨sign, rest, rfl⟩ := hended.exists_cons_of_ne (by rw [hname]; decide)
  by_cases hlt : constants.length < poolCapacity
  case neg =>
    apply StatementReading.complaint
    apply (Leads.declaration_request _).complains
    rw [expect_quiet hname]
    exact request_quiet_ne_nil hlt _
  have hentry : constants.length + 1 ≤ poolCapacity := hlt
  by_cases hsign : sign.kind = .equal
  · obtain ⟨first, more, rfl⟩ := hended.tail.exists_cons_of_ne (by rw [hsign]; decide)
    have hinner : (constants ++ [Constant.text next.lexeme]).length ≤ poolCapacity := by
      rw [List.length_append]
      exact hlt
    rcases expression_expect_or hended.tail.tail hinner sign (taken + 1 + 1)
      (.semicolonExpected .variableDeclaration) with
      hnone | ⟨e, tokens, semicolon, next', rest', taken', hahead, hderives, hkind, hdepth,
        hentries, hread, hsome⟩
    · apply StatementReading.complaint
      simp only [declaration, expect_quiet hname, previous_quiet, request_quiet hlt]
      rw [if_pos (by exact hsign)]
      exact hnone
    · simp only [List.length_append, List.length_singleton] at hentries
      rw [hahead]
      have hroom : constants.length + (1 + e.constants.length) ≤ poolCapacity := by omega
      obtain ⟨taken', hstatement⟩ :=
        declaration_define intro next' rest' taken hname hsign hderives hkind hdepth hroom
      rw [hstatement]
      exact .statement (.define hintro hname hsign hderives hkind) (by simp)
        (fun _ he => Option.some.inj he ▸ hdepth)
        (by simp only [Stmt.constants, List.length_cons]; omega)
  · by_cases hkind : sign.kind = .semicolon
    · obtain ⟨first, more, rfl⟩ := hended.tail.exists_cons_of_ne (by rw [hkind]; decide)
      rw [declaration_declare hname hkind hlt]
      exact .statement (.declare hintro hname hkind) rfl (fun _ he => by cases he) hentry
    · apply StatementReading.complaint
      simp only [declaration, expect_quiet hname, previous_quiet, request_quiet hlt]
      rw [if_neg (by exact hsign)]
      exact expect_quiet_ne_nil hkind _

theorem reading_unrecovered (hended : Ended (token :: rest)) (hgo : token.kind ≠ .endOfInput)
    (hroom : constants.length ≤ poolCapacity) (previous : Token) (taken : Nat) :
    StatementReading (token :: rest) constants
      (quiet previous (token :: rest) constants taken).unrecovered := by
  obtain ⟨next, rest, rfl⟩ := hended.exists_cons_of_ne hgo
  by_cases hvar : token.kind = .keyword .varWord
  · rw [unrecovered_var (by exact hvar), take_quiet]
    exact reading_declaration hvar hended.tail
  · by_cases hprint : token.kind = .keyword .printWord
    · rw [unrecovered_print (by exact hprint), take_quiet]
      exact reading_printing hprint hended.tail hroom
    · rw [unrecovered_of_ne (by exact hvar) (by exact hprint)]
      exact reading_evaluation hended hroom

theorem reading_statement (hended : Ended (token :: rest)) (hgo : token.kind ≠ .endOfInput)
    (hroom : constants.length ≤ poolCapacity) (previous : Token) (taken : Nat) :
    StatementReading (token :: rest) constants
      (quiet previous (token :: rest) constants taken).statement := by
  have hread := reading_unrecovered hended hgo hroom previous taken
  have hleads := Leads.statement_unrecovered (quiet previous (token :: rest) constants taken)
  generalize hresult : (quiet previous (token :: rest) constants taken).unrecovered = result
    at hread hleads
  cases hread with
  | complaint h => exact .complaint (hleads.complains h)
  | statement hderives hahead hdepth hroom =>
    rw [statement_of_unrecovered hresult rfl]
    exact .statement hderives hahead hdepth hroom

/-- A run of statements that leaves no diagnostic has read what the grammar
derives, up to an end marker. -/
theorem derivesAll_statements (count : Nat) (hended : Ended ahead)
    (hroom : constants.length ≤ poolCapacity) (hcount : ahead.length ≤ count)
    (hquiet : ((quiet previous ahead constants taken).statements count).2.diagnostics = []) :
    ∃ body last rest previous' taken', ahead = body ++ last :: rest ∧ last.kind = .endOfInput ∧
      let result := (quiet previous ahead constants taken).statements count
      Stmt.DerivesAll body result.1 ∧ (∀ statement ∈ result.1, statement.Shallow) ∧
        constants.length + (result.1.flatMap Stmt.constants).length ≤ poolCapacity ∧
        result.2 = (quiet previous' (last :: rest)
          (constants ++ result.1.flatMap Stmt.constants) taken').take := by
  induction count generalizing previous ahead constants taken with
  | zero =>
    obtain ⟨token, rest, rfl⟩ := hended.exists_cons
    simp at hcount
  | succ count ih =>
    obtain ⟨token, rest, rfl⟩ := hended.exists_cons
    by_cases hend : token.kind = .endOfInput
    · rw [statements_end rfl (by exact hend)]
      exact ⟨[], token, rest, previous, taken, rfl, hend, .nil, by simp, by simpa using hroom,
        by simp⟩
    · rw [statements_of_ne rfl (by exact hend)] at hquiet ⊢
      have hread := reading_statement hended hend hroom previous taken
      generalize (quiet previous (token :: rest) constants taken).statement = result
        at hread hquiet ⊢
      cases hread with
      | complaint h => exact absurd hquiet ((Leads.statements count _).complains h)
      | @statement parsed tokens more next previous' taken' hderives hahead hdepth hentries =>
        have hlength := congrArg List.length hahead
        obtain ⟨first, others, rfl, -⟩ := hderives.exists_cons
        simp only [List.length_append, List.length_cons] at hlength hcount
        obtain ⟨body, last, rest', previous'', taken'', hmore, hlast, hall, hshallow, htotal,
          hresult⟩ := ih (hahead ▸ hended).suffix (by rw [List.length_append]; exact hentries)
            (by simp only [List.length_cons]; omega) hquiet
        have hwhole : token :: rest = (first :: others ++ body) ++ last :: rest' := by
          rw [hahead, hmore, List.append_assoc]
        refine ⟨first :: others ++ body, last, rest', previous'', taken'', hwhole, hlast,
          .cons hderives hall, ?_, ?_, ?_⟩
        · intro statement hmem
          rcases List.mem_cons.1 hmem with rfl | hlater
          · exact hdepth
          · exact hshallow statement hlater
        · simp only [List.length_append, Option.toList, List.cons_append, List.nil_append,
            List.flatMap_cons] at htotal ⊢
          omega
        · simp only [hresult, Option.toList, List.cons_append, List.nil_append,
            List.flatMap_cons, List.append_assoc]

end Parser

end Lox
