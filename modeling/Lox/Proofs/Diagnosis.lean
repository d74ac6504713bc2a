import Lox.Proofs.Acceptance
import Lox.Proofs.Parser.Tracking

/-!
# Lox.Proofs.Diagnosis

Where the first diagnostic points.

Up to the first diagnostic a program is read one token at a time, each where it
may stand.  So unless that diagnostic is about a limit, it is at the first
token with which no program goes on: what stands before the token begins a
program, and together with the token it begins none
(`first_diagnostic_at_offender`).
-/

namespace Lox

open Awaiting

namespace Parser

variable {p q r : Parser} {state next : Awaiting} {tokens : List Token}

/-- How reading up to the end of a statement goes for a calm parser that stands
where `state` is awaited. -/
inductive Heard (state : Awaiting) (p r : Parser) : Prop where
  | statement {tokens : List Token} (hahead : p.ahead = tokens ++ r.ahead)
      (hrun : state.run tokens = some .statement) (hcalm : r.Calm)
  | limit (h : r.Limited)
  | blame {tokens rest : List Token} {stop : Token} {last : Awaiting}
      (hahead : p.ahead = tokens ++ stop :: rest) (hrun : state.run tokens = some last)
      (hnone : last.step stop.kind = none) (h : r.Blames stop)

/-! ## statements -/

namespace Heard

theorem cons (hpending : p.pending ≠ []) (hstep : state.step p.current.kind = some next)
    (h : Heard next p.take r) : Heard state p r := by
  have hahead' {tokens rest : List Token} (h : p.take.ahead = tokens ++ rest) :
      p.ahead = (p.current :: tokens) ++ rest := by
    rw [ahead_take hpending, h, List.cons_append]
  have hrun' {tokens : List Token} {last : Awaiting} (h : next.run tokens = some last) :
      state.run (p.current :: tokens) = some last := by
    rw [run_cons, hstep, Option.bind_some, h]
  cases h with
  | statement hahead hrun hcalm => exact .statement (hahead' hahead) (hrun' hrun) hcalm
  | limit h => exact .limit h
  | blame hahead hrun hnone h => exact .blame (hahead' hahead) (hrun' hrun) hnone h

/-- A calm parser that may not go on with its current token complains about
it. -/
theorem blames (hp : p.Calm) (hnone : state.step p.current.kind = none) (error : SyntaxError) :
    Heard state p (p.recordAt p.current error) :=
  .blame (List.nil_append p.ahead).symm rfl hnone (hp.blames _ _)

theorem mono (h : Heard state p q) (hleads : Leads q r) (hcalm : q.Calm → r = q) :
    Heard state p r := by
  cases h with
  | statement hahead hrun hq =>
    obtain rfl := hcalm hq
    exact .statement hahead hrun hq
  | limit h => exact .limit (h.mono hleads)
  | blame hahead hrun hnone h => exact .blame hahead hrun hnone (h.mono hleads)

/-- Where a semicolon ends a statement, one is expected. -/
theorem expect (hp : p.Calm) (hsealed : Sealed p.ahead)
    (hstep : p.current.kind = .semicolon → state.step p.current.kind = some .statement)
    (hnone : p.current.kind ≠ .semicolon → state.step p.current.kind = none)
    (error : SyntaxError) : Heard state p (p.expect .semicolon error).2 := by
  by_cases hkind : p.current.kind = .semicolon
  · rw [expect_of_eq hkind]
    have hpending := pending_ne_nil hsealed.ended (by rw [hkind]; decide)
    exact .cons hpending (hstep hkind) (.statement (List.nil_append _).symm rfl hp.take)
  · rw [expect_of_ne hkind]
    exact .blames hp (hnone hkind) error

/-- The end of a statement whose last part is an expression. -/
theorem expression (hp : p.Calm) (hsealed : Sealed p.ahead) (error : SyntaxError) :
    Heard (.operand true 0) p (p.expression.2.expect .semicolon error).2 := by
  have hleads := Leads.expect p.expression.2 .semicolon error
  have htracked := tracks nestingLimit .assignment p hsealed
  rw [show decide (Precedence.assignment ≤ .assignment) = true by decide] at htracked
  change Tracked _ _ _ _ p.expression.2 at htracked
  cases htracked with
  | @reads tokens named hahead hprevious hrun hnext hcalm =>
    rcases hcalm hp with hq | hq
    case inr => exact .limit (hq.mono hleads)
    have hend : Heard (operator named 0) p.expression.2
        (p.expression.2.expect .semicolon error).2 := by
      refine .expect hq ((hahead ▸ hsealed).suffix (by simp [ahead])) (fun h => ?_)
        (fun h => ?_) error
      · rw [h, step_semicolon]
      · refine Option.eq_none_iff_forall_ne_some.2 fun state hstate => ?_
        rcases step_operator_cases hstate with ⟨hop, -⟩ | ⟨hequal, hnamed, -⟩ | ⟨-, _, hdepth, -⟩ |
          ⟨hsemicolon, -⟩
        · obtain ⟨op, hop⟩ := Option.isSome_iff_exists.1 hop
          exact hnext.loose op hop (by cases op <;> decide)
        · exact hnext.unsigned hnamed hequal
        · cases hdepth
        · exact h hsemicolon
    cases hend with
    | statement hmore hrest hr =>
      exact .statement (by rw [hahead, hmore, List.append_assoc])
        (by rw [run_append_of_run (hrun 0), hrest]) hr
    | limit h => exact .limit h
    | blame hmore hrest hnone h =>
      exact .blame (by rw [hahead, hmore, List.append_assoc])
        (by rw [run_append_of_run (hrun 0), hrest]) hnone h
  | stops hahead hstuck hcalm =>
    obtain ⟨last, hrun, hnone⟩ := hstuck 0
    rcases hcalm hp with hlimit | hblame
    · exact .limit (hlimit.mono hleads)
    · exact .blame hahead hrun hnone (hblame.mono hleads)
  | deep hahead hrun hlong hcalm => exact .limit ((hcalm hp).mono hleads)

theorem declaration (hp : p.Calm) (hsealed : Sealed p.ahead) : Heard .name p p.declaration.2 := by
  have hleads := Leads.declaration_request p
  by_cases hname : p.current.kind = .identifier
  · have hpending := pending_ne_nil hsealed.ended (by rw [hname]; decide)
    refine .cons hpending (by rw [hname]; rfl) ?_
    have hahead := ahead_request p.take (.text p.current.lexeme)
    have hintroduced := introduced_of_name hname
    rcases hp.take.request (.text p.current.lexeme) with hasked | hlimit
    case inr => exact .limit (hlimit.mono (hintroduced ▸ hleads))
    rw [← hintroduced] at hasked hahead
    have hsealed' : Sealed p.introduced.ahead := by rw [hahead]; exact sealed_take hsealed
    have hrest : Heard .initializer p.introduced p.declaration.2 := by
      by_cases hsign : p.introduced.current.kind = .equal
      · rw [declaration_of_equal hsign]
        exact .cons (pending_ne_nil hsealed'.ended (by rw [hsign]; decide)) (by rw [hsign]; rfl)
          (.expression hasked.take (sealed_take hsealed') _)
      · rw [declaration_of_ne hsign]
        exact .expect hasked hsealed' (fun h => by rw [h]; rfl)
          (fun h => by simp [step, hsign, h]) _
    cases hrest with
    | statement hmore hrun hr => exact .statement (hahead ▸ hmore) hrun hr
    | limit h => exact .limit h
    | blame hmore hrun hnone h => exact .blame (hahead ▸ hmore) hrun hnone h
  · have hblames : Heard .name p (p.recordAt p.current .variableNameExpected) :=
      .blames hp (by simp [step, hname]) _
    refine hblames.mono ?_ fun hcalm => absurd hcalm.diagnostics ?_
    · have hexpect := Leads.declaration_expect p
      rwa [expect_of_ne hname] at hexpect
    · exact diagnostics_record_ne_nil hp.panicking _ _ _

theorem unrecovered (hp : p.Calm) (hsealed : Sealed p.ahead)
    (hgo : p.current.kind ≠ .endOfInput) : Heard .statement p p.unrecovered.2 := by
  have hpending := pending_ne_nil hsealed.ended hgo
  by_cases hvar : p.current.kind = .keyword .varWord
  · rw [unrecovered_var hvar]
    exact .cons hpending (by rw [hvar]; rfl) (.declaration hp.take (sealed_take hsealed))
  by_cases hprint : p.current.kind = .keyword .printWord
  · rw [unrecovered_print hprint]
    exact .cons hpending (by rw [hprint]; rfl) (.expression hp.take (sealed_take hsealed) _)
  rw [unrecovered_of_ne hvar hprint]
  -- any other statement begins as an expression does
  have hstep : Awaiting.statement.step p.current.kind =
      (Awaiting.operand true 0).step p.current.kind := by
    simp [step, hgo, hvar, hprint]
  have hrun {first : Token} {tokens rest : List Token} {last : Awaiting}
      (hahead : p.ahead = first :: tokens ++ rest)
      (h : (Awaiting.operand true 0).run (first :: tokens) = some last) :
      Awaiting.statement.run (first :: tokens) = some last := by
    obtain rfl : p.current = first := (List.cons.inj hahead).1
    rw [run_cons, hstep, ← run_cons, h]
  have hexpression := Heard.expression hp hsealed (.semicolonExpected .expression)
  change Heard _ _ p.evaluation.2 at hexpression
  cases hexpression with
  | @statement tokens hahead hrest hr =>
    cases tokens with
    | nil => cases hrest
    | cons first tokens => exact .statement hahead (hrun hahead hrest) hr
  | limit h => exact .limit h
  | @blame tokens rest stop last hahead hrest hnone h =>
    cases tokens with
    | nil =>
      obtain rfl : p.current = stop := (List.cons.inj hahead).1
      obtain rfl := Option.some.inj hrest
      exact .blame hahead rfl (hstep ▸ hnone) h
    | cons first tokens => exact .blame hahead (hrun hahead hrest) hnone h

theorem statement' (hp : p.Calm) (hsealed : Sealed p.ahead)
    (hgo : p.current.kind ≠ .endOfInput) : Heard .statement p p.statement.2 := by
  refine (Heard.unrecovered hp hsealed hgo).mono (Leads.statement_unrecovered p) fun hcalm => ?_
  simp [Parser.statement, hcalm.panicking]

end Heard

/-! ## programs -/

/-- Of consecutive statements either nothing is said, or something about a
limit first, or something at a token that may not stand where it stands. -/
theorem heard_statements (hp : p.Calm) (hsealed : Sealed p.ahead) {count : Nat}
    (hcount : p.pending.length < count) :
    (p.statements count).2.diagnostics = [] ∨ (p.statements count).2.Limited ∨
      ∃ tokens stop rest last, p.ahead = tokens ++ stop :: rest ∧
        Awaiting.statement.run tokens = some last ∧ last.step stop.kind = none ∧
        (p.statements count).2.Blames stop := by
  induction count generalizing p with
  | zero => omega
  | succ count ih =>
    by_cases hoverflowed : p.overflowed = true
    · exact .inl (by rw [statements, if_pos hoverflowed]; exact hp.diagnostics)
    replace hoverflowed : p.overflowed = false := by simpa using hoverflowed
    by_cases hend : p.current.kind = .endOfInput
    · exact .inl (by rw [statements_end hoverflowed hend]; exact hp.take.diagnostics)
    rw [statements_of_ne hoverflowed hend]
    have hleads := Leads.statements count p.statement.2
    have hless := length_pending_statement hsealed.ended hend
    cases Heard.statement' hp hsealed hend with
    | @statement tokens hahead hrun hcalm =>
      have hsealed' : Sealed p.statement.2.ahead := (hahead ▸ hsealed).suffix (by simp [ahead])
      refine (ih hcalm hsealed' (by omega)).imp_right (Or.imp_right ?_)
      rintro ⟨more, stop, rest, last, hmore, hlast, hnone, hblames⟩
      exact ⟨tokens ++ more, stop, rest, last, by rw [hahead, hmore, List.append_assoc],
        by rw [run_append_of_run hrun, hlast], hnone, hblames⟩
    | limit h => exact .inr (.inl (h.mono hleads))
    | blame hahead hrun hnone h =>
      exact .inr (.inr ⟨_, _, _, _, hahead, hrun, hnone, h.mono hleads⟩)

theorem calm_start {source : Text} {tokens : List Token} (h : scan source = tokens.map .token) :
    (start source).Calm := by
  rw [start_of_scan h]
  refine ⟨rfl, rfl, fun lexed hlexed => ?_⟩
  obtain ⟨token, -, rfl⟩ := List.mem_map.1 hlexed
  rfl

end Parser

variable {source : Text} {heap : Heap} {diagnostics : List Diagnostic}

theorem Parser.program_snd (source : Text) :
    (Parser.program source).2 =
      ((Parser.start source).statements ((Parser.start source).pending.length + 1)).2 := rfl

/-- A source is accepted if nothing was recorded, otherwise rejected with all
that was. -/
theorem Parsed.compile_result {α : Type} {read : Option α × Parser}
    (h : read.2.diagnostics = [] → ∃ tree, read.1 = some tree) (code : α → List Instruction)
    (heap : Heap) :
    match ((Parsed.ofParser read).compile code heap).1 with
    | .ok _ => read.2.diagnostics = []
    | .error diagnostics => diagnostics ≠ [] ∧ read.2.diagnostics = diagnostics := by
  obtain ⟨tree, p⟩ := read
  cases hrecorded : p.diagnostics with
  | nil =>
    obtain ⟨tree, rfl⟩ := h hrecorded
    simp [ofParser, hrecorded, compile, Except.map]
  | cons first rest => simp [ofParser, hrecorded, compile, Except.map]

theorem Program.compile_result (source : Text) (heap : Heap) :
    match (Program.compile source heap).1 with
    | .ok _ => (Parser.program source).2.diagnostics = []
    | .error diagnostics =>
      diagnostics ≠ [] ∧ (Parser.program source).2.diagnostics = diagnostics :=
  Parsed.compile_result (fun _ => ⟨_, rfl⟩) Program.code heap

theorem Query.compile_result (source : Text) (heap : Heap) :
    match (Query.compile source heap).1 with
    | .ok _ => (Parser.query source).2.diagnostics = []
    | .error diagnostics =>
      diagnostics ≠ [] ∧ (Parser.query source).2.diagnostics = diagnostics := by
  refine Parsed.compile_result (fun hquiet => ?_) Query.code heap
  obtain ⟨_, query, -, hquery, -⟩ := Query.derives_of_quiet hquiet
  exact ⟨query, hquery⟩

theorem Program.compile_eq_error_iff :
    (Program.compile source heap).1 = .error diagnostics ↔
      diagnostics ≠ [] ∧ (Parser.program source).2.diagnostics = diagnostics := by
  have hresult := Program.compile_result source heap
  cases hcompile : (Program.compile source heap).1 with
  | ok chunk =>
    rw [hcompile] at hresult
    simp only [reduceCtorEq, hresult, false_iff, not_and]
    exact fun hne heq => hne heq.symm
  | error recorded =>
    rw [hcompile] at hresult
    simp only [Except.error.injEq, hresult.2]
    exact ⟨fun heq => ⟨heq ▸ hresult.1, heq⟩, fun h => h.2⟩

theorem Program.compile_eq_ok_iff :
    (∃ chunk, (Program.compile source heap).1 = .ok chunk) ↔
      (Parser.program source).2.diagnostics = [] := by
  have hresult := Program.compile_result source heap
  cases hcompile : (Program.compile source heap).1 with
  | ok chunk =>
    rw [hcompile] at hresult
    simpa using hresult
  | error recorded =>
    rw [hcompile] at hresult
    simp [hresult.1, hresult.2]

/-- The first diagnostic of a source without lexical faults, unless it is about
a limit, is at the first token with which no program goes on: the tokens before
it begin a program, and the tokens up to it begin none.  It has the line of that
token, and as its place the lexeme, or the end if the token is the end marker. -/
theorem first_diagnostic_at_offender {tokens : List Token}
    (hscan : scan source = tokens.map .token)
    (hrejected : (Program.compile source heap).1 = .error diagnostics) :
    ∃ first rest, diagnostics = first :: rest ∧
      (first.error ≠ .nestedTooDeeply → first.error ≠ .tooManyConstants →
        ∃ before stop after, tokens = before ++ stop :: after ∧
          first.line = stop.line ∧
          (stop.kind = .endOfInput → first.place = .atEnd) ∧
          (stop.kind ≠ .endOfInput → first.place = .atLexeme stop.lexeme) ∧
          (∃ more program, Program.Derives (before ++ more) program) ∧
          ¬ ∃ more program, Program.Derives (before ++ stop :: more) program) := by
  obtain ⟨hne, hrecorded⟩ := Program.compile_eq_error_iff.1 hrejected
  obtain ⟨first, rest, rfl⟩ := List.exists_cons_of_ne_nil hne
  refine ⟨first, rest, rfl, fun hdepth hpool => ?_⟩
  rw [Parser.program_snd] at hrecorded
  rcases Parser.heard_statements (Parser.calm_start hscan) (Parser.sealed_start source)
    (Nat.lt_succ_self _) with hnone | hlimit | ⟨before, stop, after, last, hahead, hrun, hstuck,
      hblames⟩
  · rw [hrecorded] at hnone
    cases hnone
  · obtain ⟨_, _, hfirst, herror⟩ := hlimit
    obtain ⟨rfl, -⟩ := List.cons.inj (hrecorded.symm.trans hfirst)
    exact absurd herror (not_or.2 ⟨hdepth, hpool⟩)
  · obtain ⟨_, _, hfirst, hline, hplace⟩ := hblames
    obtain ⟨rfl, -⟩ := List.cons.inj (hrecorded.symm.trans hfirst)
    have htokens : (lex source).map Lexed.token = tokens := by
      rw [lex_of_scan hscan, List.map_map]
      exact List.map_id tokens
    rw [Parser.ahead_start, htokens] at hahead
    refine ⟨before, stop, after, hahead, hline, fun hend => hplace.trans (if_pos hend),
      fun hne => hplace.trans (if_neg hne), viable_iff.2 ⟨last, hrun⟩, ?_⟩
    rintro ⟨more, program, hprogram⟩
    have hviable : ∃ more program, Program.Derives ((before ++ [stop]) ++ more) program :=
      ⟨more, program, by simpa using hprogram⟩
    obtain ⟨state, hstate⟩ := viable_iff.1 hviable
    rw [run_append_of_run hrun, run_cons, hstuck] at hstate
    cases hstate

/-- A semicolon stands where `print` awaits an expression. -/
theorem first_diagnostic_at_semicolon :
    let print : Token := ⟨.keyword .printWord, text "print", 1⟩
    let semicolon : Token := ⟨.semicolon, text ";", 1⟩
    let last : Token := ⟨.endOfInput, [], 1⟩
    scan (text "print ;") = [print, semicolon, last].map .token ∧
      ∃ first rest, (Program.compile (text "print ;") .empty).1 = .error (first :: rest) ∧
        first.line = 1 ∧ first.place = .atLexeme (text ";") ∧
        (∃ more program, Program.Derives ([print] ++ more) program) ∧
        ¬ ∃ more program, Program.Derives ([print] ++ semicolon :: more) program := by
  intro print semicolon last
  have htake : (Cursor.start (text "print ;")).take 3 =
      [.token print, .token semicolon] ++ [.token last] := by decide
  have hscan : scan (text "print ;") = [print, semicolon, last].map .token :=
    Cursor.run_of_take htake rfl (by decide)
  have hrejected : (Program.compile (text "print ;") .empty).1 =
      .error [⟨.expressionExpected, 1, .atLexeme (text ";")⟩] := by
    refine Program.compile_eq_error_iff.2 ⟨by decide, ?_⟩
    rw [Parser.program, Parser.start_of_scan hscan]
    decide
  obtain ⟨first, rest, hfirst, hoffender⟩ := first_diagnostic_at_offender hscan hrejected
  obtain ⟨rfl, rfl⟩ := List.cons.inj hfirst
  obtain ⟨before, stop, after, htokens, hline, hend, hlexeme, hbegins, hstuck⟩ :=
    hoffender (by decide) (by decide)
  -- neither `print` nor the end marker has the place of the diagnostic
  rcases before with _ | ⟨_, _ | ⟨_, _ | ⟨_, more⟩⟩⟩
  · cases htokens
    cases hlexeme (by decide)
  · cases htokens
    exact ⟨hscan, _, _, hrejected, hline, hlexeme (by decide), hbegins, hstuck⟩
  · cases htokens
    cases hend rfl
  · simp at htokens

end Lox
