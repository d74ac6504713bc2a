import Lox.Proofs.Diagnosis
import Lox.Proofs.Parser.Below
import Lox.Proofs.Parser.Crossing
import Lox.Proofs.Sequence

/-!
# Lox.Proofs.Recovery

What is said about two sources that a line separator joins.

The first source ends with a semicolon.  What is wrong in it does not touch the
second one: if that is accepted, nothing is said about it
(`Program.compile_join_accepted`).  What is wrong in the second source is said
after all that is said about the first, as if the second one stood alone
(`Program.compile_join_rejected`), unless it begins with a minus sign and the
first one leaves an expression unfinished: then the minus sign is taken for an
operator of that expression.
-/

namespace Lox

open Awaiting Lox.Parser

variable {source first second : Text} {tokens rest : List Token} {next token : Token}
  {lines : Nat} {heap : Heap}

/-! ## beginnings of declarations -/

/-- Can a token of this kind begin a declaration? -/
def TokenKind.beginsDeclaration (kind : TokenKind) : Bool :=
  kind = .keyword .varWord || kind = .keyword .printWord || kind.prefixForm?.isSome

theorem TokenKind.step_of_beginsDeclaration {kind : TokenKind}
    (h : kind.beginsDeclaration = true) : (Awaiting.statement.step kind).isSome = true := by
  cases kind with
  | keyword word => cases word <;> first | rfl | exact absurd h (by decide)
  | _ => first | rfl | exact absurd h (by decide)

/-! ## tokens of joined sources -/

/-- A token that follows faults and tokens carries the last of the faults, and
what is before it does not depend on it. -/
theorem Lexed.ofOutcomes_append (faults : List LexicalFault) (init : List Outcome) :
    ∃ before last, ∀ token more,
      ofOutcomes faults (init ++ .token token :: more) =
        before ++ ⟨last, token⟩ :: ofOutcomes [] more := by
  induction init generalizing faults with
  | nil => exact ⟨[], faults, fun _ _ => rfl⟩
  | cons outcome init ih =>
    cases outcome with
    | fault fault => exact ih (faults ++ [fault])
    | token found =>
      obtain ⟨before, last, h⟩ := ih []
      exact ⟨⟨faults, found⟩ :: before, last, fun token more => by
        simp only [List.cons_append, ofOutcomes, h]⟩

theorem Awaiting.run_moved (lines : Nat) (state : Awaiting) (tokens : List Token) :
    state.run (tokens.map (Token.moved lines)) = state.run tokens := by
  induction tokens generalizing state with
  | nil => rfl
  | cons token tokens ih =>
    simp only [List.map_cons, run_cons, ih]
    rfl

theorem Sealed.moved (h : Sealed tokens) (lines : Nat) :
    Sealed (tokens.map (Token.moved lines)) := by
  obtain ⟨init, last, rfl, hlast, hothers⟩ := h
  refine ⟨init.map (Token.moved lines), last.moved lines, by simp, hlast, fun token htoken => ?_⟩
  obtain ⟨original, horiginal, rfl⟩ := List.mem_map.1 htoken
  exact hothers original horiginal

/-- Tokens that follow, some lines further down. -/
def Parser.Sequel.moved (s : Sequel) (lines : Nat) : Sequel where
  next := s.next.moved lines
  rest := s.rest.map (Token.moved lines)
  whole := s.whole.map (Token.moved lines)
  stop := s.stop.moved lines
  after := s.after.map (Token.moved lines)
  split := by simpa using congrArg (List.map (Token.moved lines)) s.split
  closed := s.closed.moved lines
  continues := fun depth => by
    rw [run_moved]
    exact s.continues depth
  isInner := fun token htoken => by
    obtain ⟨original, horiginal, rfl⟩ := List.mem_map.1 htoken
    exact s.isInner original horiginal
  stop_loose := s.stop_loose
  stop_ne_paren := s.stop_ne_paren
  stop_ne_equal := s.stop_ne_equal
  stop_semicolon := s.stop_semicolon.trans (by simp)

/-- The outcomes of a source without faults follow on those of another
source. -/
theorem exists_seam (s : Sequel) (hopen : ∀ outcome ∈ scan first, outcome.isOpenString = false)
    (hsecond : scan second = (s.next :: s.rest).map .token) :
    ∃ (seam : Seam) (before : List Lexed), seam.toSequel = s.moved (Text.newlines first + 1) ∧
      lex first = before ++ seam.ending ∧
      lex (first ++ newline :: second) = before ++ seam.following := by
  obtain ⟨init, marker, hrun, hmarker, -⟩ := (Cursor.start first).run_eq_append
  have hscan : scan first = init ++ [.token marker] := hrun
  obtain ⟨before, faults, hbefore⟩ := Lexed.ofOutcomes_append [] init
  have hmoved : (scan second).map (Outcome.moved (first.length + 1) (Text.newlines first + 1)) =
      .token (s.next.moved (Text.newlines first + 1)) ::
        (s.rest.map (Token.moved (Text.newlines first + 1))).map .token := by
    rw [hsecond, List.map_cons, List.map_cons, List.map_map, List.map_map]
    rfl
  refine ⟨⟨s.moved (Text.newlines first + 1), faults, marker, hmarker⟩, before, rfl, ?_, ?_⟩
  · rw [lex, hscan, hbefore]
    rfl
  · rw [lex, scan_append second hopen, hscan, List.dropLast_concat, hmoved, hbefore,
      Lexed.ofOutcomes_tokens]
    rfl

/-! ## reading the second source -/

namespace Parser

variable {p q : Parser} {s : Sequel}

/-- A parser between two statements, with all ahead without fault and nothing
too much for the pool. -/
structure Between (p : Parser) : Prop where
  panicking : p.panicking = false
  roomy : p.Roomy
  faultless : ∀ lexed ∈ p.pending, lexed.faults = []

@[simp] theorem ahead_quiet (previous token : Token) (rest : List Token)
    (constants : List Constant) (taken : Nat) :
    (quiet previous (token :: rest) constants taken).ahead = token :: rest := by
  simp only [ahead, quiet, List.tail_cons, List.headD_cons, List.map_map]
  exact congrArg _ (List.map_id _)

theorem between_quiet {constants : List Constant} {taken : Nat}
    (h : constants.length + rest.length ≤ poolCapacity) :
    (quiet next (token :: rest) constants taken).Between := by
  refine ⟨rfl, ⟨rfl, by rwa [length_pending_quiet]⟩, fun lexed hlexed => ?_⟩
  obtain ⟨token, -, rfl⟩ := List.mem_map.1 hlexed
  rfl

/-- Before their first statement two parsers stand before the seam. -/
theorem split_start {seam : Seam} {lexed : Lexed} {before : List Lexed} {joined : Text}
    (hsource : lex source = lexed :: (before ++ seam.ending))
    (hjoined : lex joined = lexed :: (before ++ seam.following))
    (hlast : ∃ semicolon, (lexed.token :: before.map Lexed.token).getLast? = some semicolon ∧
      semicolon.kind = .semicolon)
    (hsize : (before ++ seam.following).length ≤ 256) :
    Split seam nestingLimit before (start source) (start joined) := by
  have hpending : (start joined).pending = before ++ seam.following := by simp [start, hjoined]
  have hothers : ∀ token ∈ lexed.token :: before.map Lexed.token, token.kind ≠ .endOfInput := by
    obtain ⟨init, last, heq, -, hothers⟩ := terminated_lex source
    rw [hsource, ← List.cons_append] at heq
    obtain ⟨rfl, -⟩ := List.append_inj' heq rfl
    intro token htoken
    obtain ⟨original, horiginal, rfl⟩ := List.mem_map.1 (List.map_cons ▸ htoken)
    exact hothers original horiginal
  have hroom : (start joined).pending.length ≤ 256 := by rwa [hpending]
  have hconstants : (start joined).constants = [] := by simp [start]
  have hroomy : (start joined).Roomy := by
    refine ⟨by simp [start], ?_⟩
    rw [hconstants, List.length_nil, Nat.zero_add]
    exact hroom
  refine Split.of_take hsource ?_ hlast hothers hroom hroomy
  rw [hjoined]

/-- When a parser gets to the second source, it has recorded what is recorded
for the first one alone.  It may have skipped the first statement. -/
theorem exists_between (hopen : ∀ outcome ∈ scan first, outcome.isOpenString = false)
    (hlast : (tokensOf first).getLast?.map Token.kind = some .semicolon)
    (hsecond : scan second = (s.next :: s.rest).map .token)
    (hsize : (tokensOf first).length + (tokensOf second).length ≤ 256) :
    ∃ (q : Parser) (count : Nat), q.Between ∧ q.pending.length < count ∧
      q.diagnostics = (Parser.program first).2.diagnostics ∧
      (Parser.program (first ++ newline :: second)).2.diagnostics =
        (q.statements count).2.diagnostics ∧
      (q.ahead = (s.next :: s.rest).map (Token.moved (Text.newlines first + 1)) ∨
        s.whole ≠ [] ∧ q.ahead = s.after.map (Token.moved (Text.newlines first + 1))) := by
  obtain ⟨seam, before, hseam, hfirst, hjoined⟩ := exists_seam s hopen hsecond
  have htokens : tokensOf first = before.map Lexed.token := by
    simp [tokensOf, hfirst, Seam.ending]
  have hlength : (tokensOf second).length = s.rest.length := by
    simp [tokensOf, lex_of_scan hsecond]
  have hfollowing : seam.following.length = s.rest.length + 1 := by
    simp [Seam.following, hseam, Sequel.moved]
  obtain ⟨semicolon, hsemicolon, hkind⟩ := Option.map_eq_some_iff.1 hlast
  rw [htokens] at hsemicolon hsize
  cases before with
  | nil => cases hsemicolon
  | cons lexed before =>
    have hshort : (before ++ seam.following).length ≤ 256 := by
      simp only [List.length_append, List.length_map, List.length_cons, hlength, hfollowing]
        at hsize ⊢
      omega
    have hsplit := split_start hfirst hjoined ⟨semicolon, hsemicolon, hkind⟩ hshort
    obtain ⟨p', q, count, hpast, hpanicking, hcount, hdiagnostics, hstatements⟩ :=
      Short.statements ⟨before, hsplit⟩ (Nat.lt_succ_self _) (Nat.lt_succ_self _)
    refine ⟨q, count, ⟨hpanicking, hpast.roomy, hpast.faultless⟩, hcount, ?_, ?_, ?_⟩
    · rw [hpast.diagnostics, ← hdiagnostics, program_snd]
    · rw [program_snd, hstatements]
    · have hahead := hpast.ahead
      rw [hseam] at hahead
      exact hahead.imp_right (And.imp_left fun hwhole hnil => hwhole (by simp [Sequel.moved, hnil]))

/-- Between two statements a parser reads on as another one that has the tokens
ahead from the beginning. -/
theorem Between.statements (h : q.Between) (hahead : q.ahead = tokens.map (Token.moved lines))
    (hsealed : Sealed tokens) (hsize : tokens.length ≤ 257) {count : Nat}
    (hcount : q.pending.length < count) :
    (q.statements count).2.diagnostics = q.diagnostics ++
      ((quiet q.previous tokens [] 1).statements tokens.length).2.diagnostics.map
        (Diagnostic.moved lines) := by
  obtain ⟨first, rest, rfl⟩ := hsealed.ended.exists_cons
  have hquiet : (quiet q.previous (first :: rest) [] 1).Between := by
    refine between_quiet ?_
    rw [List.length_nil, Nat.zero_add]
    exact Nat.le_of_succ_le_succ hsize
  have hbelow : Below lines q.diagnostics (quiet q.previous (first :: rest) [] 1) q := by
    refine ⟨by rw [hahead, ahead_quiet], by rwa [ahead_quiet], fun lexed hlexed => ?_, rfl,
      h.panicking, by simp [quiet], hquiet.roomy, h.roomy⟩
    exact (List.mem_append.1 hlexed).elim (hquiet.faultless lexed) (h.faultless lexed)
  exact hbelow.diagnostics_statements (by simp) hcount

/-- If what is ahead is accepted, nothing is added. -/
theorem Between.accepts {body : List Token} {last : Token} {statements : List Stmt}
    (h : q.Between) (hahead : q.ahead = (body ++ [last]).map (Token.moved lines))
    (hsealed : Sealed (body ++ [last])) (hsize : (body ++ [last]).length ≤ 257)
    (hbody : Stmt.DerivesAll body statements) (hlast : last.kind = .endOfInput)
    (hdepth : ∀ statement ∈ statements, statement.Shallow)
    (hroom : (statements.flatMap Stmt.constants).length ≤ poolCapacity) {count : Nat}
    (hcount : q.pending.length < count) :
    (q.statements count).2.diagnostics = q.diagnostics := by
  have hentries : ([] : List Constant).length + (statements.flatMap Stmt.constants).length ≤
      poolCapacity := by rwa [List.length_nil, Nat.zero_add]
  have hlength : body.length < (body ++ [last]).length := by simp
  obtain ⟨taken, hread⟩ := hbody.parse q.previous 1 hlast hdepth hentries hlength
  rw [h.statements hahead hsealed hsize hcount, hread]
  exact List.append_nil _

/-- Accepted statements are read without a record, whatever follows them. -/
theorem statements_append {body : List Token} {statements : List Stmt}
    (h : Stmt.DerivesAll body statements) (previous next : Token) (rest : List Token)
    (constants : List Constant) (taken : Nat)
    (hdepth : ∀ statement ∈ statements, statement.Shallow)
    (hroom : constants.length + (statements.flatMap Stmt.constants).length ≤ poolCapacity)
    {count : Nat} (hcount : body.length + rest.length < count) :
    ∃ previous' taken' count', rest.length < count' ∧
      ((quiet previous (body ++ next :: rest) constants taken).statements count).2 =
        ((quiet previous' (next :: rest) (constants ++ statements.flatMap Stmt.constants)
          taken').statements count').2 := by
  induction h generalizing previous constants taken count with
  | nil => exact ⟨previous, taken, count, by simpa using hcount, by simp⟩
  | @cons tokens more statement statements hhead _ ih =>
    simp only [List.flatMap_cons, List.length_append] at hroom hcount
    obtain ⟨first, others, htokens, hfirst⟩ := hhead.exists_cons
    obtain ⟨count, rfl⟩ : ∃ m, count = m + 1 := ⟨count - 1, by omega⟩
    obtain ⟨follow, behind, hbehind⟩ : ∃ follow behind, more ++ next :: rest = follow :: behind :=
      List.exists_cons_of_ne_nil (by simp)
    have hfirstRoom : constants.length + statement.constants.length ≤ poolCapacity := by omega
    obtain ⟨previous', taken', hread⟩ :=
      hhead.parse previous follow behind taken (hdepth _ (.head _)) hfirstRoom
    rw [← hbehind] at hread
    have hlength := congrArg List.length htokens
    simp only [List.length_cons] at hlength
    obtain ⟨previous'', taken'', count'', hcount'', hmore⟩ :=
      ih previous' (constants ++ statement.constants) taken'
        (fun s hs => hdepth s (.tail _ hs)) (by simp only [List.length_append]; omega)
        (by omega : more.length + rest.length < count)
    have hgo : (quiet previous (tokens ++ more ++ next :: rest) constants taken).current.kind ≠
        .endOfInput := by
      simp only [htokens, List.cons_append, current_quiet]
      exact hfirst
    refine ⟨previous'', taken'', count'', hcount'', ?_⟩
    rw [statements_of_ne rfl hgo, List.append_assoc, hread, hmore, List.flatMap_cons,
      List.append_assoc]

/-! ## beginnings of statements -/

theorem stops_of_step {kind : TokenKind} (h : (Awaiting.statement.step kind).isSome = true)
    (hminus : kind ≠ .minus) :
    kind.binaryOp? = none ∧ kind ≠ .rightParen ∧ kind ≠ .equal ∧ kind ≠ .semicolon := by
  cases kind <;> first
    | exact absurd rfl hminus
    | exact absurd h (by decide)
    | exact ⟨rfl, by simp, by simp, by simp⟩

/-- Tokens with which no broken expression would go on. -/
def Sequel.ofStep (next : Token) (rest : List Token) (hsealed : Sealed (next :: rest))
    (hstep : (Awaiting.statement.step next.kind).isSome = true) (hminus : next.kind ≠ .minus) :
    Sequel where
  next := next
  rest := rest
  whole := []
  stop := next
  after := rest
  split := rfl
  closed := hsealed
  continues := continues_nil
  isInner := by simp
  stop_loose := (stops_of_step hstep hminus).1
  stop_ne_paren := (stops_of_step hstep hminus).2.1
  stop_ne_equal := (stops_of_step hstep hminus).2.2.1
  stop_semicolon := by simpa using (stops_of_step hstep hminus).2.2.2

/-- An expression that begins with a minus sign, as an operator, continues
another expression. -/
theorem continues_of_minus {sign : Token} {phrase : List Token} {e : Expr}
    (h : Level.expression.Derives (sign :: phrase) e) (hsign : sign.kind = .minus) :
    Continues (sign :: phrase) := by
  refine continues_cons.2 ⟨by rw [hsign]; rfl, fun depth => ?_⟩
  obtain ⟨named, hrun⟩ := h.run (fun _ => rfl) depth
  exact ⟨named, by simpa [hsign, TokenKind.prefixForm?] using hrun⟩

/-- A statement that a broken expression would go on with. -/
def Sequel.ofMinus {sign semicolon : Token} {phrase : List Token} {e : Expr} (after : List Token)
    (hphrase : Level.expression.Derives (sign :: phrase) e) (hsign : sign.kind = .minus)
    (hsemicolon : semicolon.kind = .semicolon)
    (hsealed : Sealed (sign :: phrase ++ semicolon :: after)) : Sequel where
  next := sign
  rest := phrase ++ semicolon :: after
  whole := sign :: phrase
  stop := semicolon
  after := after
  split := rfl
  closed := hsealed
  continues := continues_of_minus hphrase hsign
  isInner := hphrase.isInner
  stop_loose := by rw [hsemicolon]; rfl
  stop_ne_paren := by rw [hsemicolon]; decide
  stop_ne_equal := by rw [hsemicolon]; decide
  stop_semicolon := by simp [hsemicolon]

/-- Whether a program begins with a minus sign or not, it follows on another
source: what may be skipped of it is its first statement. -/
theorem exists_sequel {body : List Token} {last : Token} {statements : List Stmt}
    (h : Stmt.DerivesAll body statements) (hlast : last.kind = .endOfInput)
    (hsealed : Sealed (body ++ [last])) :
    ∃ s : Sequel, s.next :: s.rest = body ++ [last] ∧
      (s.whole ≠ [] → ∃ more others, s.after = more ++ [last] ∧ more <:+ body ∧
        Stmt.DerivesAll more others ∧ others <:+ statements) := by
  have hbegins {next : Token} {rest : List Token} (htokens : body ++ [last] = next :: rest)
      (hstep : (Awaiting.statement.step next.kind).isSome = true) (hminus : next.kind ≠ .minus) :
      ∃ s : Sequel, s.next :: s.rest = body ++ [last] ∧
        (s.whole ≠ [] → ∃ more others, s.after = more ++ [last] ∧ more <:+ body ∧
          Stmt.DerivesAll more others ∧ others <:+ statements) :=
    ⟨.ofStep next rest (htokens ▸ hsealed) hstep hminus, htokens.symm, fun hne => absurd rfl hne⟩
  cases h with
  | nil => exact hbegins rfl (by rw [hlast]; rfl) (by rw [hlast]; decide)
  | @cons tokens more statement others hhead htail =>
    cases hhead with
    | declare hintro _ _ | define hintro _ _ _ _ | print hintro _ _ =>
      exact hbegins rfl (by rw [hintro]; rfl) (by rw [hintro]; decide)
    | @expression semicolon phrase value hvalue hsemicolon =>
      obtain ⟨next, rest, rfl, hnext⟩ := hvalue.exists_cons
      by_cases hminus : next.kind = .minus
      case neg =>
        have hprefix : next.kind.prefixForm?.isSome = true := Option.isSome_iff_ne_none.2 hnext
        have hbegin : next.kind.beginsDeclaration = true := by
          simp [TokenKind.beginsDeclaration, hprefix]
        exact hbegins rfl (TokenKind.step_of_beginsDeclaration hbegin) hminus
      case pos =>
        have htokens : next :: rest ++ [semicolon] ++ more ++ [last] =
            next :: rest ++ semicolon :: (more ++ [last]) := by simp
        exact ⟨.ofMinus (more ++ [last]) hvalue hminus hsemicolon (htokens ▸ hsealed),
          htokens.symm, fun _ => ⟨more, others, rfl, List.suffix_append _ _, htail,
            List.suffix_cons _ _⟩⟩

end Parser

/-! ## the two sources together -/

theorem sealed_of_scan (h : scan source = tokens.map .token) : Sealed tokens := by
  have hsealed := (terminated_lex source).sealed
  rwa [lex_of_scan h, List.map_map, show (Lexed.token ∘ Lexed.mk []) = id from rfl,
    List.map_id] at hsealed

/-- After a first source nothing is said about an accepted one. -/
theorem diagnostics_join_accepted
    (hopen : ∀ outcome ∈ scan first, outcome.isOpenString = false)
    (hlast : (tokensOf first).getLast?.map Token.kind = some .semicolon)
    {program : Program} (hsecond : (Program.parse second).result = .ok program)
    (hsize : (tokensOf first).length + (tokensOf second).length ≤ 256) :
    (Parser.program (first ++ newline :: second)).2.diagnostics =
      (Parser.program first).2.diagnostics := by
  obtain ⟨tokens, hscan, ⟨body, last, rfl, hend, hbody, -⟩, hdepth, hroom⟩ :=
    Program.derives_of_parse hsecond
  have hsealed := sealed_of_scan hscan
  have hlength : (body ++ [last]).length ≤ 257 := by
    rw [length_tokensOf hscan] at hsize
    omega
  obtain ⟨s, hs, hafter⟩ := exists_sequel hbody hend hsealed
  obtain ⟨q, count, hbetween, hcount, hfirst, hjoined, hahead⟩ :=
    exists_between hopen hlast (hs ▸ hscan) hsize
  rw [hs] at hahead
  -- what the parser has not skipped is accepted on its own
  obtain ⟨more, others, hmore, ⟨skipped, rfl⟩, hothers, hsuffix⟩ : ∃ more others,
      q.ahead = (more ++ [last]).map (Token.moved (Text.newlines first + 1)) ∧
        more <:+ body ∧ Stmt.DerivesAll more others ∧ others <:+ program.statements := by
    rcases hahead with hahead | ⟨hwhole, hahead⟩
    · exact ⟨body, _, hahead, List.suffix_refl _, hbody, List.suffix_refl _⟩
    · obtain ⟨more, others, hmore, hsuffix⟩ := hafter hwhole
      exact ⟨more, others, hmore ▸ hahead, hsuffix⟩
  rw [List.append_assoc] at hsealed hlength
  have hshort : (more ++ [last]).length ≤ 257 := by
    rw [List.length_append] at hlength
    omega
  have hentries : (others.flatMap Stmt.constants).length ≤ poolCapacity := by
    obtain ⟨read, hread⟩ := hsuffix
    rw [Program.constants, ← hread, List.flatMap_append, List.length_append] at hroom
    omega
  rw [hjoined, hbetween.accepts hmore (hsealed.suffix (by simp)) hshort hothers hend
    (fun statement h => hdepth statement (hsuffix.mem h)) hentries hcount, hfirst]

/-- After an accepted source the parser comes to the beginning of another one
with nothing recorded. -/
theorem exists_between_of_accepted (hsecond : scan second = tokens.map .token)
    {program : Program} (hfirst : (Program.parse first).result = .ok program)
    (hsize : (tokensOf first).length + (tokensOf second).length ≤ 256) :
    ∃ (q : Parser) (count : Nat), q.Between ∧ q.pending.length < count ∧ q.diagnostics = [] ∧
      (Parser.program (first ++ newline :: second)).2.diagnostics =
        (q.statements count).2.diagnostics ∧
      q.ahead = tokens.map (Token.moved (Text.newlines first + 1)) := by
  obtain ⟨_, hscan, ⟨body, last, rfl, hend, hbody, -⟩, hdepth, hroom⟩ :=
    Program.derives_of_parse hfirst
  rw [length_tokensOf hscan, length_tokensOf hsecond, List.length_append, List.length_singleton,
    Nat.add_sub_cancel] at hsize
  obtain ⟨init, final, rfl, -⟩ := (sealed_of_scan hsecond).ended
  obtain ⟨next, rest, hmoved⟩ : ∃ next rest,
      (init ++ [final]).map (Token.moved (Text.newlines first + 1)) = next :: rest :=
    List.exists_cons_of_ne_nil (by simp)
  have hlength := congrArg List.length hmoved
  simp only [List.length_map, List.length_append, List.length_cons, List.length_nil]
    at hlength hsize
  have hjoined : scan (first ++ newline :: second) = (body ++ next :: rest).map .token := by
    rw [scan_join hscan hsecond, ← hmoved]
    simp
  have hpending : (start (first ++ newline :: second)).pending.length =
      body.length + rest.length := by
    rw [length_pending_start, length_tokensOf hjoined, List.length_append, List.length_cons]
    rfl
  have hentries : ([] : List Constant).length + (program.statements.flatMap Stmt.constants).length ≤
      poolCapacity := by rwa [List.length_nil, Nat.zero_add]
  have hpooled : (program.statements.flatMap Stmt.constants).length ≤ body.length :=
    hbody.constants ▸ List.length_filterMap_le _ _
  obtain ⟨previous, taken, count, hcount, hread⟩ :=
    statements_append hbody ⟨.endOfInput, [], 1⟩ next rest [] 1 hdepth hentries
      (Nat.lt_succ_self (body.length + rest.length))
  refine ⟨quiet previous (next :: rest) (program.statements.flatMap Stmt.constants) taken, count,
    between_quiet ?_, by simpa using hcount, rfl, ?_, by rw [hmoved, ahead_quiet]⟩
  · show _ ≤ 256
    omega
  · rw [program_snd, hpending, start_of_scan hjoined, hread]
    rfl

/-- After a first source that ends with a semicolon, a second one is said the
same about as if it stood alone. -/
theorem diagnostics_join_rejected {firstTokens : List Token}
    (hfirst : scan first = firstTokens.map .token) (hsecond : scan second = tokens.map .token)
    (hlast : (tokensOf first).getLast?.map Token.kind = some .semicolon)
    (hbegins : ∃ next rest, tokens = next :: rest ∧ next.kind.beginsDeclaration = true ∧
      (next.kind ≠ .minus ∨ (Parser.program first).2.diagnostics = []))
    (hsize : (tokensOf first).length + (tokensOf second).length ≤ 256) :
    (Parser.program (first ++ newline :: second)).2.diagnostics =
      (Parser.program first).2.diagnostics ++
        (Parser.program second).2.diagnostics.map (Diagnostic.moved (Text.newlines first + 1)) := by
  have hsealed := sealed_of_scan hsecond
  obtain ⟨next, rest, rfl, hbegin, hindependent⟩ := hbegins
  obtain ⟨q, count, hbetween, hcount, hrecorded, hjoined, hahead⟩ : ∃ (q : Parser) (count : Nat),
      q.Between ∧ q.pending.length < count ∧
      q.diagnostics = (Parser.program first).2.diagnostics ∧
      (Parser.program (first ++ newline :: second)).2.diagnostics =
        (q.statements count).2.diagnostics ∧
      q.ahead = (next :: rest).map (Token.moved (Text.newlines first + 1)) := by
    rcases hindependent with hminus | haccepted
    · have hopen : ∀ outcome ∈ scan first, outcome.isOpenString = false := by
        rw [hfirst]
        intro outcome houtcome
        obtain ⟨token, -, rfl⟩ := List.mem_map.1 houtcome
        rfl
      obtain ⟨q, count, hbetween, hcount, hrecorded, hjoined, hahead | ⟨hwhole, -⟩⟩ :=
        exists_between (s := .ofStep next rest hsealed
          (TokenKind.step_of_beginsDeclaration hbegin) hminus) hopen hlast hsecond hsize
      · exact ⟨q, count, hbetween, hcount, hrecorded, hjoined, hahead⟩
      · exact absurd rfl hwhole
    · obtain ⟨program, hparse⟩ : ∃ program, (Program.parse first).result = .ok program :=
        (Parsed.exists_compile_iff _ Program.code .empty).1 (Program.compile_eq_ok_iff.2 haccepted)
      rw [haccepted]
      exact exists_between_of_accepted hsecond hparse hsize
  have hlength : (next :: rest).length ≤ 257 := by
    rw [length_tokensOf hsecond] at hsize
    omega
  have hsecondRead : (Parser.program second).2.diagnostics =
      ((quiet q.previous (next :: rest) [] 1).statements (next :: rest).length).2.diagnostics := by
    rw [program_snd, start_of_scan hsecond, length_pending_of_ended hsealed.ended]
    exact (diagnostics_statements_previous _ _ q.previous).symm
  rw [hjoined, hbetween.statements hahead hsealed hlength hcount, hrecorded, hsecondRead]

/-! ## what is said about joined sources -/

/-- What is said about a source if it is compiled as a program. -/
def Program.complaints (source : Text) (heap : Heap) : List Diagnostic :=
  match (Program.compile source heap).1 with
  | .ok _ => []
  | .error diagnostics => diagnostics

theorem Program.complaints_eq (source : Text) (heap : Heap) :
    Program.complaints source heap = (Parser.program source).2.diagnostics := by
  have hresult := Program.compile_result source heap
  unfold Program.complaints
  split <;> next h =>
    rw [h] at hresult
    first | exact hresult.symm | exact hresult.2.symm

/-- No complaint about a first source touches an accepted second one.  If the
first source ends with a semicolon, leaves no string open and together with the
second has no more than 256 tokens, what is said about the joined sources is
what is said about the first one, and they are accepted together exactly if the
first one is. -/
theorem Program.compile_join_accepted (heap : Heap)
    (hopen : ∀ outcome ∈ scan first, outcome.isOpenString = false)
    (hlast : (tokensOf first).getLast?.map Token.kind = some .semicolon)
    (hsecond : ∃ chunk, (Program.compile second heap).1 = .ok chunk)
    (hsize : (tokensOf first).length + (tokensOf second).length ≤ 256) :
    Program.complaints (first ++ newline :: second) heap = Program.complaints first heap ∧
      ((∃ chunk, (Program.compile (first ++ newline :: second) heap).1 = .ok chunk) ↔
        ∃ chunk, (Program.compile first heap).1 = .ok chunk) := by
  obtain ⟨program, hparse⟩ := (Parsed.exists_compile_iff _ _ _).1 hsecond
  have hjoined := diagnostics_join_accepted hopen hlast hparse hsize
  rw [Program.complaints_eq, Program.complaints_eq, Program.compile_eq_ok_iff,
    Program.compile_eq_ok_iff, hjoined]
  exact ⟨rfl, Iff.rfl⟩

/-- The tokens of a sum without its second operand. -/
theorem scan_unfinished : scan (text "1+;") = List.map Outcome.token
    [⟨.number, text "1", 1⟩, ⟨.plus, text "+", 1⟩, ⟨.semicolon, text ";", 1⟩,
      ⟨.endOfInput, [], 1⟩] := by
  have htake : (Cursor.start (text "1+;")).take 4 = [.token ⟨.number, text "1", 1⟩,
      .token ⟨.plus, text "+", 1⟩, .token ⟨.semicolon, text ";", 1⟩] ++
        [.token ⟨.endOfInput, [], 1⟩] := by decide
  exact Cursor.run_of_take htake rfl (by decide)

/-- A statement that an unfinished sum goes on with is taken for its second
operand, but nothing is said about it. -/
theorem complaints_unfinished_negation :
    Program.complaints (text "1+;" ++ newline :: text "-2;") .empty =
      [⟨.expressionExpected, 1, .atLexeme (text ";")⟩] := by
  have htake : (Cursor.start (text "-2;")).take 4 = [.token ⟨.minus, text "-", 1⟩,
      .token ⟨.number, text "2", 1⟩, .token ⟨.semicolon, text ";", 1⟩] ++
        [.token ⟨.endOfInput, [], 1⟩] := by decide
  have hscan : scan (text "-2;") = List.map Outcome.token
      [⟨.minus, text "-", 1⟩, ⟨.number, text "2", 1⟩, ⟨.semicolon, text ";", 1⟩,
        ⟨.endOfInput, [], 1⟩] := Cursor.run_of_take htake rfl (by decide)
  have haccepted : ∃ chunk, (Program.compile (text "-2;") Heap.empty).1 = .ok chunk := by
    rw [Program.compile_eq_ok_iff, program_snd, start_of_scan hscan]
    decide
  have hjoined := Program.compile_join_accepted .empty (by rw [scan_unfinished]; decide)
    (by rw [tokensOf_of_scan scan_unfinished]; rfl) haccepted
    (by rw [tokensOf_of_scan scan_unfinished, tokensOf_of_scan hscan]; decide)
  rw [hjoined.1, Program.complaints_eq, program_snd, start_of_scan scan_unfinished]
  decide

/-- What is said about a second source is said after what is said about the
first one, as many lines further down as the first one and the separator take.
That is so if neither has lexical faults, they have no more than 256 tokens
together, the first one ends with a semicolon, and the second one begins as a
declaration does, but not with a minus sign that an expression left unfinished
by the first one could be continued with. -/
theorem Program.compile_join_rejected {firstTokens rest : List Token}
    {diagnostics : List Diagnostic} (hfirst : scan first = firstTokens.map .token)
    (hsecond : scan second = (next :: rest).map .token)
    (hlast : (tokensOf first).getLast?.map Token.kind = some .semicolon)
    (hbegins : next.kind.beginsDeclaration = true)
    (hindependent : next.kind ≠ .minus ∨ ∃ chunk, (Program.compile first heap).1 = .ok chunk)
    (hsize : (tokensOf first).length + (tokensOf second).length ≤ 256)
    (hrejected : (Program.compile second heap).1 = .error diagnostics) :
    (Program.compile (first ++ newline :: second) heap).1 =
      .error (Program.complaints first heap ++
        diagnostics.map (Diagnostic.moved (Text.newlines first + 1))) := by
  obtain ⟨hne, hrecorded⟩ := Program.compile_eq_error_iff.1 hrejected
  rw [Program.compile_eq_ok_iff] at hindependent
  refine Program.compile_eq_error_iff.2 ⟨by simp [hne], ?_⟩
  rw [diagnostics_join_rejected hfirst hsecond hlast ⟨next, rest, rfl, hbegins, hindependent⟩ hsize,
    hrecorded, Program.complaints_eq]

/-- Two broken statements, of which the second one does not begin with an
operator. -/
theorem complaints_unfinished_juxtaposition :
    (Program.compile (text "1+;" ++ newline :: text "1 2;") .empty).1 =
      .error [⟨.expressionExpected, 1, .atLexeme (text ";")⟩,
        ⟨.semicolonExpected .expression, 2, .atLexeme (text "2")⟩] := by
  have htake : (Cursor.start (text "1 2;")).take 4 = [.token ⟨.number, text "1", 1⟩,
      .token ⟨.number, text "2", 1⟩, .token ⟨.semicolon, text ";", 1⟩] ++
        [.token ⟨.endOfInput, [], 1⟩] := by decide
  have hscan : scan (text "1 2;") = List.map Outcome.token
      [⟨.number, text "1", 1⟩, ⟨.number, text "2", 1⟩, ⟨.semicolon, text ";", 1⟩,
        ⟨.endOfInput, [], 1⟩] := Cursor.run_of_take htake rfl (by decide)
  have hrejected : (Program.compile (text "1 2;") .empty).1 =
      .error [⟨.semicolonExpected .expression, 1, .atLexeme (text "2")⟩] := by
    refine Program.compile_eq_error_iff.2 ⟨by decide, ?_⟩
    rw [program_snd, start_of_scan hscan]
    decide
  have hfirst : Program.complaints (text "1+;") .empty =
      [⟨.expressionExpected, 1, .atLexeme (text ";")⟩] := by
    rw [Program.complaints_eq, program_snd, start_of_scan scan_unfinished]
    decide
  rw [Program.compile_join_rejected scan_unfinished hscan
    (by rw [tokensOf_of_scan scan_unfinished]; rfl) (by decide) (.inl (by decide))
    (by rw [tokensOf_of_scan scan_unfinished, tokensOf_of_scan hscan]; decide) hrejected, hfirst]
  rfl

/-- A broken statement that an unfinished sum goes on with is not heard of, even
though it begins as a declaration may. -/
theorem unfinished_hides_negation :
    ∃ (tokens rest : List Token) (next : Token) (diagnostics : List Diagnostic),
      scan (text "1+;") = tokens.map .token ∧
      scan (text "-1 2;") = (next :: rest).map .token ∧
      (tokensOf (text "1+;")).getLast?.map Token.kind = some .semicolon ∧
      next.kind.beginsDeclaration = true ∧
      (tokensOf (text "1+;")).length + (tokensOf (text "-1 2;")).length ≤ 256 ∧
      (Program.compile (text "-1 2;") .empty).1 = .error diagnostics ∧
      ¬ ∃ earlier, (Program.compile (text "1+;" ++ newline :: text "-1 2;") .empty).1 =
        .error (earlier ++
          diagnostics.map (Diagnostic.moved (Text.newlines (text "1+;") + 1))) := by
  have htake : (Cursor.start (text "-1 2;")).take 5 = [.token ⟨.minus, text "-", 1⟩,
      .token ⟨.number, text "1", 1⟩, .token ⟨.number, text "2", 1⟩,
      .token ⟨.semicolon, text ";", 1⟩] ++ [.token ⟨.endOfInput, [], 1⟩] := by decide
  have hscan : scan (text "-1 2;") = List.map Outcome.token
      [⟨.minus, text "-", 1⟩, ⟨.number, text "1", 1⟩, ⟨.number, text "2", 1⟩,
        ⟨.semicolon, text ";", 1⟩, ⟨.endOfInput, [], 1⟩] :=
    Cursor.run_of_take htake rfl (by decide)
  have hrejected : (Program.compile (text "-1 2;") .empty).1 =
      .error [⟨.semicolonExpected .expression, 1, .atLexeme (text "2")⟩] := by
    refine Program.compile_eq_error_iff.2 ⟨by decide, ?_⟩
    rw [program_snd, start_of_scan hscan]
    decide
  have hjoined : (Program.compile (text "1+;" ++ newline :: text "-1 2;") .empty).1 =
      .error [⟨.expressionExpected, 1, .atLexeme (text ";")⟩] := by
    have htake : (Cursor.start (text "1+;" ++ newline :: text "-1 2;")).take 8 =
        [.token ⟨.number, text "1", 1⟩, .token ⟨.plus, text "+", 1⟩,
          .token ⟨.semicolon, text ";", 1⟩, .token ⟨.minus, text "-", 2⟩,
          .token ⟨.number, text "1", 2⟩, .token ⟨.number, text "2", 2⟩,
          .token ⟨.semicolon, text ";", 2⟩] ++ [.token ⟨.endOfInput, [], 2⟩] := by decide
    have htokens : scan (text "1+;" ++ newline :: text "-1 2;") = List.map Outcome.token
        [⟨.number, text "1", 1⟩, ⟨.plus, text "+", 1⟩, ⟨.semicolon, text ";", 1⟩,
          ⟨.minus, text "-", 2⟩, ⟨.number, text "1", 2⟩, ⟨.number, text "2", 2⟩,
          ⟨.semicolon, text ";", 2⟩, ⟨.endOfInput, [], 2⟩] :=
      Cursor.run_of_take htake rfl (by decide)
    refine Program.compile_eq_error_iff.2 ⟨by decide, ?_⟩
    rw [program_snd, start_of_scan htokens]
    decide
  refine ⟨_, _, _, _, scan_unfinished, hscan, by rw [tokensOf_of_scan scan_unfinished]; rfl,
    by decide, by rw [tokensOf_of_scan scan_unfinished, tokensOf_of_scan hscan]; decide,
    hrejected, ?_⟩
  rintro ⟨earlier, h⟩
  rw [hjoined] at h
  -- what is said is about the first line
  have hline := congrArg (fun diagnostics => diagnostics.getLast?.map Diagnostic.line)
    (Except.error.inj h)
  rw [List.getLast?_append] at hline
  cases hline

end Lox
