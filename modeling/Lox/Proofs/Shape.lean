import Lox.Proofs.Diagnosis
import Lox.Proofs.Lines

/-!
# Lox.Proofs.Shape

The shape of a list of diagnostics.

Three things are kept by every move of the parser, and so by its calls: the
diagnostics stand in the order of their lines, although faults are met one token
ahead of everything else (`Parser.Orderly`); a record costs the calm of a parser,
which only a recovery gives back (`Parser.tally`); and nothing is recorded after
a full pool (`Parser.Capped`).
-/

namespace Lox

namespace Parser

variable {p q : Parser}

/-! ## moves -/

theorem record_of_calm (h : p.panicking = false) (error : SyntaxError) (line : Nat)
    (place : Place) : p.record error line place =
      { p with panicking := true, diagnostics := p.diagnostics ++ [⟨error, line, place⟩] } :=
  if_neg (by simp [h])

theorem record_of_panicking (h : p.panicking = true) (error : SyntaxError) (line : Nat)
    (place : Place) : p.record error line place = p := if_pos h

/-- The parser that has taken a token, but none of the faults on the way to the
next one. -/
def advanced (p : Parser) (token : Token) (rest : List Lexed) : Parser :=
  { p with pending := rest, current := token, previous := p.current, taken := p.taken + 1 }

/-- Faults may as well be recorded once the token behind them is looked at. -/
theorem take_of_cons {faults : List LexicalFault} {token : Token} {rest : List Lexed}
    (h : p.pending = ⟨faults, token⟩ :: rest) :
    p.take = (p.advanced token rest).recordFaults faults := by
  simp only [take, h]
  cases faults with
  | nil => rfl
  | cons fault faults =>
    simp only [recordFaults_cons, record, advanced]
    split <;> rfl

theorem take_of_nil (h : p.pending = []) :
    p.take = { p with previous := p.current, taken := p.taken + 1 } := by
  simp only [take, h]

theorem request_of_ge (h : ¬ p.constants.length < poolCapacity) (constant : Constant) :
    p.request constant =
      { p.recordAt p.previous .tooManyConstants with
        constants := p.constants ++ [constant], overflowed := true } := by
  simp only [request, if_neg h, recordAt, record]
  split <;> rfl

/-! ## order -/

/-- What is ahead of a parser is below its diagnostics, and these are in
order. -/
structure Ordered (p : Parser) : Prop where
  ascending : Ascending (p.diagnostics.map Diagnostic.line)
  above : ∀ d ∈ p.diagnostics, d.line ≤ p.current.line
  ahead : Ascending (p.current.line :: p.pending.flatMap Lexed.lines)
  previous : p.previous.line ≤ p.current.line

/-- Inside a statement, a parser that does not panic has only diagnostics above
the token taken last. -/
structure Orderly (p : Parser) : Prop extends Ordered p where
  calm : p.panicking = false → ∀ d ∈ p.diagnostics, d.line ≤ p.previous.line

namespace Orderly

/-- A record does not break the order if its line is below the earlier ones and
not below the token looked at. -/
theorem record (h : p.Orderly) (error : SyntaxError) {line : Nat} (place : Place)
    (hfrom : p.panicking = false → ∀ d ∈ p.diagnostics, d.line ≤ line)
    (hto : line ≤ p.current.line) : (p.record error line place).Orderly := by
  cases hp : p.panicking with
  | true => rwa [record_of_panicking hp]
  | false =>
    rw [record_of_calm hp]
    refine ⟨⟨?_, ?_, h.ahead, h.previous⟩, by simp⟩
    · rw [List.map_append, List.map_singleton]
      refine List.pairwise_append.2 ⟨h.ascending, List.pairwise_singleton .., ?_⟩
      simpa using hfrom hp
    · simpa [or_imp, forall_and] using ⟨h.above, hto⟩

theorem setPool (h : p.Orderly) (constants : List Constant) (overflowed : Bool) :
    Orderly { p with constants := constants, overflowed := overflowed } :=
  ⟨⟨h.ascending, h.above, h.ahead, h.previous⟩, h.calm⟩

end Orderly

/-- From the token looked at the lines go down over the faults to the next
token. -/
theorem Ordered.lines_of_cons (h : p.Ordered) {faults : List LexicalFault} {token : Token}
    {rest : List Lexed} (hpending : p.pending = ⟨faults, token⟩ :: rest) :
    (∀ fault ∈ faults, p.current.line ≤ fault.line ∧ fault.line ≤ token.line) ∧
      p.current.line ≤ token.line ∧ Ascending (token.line :: rest.flatMap Lexed.lines) := by
  have hahead := h.ahead
  rw [hpending, List.flatMap_cons, Lexed.lines, List.append_assoc, List.singleton_append]
    at hahead
  obtain ⟨hfirst, hlines⟩ := List.pairwise_cons.1 hahead
  obtain ⟨-, hrest, hfaults⟩ := List.pairwise_append.1 hlines
  have htoken : p.current.line ≤ token.line := hfirst _ (by simp)
  refine ⟨fun fault hfault => ?_, htoken, hrest⟩
  have hmem : fault.line ∈ faults.map LexicalFault.line := List.mem_map.2 ⟨fault, hfault, rfl⟩
  exact ⟨hfirst _ (List.mem_append_left _ hmem), hfaults _ hmem _ (.head _)⟩

/-- Whatever was recorded before is above the token that is taken now. -/
theorem Ordered.take (h : p.Ordered) : p.take.Orderly := by
  cases hpending : p.pending with
  | nil =>
    rw [take_of_nil hpending]
    exact ⟨⟨h.ascending, h.above, h.ahead, Nat.le_refl _⟩, fun _ => h.above⟩
  | cons lexed rest =>
    obtain ⟨faults, token⟩ := lexed
    obtain ⟨hfaults, htoken, hrest⟩ := h.lines_of_cons hpending
    have hadvanced : (p.advanced token rest).Orderly :=
      ⟨⟨h.ascending, fun d hd => Nat.le_trans (h.above d hd) htoken, hrest, htoken⟩,
        fun _ => h.above⟩
    rw [take_of_cons hpending]
    cases faults with
    | nil => exact hadvanced
    | cons fault faults =>
      obtain ⟨hfrom, hto⟩ := hfaults fault (.head _)
      rw [recordFaults_cons]
      exact hadvanced.record _ _ (fun _ d hd => Nat.le_trans (h.above d hd) hfrom) hto

/-- Every move keeps the order. -/
theorem Move.orderly (hmove : Move p q) (h : p.Orderly) : q.Orderly := by
  have hprevious (error : SyntaxError) : (p.recordAt p.previous error).Orderly :=
    h.record error _ h.calm h.previous
  cases hmove with
  | take => exact h.toOrdered.take
  | blame error _ => exact h.record error _ (fun _ => h.above) (Nat.le_refl _)
  | blamePrevious error _ => exact hprevious error
  | request constant =>
    by_cases hroom : p.constants.length < poolCapacity
    · rw [request_of_lt hroom]
      exact h.setPool _ _
    · rw [request_of_ge hroom]
      exact (hprevious _).setPool _ _

theorem Ordered.statement (h : p.Ordered) : p.statement.2.Ordered := by
  have hread := (Moves.unrecovered_take p).keeps Move.orderly h.take
  simp only [Parser.statement]
  split
  · have hskipped :=
      (Moves.skipToBoundary p.unrecovered.2.pending.length _).keeps Move.orderly hread
    exact ⟨hskipped.ascending, hskipped.above, hskipped.ahead, hskipped.previous⟩
  · exact hread.toOrdered

/-- The diagnostics of consecutive statements are in order. -/
theorem Ordered.statements (h : p.Ordered) (count : Nat) : (p.statements count).2.Ordered := by
  induction count generalizing p with
  | zero => exact h
  | succ count ih =>
    unfold Parser.statements
    split
    · exact h
    · split
      · exact h.take.toOrdered
      · exact ih h.statement

/-- The parser that has not looked at a token. -/
def fresh (source : Text) : Parser :=
  ⟨lex source, ⟨.endOfInput, [], 1⟩, ⟨.endOfInput, [], 1⟩, false, [], [], false, 0⟩

theorem orderly_start (source : Text) : (start source).Orderly := by
  have hfresh : (fresh source).Ordered := ⟨.nil, nofun, ascending_lex source, Nat.le_refl 1⟩
  exact hfresh.take

/-! ## records -/

/-- What a move can do to the diagnostics. -/
inductive Says (p q : Parser) : Prop where
  | nothing (hpanicking : q.panicking = p.panicking) (hdiagnostics : q.diagnostics = p.diagnostics)
      (hoverflowed : p.overflowed = true → q.overflowed = true)
  | record (d : Diagnostic) (hcalm : p.panicking = false) (hpanicking : q.panicking = true)
      (hdiagnostics : q.diagnostics = p.diagnostics ++ [d])
      (hpool : d.error = .tooManyConstants → q.overflowed = true)

theorem says_record (p : Parser) {error : SyntaxError} (h : error ≠ .tooManyConstants)
    (line : Nat) (place : Place) : Says p (p.record error line place) := by
  cases hp : p.panicking with
  | true =>
    rw [record_of_panicking hp]
    exact .nothing rfl rfl id
  | false =>
    rw [record_of_calm hp]
    exact .record _ hp rfl rfl fun hpool => absurd hpool h

/-- A move records nothing, or one diagnostic in a parser that did not panic. -/
theorem Move.says (h : Move p q) : Says p q := by
  cases h with
  | take =>
    cases hpending : p.pending with
    | nil =>
      rw [take_of_nil hpending]
      exact .nothing rfl rfl id
    | cons lexed rest =>
      obtain ⟨faults, token⟩ := lexed
      rw [take_of_cons hpending]
      cases faults with
      | nil => exact .nothing rfl rfl id
      | cons fault faults =>
        rw [recordFaults_cons]
        have hlexical : SyntaxError.lexical fault.error ≠ .tooManyConstants := nofun
        cases says_record (p.advanced token rest) hlexical fault.line .nowhere with
        | nothing hpanicking hdiagnostics hoverflowed =>
          exact .nothing hpanicking hdiagnostics hoverflowed
        | record d hcalm hpanicking hdiagnostics hpool =>
          exact .record d hcalm hpanicking hdiagnostics hpool
  | blame error h => exact says_record p h _ _
  | blamePrevious error h => exact says_record p h _ _
  | request constant =>
    by_cases hroom : p.constants.length < poolCapacity
    · rw [request_of_lt hroom]
      exact .nothing rfl rfl id
    · rw [request_of_ge hroom, recordAt]
      cases hp : p.panicking with
      | true =>
        rw [record_of_panicking hp]
        exact .nothing rfl rfl fun _ => rfl
      | false =>
        rw [record_of_calm hp]
        exact .record _ hp rfl rfl fun _ => rfl

/-! ## one record for one recovery -/

/-- How many diagnostics there are once a parser panics next. -/
def tally (p : Parser) : Nat := p.diagnostics.length + (if p.panicking then 0 else 1)

theorem length_diagnostics_le_tally (p : Parser) : p.diagnostics.length ≤ p.tally :=
  Nat.le_add_right ..

theorem tally_of_calm (h : p.panicking = false) : p.tally = p.diagnostics.length + 1 := by
  simp [tally, h]

/-- A record is paid for by the calm of the parser. -/
theorem Move.tally (h : Move p q) : q.tally = p.tally := by
  unfold Parser.tally
  cases h.says with
  | nothing hpanicking hdiagnostics _ => rw [hpanicking, hdiagnostics]
  | record d hcalm hpanicking hdiagnostics _ => simp [hcalm, hpanicking, hdiagnostics]

theorem Moves.tally (h : Moves p q) : q.tally = p.tally :=
  h.keeps (fun hmove heq => hmove.tally.trans heq) rfl

theorem tally_start (source : Text) : (start source).tally = 1 := Move.take.tally

theorem tally_unrecovered (p : Parser) : p.unrecovered.2.tally = p.tally :=
  ((Moves.take p).trans (.unrecovered_take p)).tally

theorem statement_of_calm (h : p.unrecovered.2.panicking = false) :
    p.statement.2 = p.unrecovered.2 := by simp [statement, h]

theorem statement_of_panicking (h : p.unrecovered.2.panicking = true) :
    p.statement.2 = p.unrecovered.2.recover := by simp [statement, h]

/-- A statement records no more than the tally allows. -/
theorem length_diagnostics_statement (p : Parser) :
    p.statement.2.diagnostics.length ≤ p.tally := by
  rw [← tally_unrecovered p]
  cases hpanicking : p.unrecovered.2.panicking with
  | true =>
    have hskip := Moves.skipToBoundary p.unrecovered.2.pending.length p.unrecovered.2
    rw [statement_of_panicking hpanicking, ← hskip.tally]
    exact (p.unrecovered.2.skipToBoundary _).length_diagnostics_le_tally
  | false =>
    rw [statement_of_calm hpanicking]
    exact length_diagnostics_le_tally _

/-- The diagnostics at every recovery of a parser that parses statements. -/
def clearings : Nat → Parser → List (List Diagnostic)
  | 0, _ => []
  | count + 1, p =>
    if p.overflowed then []
    else if p.current.kind = .endOfInput then []
    else
      let rest := clearings count p.statement.2
      if p.unrecovered.2.panicking then p.statement.2.diagnostics :: rest else rest

/-- Each of these lists has what the one before it has, and at most one
diagnostic more. -/
def Accrue (said : List Diagnostic) : List (List Diagnostic) → Prop
  | [] => True
  | next :: rest => (∃ new, next = said ++ new ∧ new.length ≤ 1) ∧ Accrue next rest

theorem exists_append_of_length {said next : List Diagnostic} (h : said <+: next)
    (hlength : next.length ≤ said.length + 1) : ∃ new, next = said ++ new ∧ new.length ≤ 1 := by
  obtain ⟨new, rfl⟩ := h
  rw [List.length_append] at hlength
  exact ⟨new, rfl, by omega⟩

/-- Between two recoveries at most one diagnostic is recorded. -/
theorem accrue_clearings {said : List Diagnostic} (h : said <+: p.diagnostics)
    (htally : p.tally ≤ said.length + 1) (count : Nat) :
    Accrue said (p.clearings count ++ [(p.statements count).2.diagnostics]) := by
  have hlength := Nat.le_trans p.length_diagnostics_le_tally htally
  induction count generalizing p said with
  | zero => exact ⟨exists_append_of_length h hlength, trivial⟩
  | succ count ih =>
    by_cases hoverflowed : p.overflowed = true
    · rw [clearings, if_pos hoverflowed, statements, if_pos hoverflowed]
      exact ⟨exists_append_of_length h hlength, trivial⟩
    by_cases hend : p.current.kind = .endOfInput
    · rw [clearings, if_neg hoverflowed, if_pos hend,
        statements_end (by simpa using hoverflowed) hend]
      have htake := Nat.le_trans p.take.length_diagnostics_le_tally
        (Nat.le_trans (Nat.le_of_eq Move.take.tally) htally)
      exact ⟨exists_append_of_length (h.trans (Leads.take p).extend) htake, trivial⟩
    rw [clearings, if_neg hoverflowed, if_neg hend,
      statements_of_ne (by simpa using hoverflowed) hend]
    have hextends := h.trans (Leads.statement p).extend
    have hlength' := Nat.le_trans p.length_diagnostics_statement htally
    cases hpanicking : p.unrecovered.2.panicking with
    | true =>
      have hcalm := Nat.le_of_eq (tally_of_calm (panicking_statement p))
      exact ⟨exists_append_of_length hextends hlength',
        ih (List.prefix_refl _) hcalm (Nat.le_succ _)⟩
    | false =>
      have hsame : p.statement.2.tally ≤ said.length + 1 := by
        rw [statement_of_calm hpanicking, tally_unrecovered]
        exact htally
      exact ih hextends hsame hlength'

/-! ## nothing after a full pool -/

/-- Nothing here says that a pool is full. -/
def Unfilled (diagnostics : List Diagnostic) : Prop :=
  ∀ d ∈ diagnostics, d.error ≠ .tooManyConstants

/-- That the pool is full is said last, by a parser that overflowed. -/
def Capped (p : Parser) : Prop :=
  Unfilled p.diagnostics ∨ p.overflowed = true ∧
    ∃ before last, p.diagnostics = before ++ [last] ∧ Unfilled before

/-- Inside a statement it is said by a parser that still panics. -/
def CappedInside (p : Parser) : Prop :=
  Unfilled p.diagnostics ∨ p.panicking = true ∧ p.Capped

theorem CappedInside.capped (h : p.CappedInside) : p.Capped := by
  rcases h with hunfilled | ⟨-, hcapped⟩
  · exact .inl hunfilled
  · exact hcapped

theorem Move.cappedInside (hmove : Move p q) (h : p.CappedInside) : q.CappedInside := by
  cases hmove.says with
  | nothing hpanicking hdiagnostics hoverflowed =>
    unfold CappedInside Capped at *
    rw [hpanicking, hdiagnostics]
    exact h.imp_right (And.imp_right (Or.imp_right (And.imp_left hoverflowed)))
  | record d hcalm hpanicking hdiagnostics hpool =>
    have hunfilled : Unfilled p.diagnostics :=
      h.resolve_right fun hpanics => by simp [hcalm] at hpanics
    by_cases hd : d.error = .tooManyConstants
    · exact .inr ⟨hpanicking, .inr ⟨hpool hd, p.diagnostics, d, hdiagnostics, hunfilled⟩⟩
    · refine .inl ?_
      rw [hdiagnostics]
      exact List.forall_mem_append.2 ⟨hunfilled, List.forall_mem_singleton.2 hd⟩

/-- A parser that did not overflow has not said so. -/
theorem Capped.unfilled (h : p.Capped) (hoverflowed : p.overflowed = false) :
    Unfilled p.diagnostics := h.resolve_right fun ⟨htrue, _⟩ => by simp [hoverflowed] at htrue

theorem Capped.statement (h : p.Capped) (hoverflowed : p.overflowed = false) :
    p.statement.2.Capped := by
  have hinside : p.CappedInside := .inl (h.unfilled hoverflowed)
  have hread := ((Moves.take p).trans (.unrecovered_take p)).keeps Move.cappedInside hinside
  cases hpanicking : p.unrecovered.2.panicking with
  | true =>
    have hskip := Moves.skipToBoundary p.unrecovered.2.pending.length p.unrecovered.2
    rw [statement_of_panicking hpanicking]
    exact (hskip.keeps Move.cappedInside hread).capped
  | false =>
    rw [statement_of_calm hpanicking]
    exact hread.capped

theorem Capped.statements (h : p.Capped) (count : Nat) : (p.statements count).2.Capped := by
  induction count generalizing p with
  | zero => exact h
  | succ count ih =>
    by_cases hoverflowed : p.overflowed = true
    · rw [Parser.statements, if_pos hoverflowed]
      exact h
    replace hoverflowed : p.overflowed = false := by simpa using hoverflowed
    by_cases hend : p.current.kind = .endOfInput
    · have hinside : p.CappedInside := .inl (h.unfilled hoverflowed)
      rw [statements_end hoverflowed hend]
      exact (Move.take.cappedInside hinside).capped
    · rw [statements_of_ne hoverflowed hend]
      exact ih (h.statement hoverflowed)

theorem capped_start (source : Text) : (start source).Capped := by
  have hfresh : (fresh source).CappedInside := .inl nofun
  exact (Move.take.cappedInside hfresh).capped

theorem Capped.eq_nil (h : p.Capped) {before after : List Diagnostic} {d : Diagnostic}
    (hdiagnostics : p.diagnostics = before ++ d :: after)
    (hd : d.error = .tooManyConstants) : after = [] := by
  rcases h with hunfilled | ⟨-, init, last, hinit, hunfilled⟩
  · exact absurd hd (hunfilled d (by simp [hdiagnostics]))
  · rcases List.eq_nil_or_concat after with rfl | ⟨more, final, rfl⟩
    · rfl
    · rw [hdiagnostics, List.concat_eq_append, ← List.cons_append, ← List.append_assoc] at hinit
      obtain ⟨rfl, -⟩ := List.append_inj' hinit rfl
      exact absurd hd (hunfilled d (by simp))

end Parser

/-! ## sources -/

/-- A cause is known by its wording: this one is said of full pools only. -/
theorem SyntaxError.eq_tooManyConstants {error : SyntaxError}
    (h : error.message = text "Too many constants in one chunk.") : error = .tooManyConstants := by
  revert h
  cases error with
  | lexical error => cases error <;> decide
  | semicolonExpected after => cases after <;> decide
  | _ => decide

/-- A compilation that fails if and only if something was recorded, and answers
with all that was. -/
def Reports (result : Except (List Diagnostic) Chunk) (said : List Diagnostic) : Prop :=
  ((∃ diagnostics, result = .error diagnostics) ↔ said ≠ []) ∧
    ∀ diagnostics, result = .error diagnostics → diagnostics = said

theorem reports_of_result {result : Except (List Diagnostic) Chunk} {said : List Diagnostic}
    (h : match result with
      | .ok _ => said = []
      | .error diagnostics => diagnostics ≠ [] ∧ said = diagnostics) : Reports result said := by
  cases result with
  | ok chunk => exact ⟨by simp [h], nofun⟩
  | error diagnostics =>
    obtain ⟨hne, rfl⟩ := h
    exact ⟨⟨fun _ => hne, fun _ => ⟨_, rfl⟩⟩, fun _ heq => (Except.error.inj heq).symm⟩

/-- A lone expression is read without a recovery. -/
theorem Parser.moves_query (source : Text) :
    Moves (start source) (Parser.query source).2 := by
  have hend : Moves (start source).expression.2
      ((start source).expression.2.expect .endOfInput .endExpected).2 := .expect _ _ nofun
  exact (Moves.expression _).trans hend

/-- The shape of the diagnostics of any source.  A program is refused if and only
if something was recorded; the lines do not decrease; from one recovery to the
next, from the beginning to the first one and from the last one to the end, at
most one diagnostic is recorded; and that the pool is full is said last, if at
all.  A lone expression is refused if and only if something was recorded, which
is one diagnostic at most. -/
theorem diagnostics_shape (source : Text) (heap : Heap) :
    let p := Parser.start source
    let said := (Parser.program source).2.diagnostics
    let saidAlone := (Parser.query source).2.diagnostics
    Reports (Program.compile source heap).1 said ∧
      (said.map Diagnostic.line).Pairwise (· ≤ ·) ∧
      Parser.Accrue [] (p.clearings (p.pending.length + 1) ++ [said]) ∧
      (∀ before d after, said = before ++ d :: after →
        d.error.message = text "Too many constants in one chunk." → after = []) ∧
      Reports (Query.compile source heap).1 saidAlone ∧ saidAlone.length ≤ 1 := by
  intro p said saidAlone
  have hordered := (Parser.orderly_start source).toOrdered.statements (p.pending.length + 1)
  have hcapped := (Parser.capped_start source).statements (p.pending.length + 1)
  have htally : p.tally = 1 := Parser.tally_start source
  have hclearings := Parser.accrue_clearings (List.nil_prefix (l := p.diagnostics))
    (Nat.le_of_eq htally) (p.pending.length + 1)
  refine ⟨reports_of_result (Program.compile_result source heap), hordered.ascending, hclearings,
    fun before d after hsaid hmessage => ?_, reports_of_result (Query.compile_result source heap),
    ?_⟩
  · exact hcapped.eq_nil hsaid (SyntaxError.eq_tooManyConstants hmessage)
  · rw [← htally, ← (Parser.moves_query source).tally]
    exact Parser.length_diagnostics_le_tally _

end Lox
