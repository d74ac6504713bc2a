import Lox.Proofs.Parser.Moves

/-!
# Lox.Proofs.Parser.Account

Nothing that goes wrong is lost.

A parser that has met a lexical fault, panics or overflowed its pool has a
diagnostic to show for it (`Accounts`), diagnostics are never taken back, and
tokens are only taken, never put back.  Every move of the parser keeps this
(`Leads`), so a parser that ends without diagnostics has met no flaw on its
whole way.
-/

namespace Lox

namespace Parser

/-- Of the tokens `all`, the current one is the last that is not pending;
without a diagnostic no token so far had a fault, and the parser neither
panics nor overflowed. -/
def Accounts (all : List Lexed) (p : Parser) : Prop :=
  ∃ passed lexed, all = passed ++ lexed :: p.pending ∧ lexed.token = p.current ∧
    (p.diagnostics = [] →
      p.panicking = false ∧ p.overflowed = false ∧ ∀ seen ∈ passed ++ [lexed], seen.faults = [])

/-- A way from one parser to another on which flaws are accounted for,
diagnostics are only added, and tokens are taken from the front. -/
structure Leads (p q : Parser) : Prop where
  accounts : ∀ {all}, p.Accounts all → q.Accounts all
  extend : p.diagnostics <+: q.diagnostics
  suffix : q.pending <:+ p.pending

namespace Leads

theorem refl (p : Parser) : Leads p p := ⟨id, List.prefix_refl _, List.suffix_refl _⟩

theorem trans {p q r : Parser} (h : Leads p q) (h' : Leads q r) : Leads p r :=
  ⟨fun ha => h'.accounts (h.accounts ha), h.extend.trans h'.extend, h'.suffix.trans h.suffix⟩

theorem keeps {p q : Parser} (h : Leads p q) (hq : q.diagnostics = []) : p.diagnostics = [] :=
  List.prefix_nil.1 (hq ▸ h.extend)

/-- Diagnostics do not go away. -/
theorem complains {p q : Parser} (h : Leads p q) (hp : p.diagnostics ≠ []) : q.diagnostics ≠ [] :=
  fun hq => hp (h.keeps hq)

/-! ## errors -/

theorem record (p : Parser) (error : SyntaxError) (line : Nat) (place : Place) :
    Leads p (p.record error line place) := by
  unfold Parser.record
  split
  · exact refl p
  · constructor
    · rintro all ⟨passed, lexed, hall, hcurrent, -⟩
      exact ⟨passed, lexed, hall, hcurrent, by simp⟩
    · exact List.prefix_append _ _
    · exact List.suffix_refl _

theorem recordAt (p : Parser) (token : Token) (error : SyntaxError) :
    Leads p (p.recordAt token error) := record ..

end Leads

/-! ## tokens -/

@[simp] theorem pending_record (p : Parser) (error : SyntaxError) (line : Nat) (place : Place) :
    (p.record error line place).pending = p.pending := by
  unfold record
  split <;> rfl

@[simp] theorem current_record (p : Parser) (error : SyntaxError) (line : Nat) (place : Place) :
    (p.record error line place).current = p.current := by
  unfold record
  split <;> rfl

theorem diagnostics_record_ne_nil {p : Parser} (hp : p.panicking = false) (error : SyntaxError)
    (line : Nat) (place : Place) : (p.record error line place).diagnostics ≠ [] := by
  simp [record, hp]

namespace Leads

theorem recordFaults (p : Parser) (faults : List LexicalFault) :
    Leads p (p.recordFaults faults) := by
  induction faults generalizing p with
  | nil => exact refl p
  | cons fault faults ih => exact (record p _ _ _).trans (ih _)

end Leads

/-- Faults passed by a parser that does not panic leave a diagnostic. -/
theorem faults_eq_nil_of_recordFaults {p : Parser} (hp : p.panicking = false)
    {faults : List LexicalFault} (h : (p.recordFaults faults).diagnostics = []) : faults = [] := by
  cases faults with
  | nil => rfl
  | cons fault faults =>
    have hfirst := diagnostics_record_ne_nil hp (.lexical fault.error) fault.line .nowhere
    exact absurd ((Leads.recordFaults _ faults).keeps h) hfirst

namespace Leads

theorem take (p : Parser) : Leads p p.take := by
  unfold Parser.take
  split
  · next hpending => exact ⟨id, List.prefix_refl _, hpending ▸ List.suffix_refl _⟩
  · next faults token rest hpending =>
    have hfaults := recordFaults p faults
    refine ⟨?_, hfaults.extend, by rw [hpending]; exact List.suffix_cons _ _⟩
    rintro all haccounts
    obtain ⟨passed, lexed, hall, hcurrent, hquiet⟩ := haccounts
    obtain ⟨_, _, _, _, hquiet'⟩ := hfaults.accounts ⟨passed, lexed, hall, hcurrent, hquiet⟩
    refine ⟨passed ++ [lexed], ⟨faults, token⟩, by simp [hall, hpending], rfl, fun hnone => ?_⟩
    obtain ⟨hpanicking, -, hpassed⟩ := hquiet (hfaults.keeps hnone)
    obtain ⟨hpanicking', hoverflowed', -⟩ := hquiet' hnone
    refine ⟨hpanicking', hoverflowed', ?_⟩
    intro seen hseen
    rcases List.mem_append.1 hseen with hold | hnew
    · exact hpassed seen hold
    · obtain rfl := List.mem_singleton.1 hnew
      -- the faults of the token taken now would have been recorded
      exact faults_eq_nil_of_recordFaults hpanicking hnone

theorem expect (p : Parser) (kind : TokenKind) (error : SyntaxError) :
    Leads p (p.expect kind error).2 := by
  unfold Parser.expect
  split
  · exact take p
  · exact recordAt p _ _

/-- Only a parser that complains, or is made to, overflows. -/
theorem request (p : Parser) (constant : Constant) : Leads p (p.request constant) := by
  unfold Parser.request
  split
  · exact ⟨id, List.prefix_refl _, List.suffix_refl _⟩
  · have hrecord := recordAt { p with constants := p.constants ++ [constant] } p.previous
      .tooManyConstants
    refine ⟨?_, hrecord.extend, hrecord.suffix⟩
    rintro all ⟨passed, lexed, hall, hcurrent, hquiet⟩
    refine ⟨passed, lexed, by simpa [Parser.recordAt] using hall,
      by simpa [Parser.recordAt] using hcurrent, fun hnone => ?_⟩
    have hasked : ({ p with constants := p.constants ++ [constant] } : Parser).panicking = false :=
      (hquiet (hrecord.keeps hnone)).1
    exact absurd hnone (diagnostics_record_ne_nil hasked _ _ _)

end Leads

/-! ## calls -/

theorem Move.leads {p q : Parser} (h : Move p q) : Leads p q := by
  cases h with
  | take => exact .take p
  | blame error _ => exact .recordAt p p.current error
  | blamePrevious error _ => exact .recordAt p p.previous error
  | request constant => exact .request p constant

theorem Moves.leads {p q : Parser} (h : Moves p q) : Leads p q :=
  h.keeps (fun hmove hleads => hleads.trans hmove.leads) (.refl p)

namespace Leads

theorem operand (levels : Nat) (floor : Precedence) (p : Parser) :
    Leads p (Parser.operand levels floor p).2 := (Moves.operand levels floor p).leads

theorem expression (p : Parser) : Leads p p.expression.2 := (Moves.expression p).leads

theorem declaration_request (p : Parser) :
    let named := (p.expect .identifier .variableNameExpected).2
    Leads (named.request (.text named.previous.lexeme)) p.declaration.2 :=
  (Moves.declaration_request p).leads

theorem declaration_expect (p : Parser) :
    Leads (p.expect .identifier .variableNameExpected).2 p.declaration.2 :=
  (Moves.declaration_expect p).leads

/-! ## statements -/

theorem calm (p : Parser) : Leads p { p with panicking := false } := by
  refine ⟨?_, List.prefix_refl _, List.suffix_refl _⟩
  rintro all ⟨passed, lexed, hall, hcurrent, hquiet⟩
  exact ⟨passed, lexed, hall, hcurrent, fun hnone => ⟨rfl, (hquiet hnone).2⟩⟩

theorem recover (p : Parser) : Leads p p.recover :=
  (Moves.skipToBoundary p.pending.length p).leads.trans (calm _)

theorem statement_unrecovered (p : Parser) : Leads p.unrecovered.2 p.statement.2 := by
  simp only [Parser.statement]
  split
  · exact recover _
  · exact refl _

theorem statement_take (p : Parser) : Leads p.take p.statement.2 :=
  (Moves.unrecovered_take p).leads.trans (statement_unrecovered p)

theorem statement (p : Parser) : Leads p p.statement.2 := (take p).trans (statement_take p)

theorem statements (count : Nat) (p : Parser) : Leads p (p.statements count).2 := by
  induction count generalizing p with
  | zero => exact refl p
  | succ count ih =>
    unfold Parser.statements
    split
    · exact refl p
    · split
      · exact take p
      · exact (statement p).trans (ih _)

end Leads

end Parser

end Lox
