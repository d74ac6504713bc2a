import Lox.Proofs.Joining
import Lox.Proofs.Parser.Lockstep

/-!
# Lox.Proofs.Parser.Below

A parser that reads the same tokens further down.

What a parser records depends on the tokens ahead only, not on what was read
and said before.  A parser that stands between two statements, with the tokens
of a source ahead but some lines further down, records what it would for the
source alone, as many lines further down (`Below.diagnostics_statements`).
-/

namespace Lox

/-- A diagnostic, some lines further down. -/
def Diagnostic.moved (lines : Nat) (d : Diagnostic) : Diagnostic :=
  { d with line := d.line + lines }

namespace Parser

variable {p q : Parser} {lines count count' : Nat} {said : List Diagnostic}

/-- Ahead of `q` are the tokens that are ahead of `p`, some lines further down,
and since some earlier time, when `said` had been recorded, both have done the
same.  Nothing ahead is at fault or too much for a pool. -/
structure Below (lines : Nat) (said : List Diagnostic) (p q : Parser) : Prop where
  ahead : q.ahead = p.ahead.map (Token.moved lines)
  sealed : Sealed p.ahead
  faultless : ∀ lexed ∈ p.pending ++ q.pending, lexed.faults = []
  previous : q.previous.kind = p.previous.kind
  panicking : q.panicking = p.panicking
  diagnostics : q.diagnostics = said ++ p.diagnostics.map (Diagnostic.moved lines)
  roomy : p.Roomy
  roomy_below : q.Roomy

namespace Below

theorem current (h : Below lines said p q) : q.current = p.current.moved lines :=
  (List.cons.inj h.ahead).1

theorem kind (h : Below lines said p q) : p.current.kind = q.current.kind := by
  rw [h.current]
  rfl

theorem pending (h : Below lines said p q) :
    q.pending.map Lexed.token = (p.pending.map Lexed.token).map (Token.moved lines) :=
  (List.cons.inj h.ahead).2

theorem length_pending (h : Below lines said p q) : q.pending.length = p.pending.length := by
  simpa using congrArg List.length h.pending

theorem sealed_below (h : Below lines said p q) : Sealed q.ahead := by
  obtain ⟨init, last, heq, hlast, hothers⟩ := h.sealed
  refine ⟨init.map (Token.moved lines), last.moved lines, by simp [h.ahead, heq], hlast, ?_⟩
  intro token htoken
  obtain ⟨original, horiginal, rfl⟩ := List.mem_map.1 htoken
  exact hothers original horiginal

/-! ## moves -/

/-- Without a fault on the way nothing is recorded. -/
theorem take_of_faultless (h : ∀ lexed ∈ p.pending, lexed.faults = []) :
    p.take.panicking = p.panicking ∧ p.take.diagnostics = p.diagnostics := by
  unfold Parser.take
  split
  · exact ⟨rfl, rfl⟩
  · next faults token rest hpending =>
    obtain rfl : faults = [] := h ⟨faults, token⟩ (by rw [hpending]; exact .head _)
    exact ⟨rfl, rfl⟩

theorem take (h : Below lines said p q) : Below lines said p.take q.take := by
  have hp := take_of_faultless fun lexed hlexed =>
    h.faultless lexed (List.mem_append_left _ hlexed)
  have hq := take_of_faultless fun lexed hlexed =>
    h.faultless lexed (List.mem_append_right _ hlexed)
  refine ⟨?_, sealed_take h.sealed, ?_, ?_, ?_, ?_, h.roomy.take, h.roomy_below.take⟩
  · have hlength := h.length_pending
    by_cases hpending : p.pending = []
    · have hpending' : q.pending = [] := by simpa [hpending] using hlength
      rw [ahead_take_of_nil hpending, ahead_take_of_nil hpending', h.ahead]
    · have hpending' : q.pending ≠ [] := fun hnil => hpending (by simpa [hnil] using hlength.symm)
      have hahead := h.ahead
      rw [ahead_take hpending, ahead_take hpending'] at hahead
      exact (List.cons.inj hahead).2
  · intro lexed hlexed
    simp only [pending_take] at hlexed
    exact h.faultless lexed ((List.mem_append.1 hlexed).elim
      (fun hmem => List.mem_append_left _ (List.mem_of_mem_tail hmem))
      (fun hmem => List.mem_append_right _ (List.mem_of_mem_tail hmem)))
  · simp [← h.kind]
  · rw [hp.1, hq.1, h.panicking]
  · rw [hp.2, hq.2, h.diagnostics]

theorem recordAt (h : Below lines said p q) (token : Token) (error : SyntaxError) :
    Below lines said (p.recordAt token error) (q.recordAt (token.moved lines) error) := by
  have hrecord : (q.recordAt (token.moved lines) error).panicking =
        (p.recordAt token error).panicking ∧
      (q.recordAt (token.moved lines) error).diagnostics =
        said ++ (p.recordAt token error).diagnostics.map (Diagnostic.moved lines) := by
    simp only [Parser.recordAt, record, h.panicking]
    split
    · exact ⟨h.panicking, h.diagnostics⟩
    · refine ⟨rfl, ?_⟩
      simp only [h.diagnostics, List.map_append, List.append_assoc]
      rfl
  exact ⟨by simpa using h.ahead, by simpa using h.sealed,
    by simpa [Parser.recordAt] using h.faultless, by simpa [Parser.recordAt] using h.previous,
    hrecord.1, hrecord.2, h.roomy.recordAt _ _, h.roomy_below.recordAt _ _⟩

theorem complain (h : Below lines said p q) (error : SyntaxError) :
    Below lines said (p.recordAt p.current error) (q.recordAt q.current error) := by
  rw [h.current]
  exact h.recordAt _ _

theorem request (h : Below lines said p q)
    (hroom : p.constants.length + p.pending.length < poolCapacity)
    (hroom' : q.constants.length + q.pending.length < poolCapacity)
    (constant constant' : Constant) :
    Below lines said (p.request constant) (q.request constant') := by
  have hp := h.roomy.request hroom constant
  have hq := h.roomy_below.request hroom' constant'
  rw [request_of_lt (by omega)] at hp ⊢
  rw [request_of_lt (by omega)] at hq ⊢
  exact ⟨h.ahead, h.sealed, h.faultless, h.previous, h.panicking, h.diagnostics, hp, hq⟩

/-- Taking a token makes room for a constant on both sides. -/
theorem lt_take (h : Below lines said p q) (hgo : p.current.kind ≠ .endOfInput) :
    p.take.constants.length + p.take.pending.length < poolCapacity ∧
      q.take.constants.length + q.take.pending.length < poolCapacity :=
  ⟨h.roomy.lt_take (pending_ne_nil h.sealed.ended hgo),
    h.roomy_below.lt_take (pending_ne_nil h.sealed_below.ended (h.kind ▸ hgo))⟩

/-- Such parsers make the same moves, and never part. -/
theorem lockstep (lines : Nat) (said : List Diagnostic) :
    Lockstep (fun _ => Below lines said) (fun _ _ _ => False) where
  kind h := h.kind
  ended h := ⟨h.sealed.ended, h.sealed_below.ended⟩
  weaken := id
  take h _ _ := h.take
  pool constant h hpooled := by
    have hroom := h.lt_take fun hend => by simp [hend, TokenKind.isPooled] at hpooled
    exact h.take.request hroom.1 hroom.2 _ _
  unnamed h hvar := by
    have hroom := h.lt_take (by rw [hvar]; decide)
    exact (h.take.complain _).request (by simpa [Parser.recordAt] using hroom.1)
      (by simpa [Parser.recordAt] using hroom.2) _ _
  refuse h _ := by
    rw [h.current]
    exact .inl (h.take.recordAt _ _)
  blame h _ := by
    rw [h.current]
    exact h.take.recordAt _ _
  complain error h := h.complain error
  parted_weaken := id
  parted_expect := False.elim
  parted_trailing _ h := h.elim
  parted_settle _ := False.elim

/-! ## statements -/

theorem skipToBoundary (h : Below lines said p q) (count : Nat) :
    Below lines said (p.skipToBoundary count) (q.skipToBoundary count) := by
  induction count generalizing p q with
  | zero => exact h
  | succ count ih =>
    have hboundary : q.atBoundary = p.atBoundary := by
      simp only [atBoundary, h.previous, ← h.kind]
    simp only [Parser.skipToBoundary, hboundary]
    split
    · exact h
    · exact ih h.take

theorem recover (h : Below lines said p q) : Below lines said p.recover q.recover := by
  have hskip := h.skipToBoundary p.pending.length
  rw [Parser.recover, Parser.recover, h.length_pending]
  exact { hskip with
    panicking := rfl
    roomy := ⟨hskip.roomy.overflowed, hskip.roomy.room⟩
    roomy_below := ⟨hskip.roomy_below.overflowed, hskip.roomy_below.room⟩ }

theorem statement (h : Below lines said p q) : Below lines said p.statement.2 q.statement.2 := by
  obtain ⟨clause, p', q', hjoint, hp, hq⟩ := (lockstep lines said).unrecovered h
  have hunrecovered : Below lines said p.unrecovered.2 q.unrecovered.2 := by
    have h' : Below lines said p' q' := hjoint.resolve_right id
    rw [hp, hq]
    by_cases hkind : p'.current.kind = .semicolon
    · rw [expect_of_eq hkind, expect_of_eq (h'.kind ▸ hkind)]
      exact h'.take
    · rw [expect_of_ne hkind, expect_of_ne (h'.kind ▸ hkind)]
      exact h'.complain _
  simp only [Parser.statement, hunrecovered.panicking]
  split
  · exact hunrecovered.recover
  · exact hunrecovered

/-- What is recorded for consecutive statements is recorded further down, after
what was said. -/
theorem diagnostics_statements (h : Below lines said p q) (hcount : p.pending.length < count)
    (hcount' : q.pending.length < count') :
    (q.statements count').2.diagnostics =
      said ++ (p.statements count).2.diagnostics.map (Diagnostic.moved lines) := by
  induction count generalizing p q count' with
  | zero => omega
  | succ count ih =>
    obtain ⟨count', rfl⟩ : ∃ n, count' = n + 1 := ⟨count' - 1, by omega⟩
    by_cases hend : p.current.kind = .endOfInput
    · rw [statements_end h.roomy.overflowed hend,
        statements_end h.roomy_below.overflowed (h.kind ▸ hend)]
      exact h.take.diagnostics
    · rw [statements_of_ne h.roomy.overflowed hend,
        statements_of_ne h.roomy_below.overflowed (h.kind ▸ hend)]
      have hless := length_pending_statement h.sealed.ended hend
      have hless' := length_pending_statement h.sealed_below.ended (h.kind ▸ hend)
      exact ih h.statement (by omega) (by omega)

end Below

end Parser

end Lox
