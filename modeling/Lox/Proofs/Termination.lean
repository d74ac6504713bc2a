import Lox.Proofs.Compiler.Clock
import Lox.Proofs.Compiler.Program
import Lox.Proofs.Parser.Lockstep

/-!
# Lox.Proofs.Termination

Compiling ends.

Every token is taken once, except for the end marker: it may be taken for an
operand, and once more as the end of the source.  What was taken and what is
pending (`Parser.pace`) therefore stays the same up to the end, and grows by two
there at most.  With what a compiler keeps on its way (`Compiler.At`) this
bounds all that it does (`Compiler.returns_within`).
-/

namespace Lox

namespace Parser

variable {p : Parser} {total : Nat}

/-! ## the pace of a parser -/

/-- How many tokens were taken or are pending. -/
def pace (p : Parser) : Nat := p.taken + p.pending.length

theorem taken_le_pace (p : Parser) : p.taken ≤ p.pace := Nat.le_add_right _ _

theorem pace_recordAt (p : Parser) (token : Token) (error : SyntaxError) :
    (p.recordAt token error).pace = p.pace := by
  simp [pace, recordAt]

theorem pace_request (p : Parser) (constant : Constant) : (p.request constant).pace = p.pace := by
  unfold request
  split
  · rfl
  · simp [pace, recordAt]

theorem pace_take (h : p.pending ≠ []) : p.take.pace = p.pace := by
  have hlength := List.length_pos_iff.2 h
  simp only [pace, taken_take, length_pending_take]
  omega

theorem pace_take_of_nil (h : p.pending = []) : p.take.pace = p.pace + 1 := by
  simp only [pace, taken_take, pending_take, h, List.tail_nil, List.length_nil, Nat.add_zero]

theorem pace_take_le (p : Parser) : p.take.pace ≤ p.pace + 1 := by
  by_cases hpending : p.pending = []
  · exact Nat.le_of_eq (pace_take_of_nil hpending)
  · rw [pace_take hpending]
    exact Nat.le_succ _

/-! ## expressions and statements -/

/-- The pace is kept, and one more where the end marker is taken for an
operand. -/
theorem kept_pace (total : Nat) :
    Kept (fun p => p.pace = total) (fun p => p.pace = total + 1) where
  take hsealed hp hgo := by rw [pace_take (pending_ne_nil hsealed.ended hgo), hp]
  pool constant hsealed hp hpooled := by
    rw [pace_request, pace_take (pending_ne_nil hsealed.ended ?_), hp]
    intro hend
    rw [hend] at hpooled
    exact absurd hpooled (by decide)
  unnamed token constant hsealed hp hvar := by
    rw [pace_request, pace_recordAt, pace_take (pending_ne_nil hsealed.ended ?_), hp]
    rw [hvar]
    exact TokenKind.noConfusion
  complain token error hp := by rw [pace_recordAt, hp]
  last hsealed hp hend := by
    rw [pace_recordAt, pace_take_of_nil ((pending_eq_nil_iff hsealed).2 hend), hp]
  last_complain token error hp := by rw [pace_recordAt, hp]

/-- A parser at the pace `total`, or one more at the end. -/
structure Paced (total : Nat) (p : Parser) : Prop where
  isSealed : Sealed p.ahead
  pace : p.pace = total ∨ p.current.kind = .endOfInput ∧ p.pace = total + 1

namespace Paced

theorem expression (h : Sealed p.ahead) : Paced p.pace p.expression.2 := by
  obtain ⟨hsealed, hpace⟩ := (kept_pace p.pace).operand nestingLimit .assignment h rfl
  exact ⟨hsealed, hpace⟩

theorem recordAt (h : Paced total p) (token : Token) (error : SyntaxError) :
    Paced total (p.recordAt token error) := by
  refine ⟨by rw [ahead_recordAt]; exact h.isSealed, ?_⟩
  rw [pace_recordAt, show (p.recordAt token error).current = p.current from current_record ..]
  exact h.pace

/-- Taking a token before the end keeps the pace. -/
theorem take (h : Paced total p) (hgo : p.current.kind ≠ .endOfInput) : Paced total p.take := by
  refine ⟨sealed_take h.isSealed, .inl ?_⟩
  rw [pace_take (pending_ne_nil h.isSealed.ended hgo)]
  exact h.pace.resolve_right fun hend => hgo hend.1

theorem expect (h : Paced total p) {kind : TokenKind} (hkind : kind ≠ .endOfInput)
    (error : SyntaxError) : Paced total (p.expect kind error).2 := by
  by_cases hcurrent : p.current.kind = kind
  · rw [expect_of_eq hcurrent]
    exact h.take (hcurrent ▸ hkind)
  · rw [expect_of_ne hcurrent]
    exact h.recordAt _ _

theorem unrecovered (h : Sealed p.ahead) : Paced p.pace p.unrecovered.2 := by
  obtain ⟨clause, p', hsealed, hpace, hread⟩ := (kept_pace p.pace).unrecovered h rfl
  rw [hread]
  exact expect ⟨hsealed, hpace⟩ (by decide) _

/-- The end marker is a boundary, so it is never skipped. -/
theorem skipToBoundary (h : Paced total p) (count : Nat) :
    Paced total (p.skipToBoundary count) := by
  induction count generalizing p with
  | zero => exact h
  | succ count ih =>
    rw [Parser.skipToBoundary]
    split
    · exact h
    · next hgo => exact ih (h.take fun hend => hgo (by simp [atBoundary, hend]))

theorem recover (h : Paced total p) : Paced total p.recover := by
  obtain ⟨hsealed, hpace⟩ := h.skipToBoundary p.pending.length
  exact ⟨hsealed, hpace⟩

theorem statement (h : Sealed p.ahead) : Paced p.pace p.statement.2 := by
  have hread := unrecovered h
  simp only [Parser.statement]
  split
  · exact hread.recover
  · exact hread

/-- Only the last statement reaches the end, and after it only the end marker is
taken. -/
theorem pace_statements_le (h : Paced total p) (count : Nat) :
    (p.statements count).2.pace ≤ total + 2 := by
  have hpace := h.pace
  induction count generalizing p with
  | zero =>
    show p.pace ≤ total + 2
    omega
  | succ count ih =>
    rw [Parser.statements]
    split
    · show p.pace ≤ total + 2
      omega
    · split
      · have htake := pace_take_le p
        show p.take.pace ≤ total + 2
        omega
      · next hgo =>
        have hstatement := statement h.isSealed
        rw [h.pace.resolve_right fun hend => hgo hend.1] at hstatement
        exact ih hstatement hstatement.pace

end Paced

/-! ## sources -/

/-- The first token is looked at before anything else happens. -/
theorem pace_start (source : Text) : (start source).pace = (tokensOf source).length + 1 := by
  have htaken : (start source).taken = 1 := by simp [start]
  rw [pace, length_pending_start, htaken, Nat.add_comm]

theorem taken_program_le (source : Text) :
    (program source).2.taken ≤ (tokensOf source).length + 3 := by
  have hstart : Paced _ (start source) := ⟨sealed_start source, .inl (pace_start source)⟩
  have hpace := hstart.pace_statements_le ((start source).pending.length + 1)
  exact Nat.le_trans (taken_le_pace _) hpace

theorem taken_query_le (source : Text) :
    (query source).2.taken ≤ (tokensOf source).length + 3 := by
  have hpace := (Paced.expression (sealed_start source)).pace
  rw [pace_start] at hpace
  have hquery : (query source).2 =
      ((start source).expression.2.expect .endOfInput .endExpected).2 := rfl
  refine Nat.le_trans (taken_le_pace _) ?_
  by_cases hend : (start source).expression.2.current.kind = .endOfInput
  · rw [hquery, expect_of_eq hend]
    refine Nat.le_trans (pace_take_le _) ?_
    omega
  · rw [hquery, expect_of_ne hend, pace_recordAt]
    omega

end Parser

/-! ## compilers -/

namespace Compiler

/-- A compiler that kept its bounds: never more than `nestingLimit` open
expressions, each call for an expression as many open after it as before it,
each declaration with a token taken, and few more tokens taken than there
are. -/
structure Within (tokens : Nat) (c : Compiler) : Prop where
  deepest : c.deepest ≤ nestingLimit
  nested : ∀ call ∈ c.nested, call.2 = call.1
  declared : ∀ call ∈ c.declared, call.2 < call.1
  taken : c.parser.taken ≤ tokens + 3

theorem At.within {all : List Lexed} {origin : Heap} {p : Parser} {c : Compiler} {tokens : Nat}
    (h : c.At all origin p) (htaken : p.taken ≤ tokens + 3) : c.Within tokens :=
  ⟨h.deepest, h.nested, h.declared, h.parser ▸ htaken⟩

/-- Compiling in one pass ends without a throw, within its bounds, with the
answer that parsing and lowering give, and leaves the same heap; what is on the
clock makes no difference, if it is enough for the tokens. -/
theorem returns_within (source : Text) (heap : Heap) :
    (∃ c, (∀ more, program ((tokensOf source).length + 2 + more) (start source heap) =
        some (.ok ((Program.compile source heap).1, c))) ∧
      c.heap = (Program.compile source heap).2 ∧ c.Within (tokensOf source).length) ∧
    ∃ c, (∀ more, query ((tokensOf source).length + 2 + more) (start source heap) =
        some (.ok ((Query.compile source heap).1, c))) ∧
      c.heap = (Query.compile source heap).2 ∧ c.Within (tokensOf source).length := by
  obtain ⟨c, hends, hc, hheap⟩ := ends_program source heap (Nat.le_refl _)
  obtain ⟨c', hends', hc', hheap'⟩ := ends_query source heap (Nat.le_refl _)
  have hprogram (more : Nat) := (Outlasts.program (Nat.le_add_right _ more)).ends hends
  have hquery (more : Nat) := (Outlasts.query (Nat.le_add_right _ more)).ends hends'
  exact ⟨⟨c, hprogram, hheap, hc.within (Parser.taken_program_le source)⟩,
    ⟨c', hquery, hheap', hc'.within (Parser.taken_query_le source)⟩⟩

end Compiler

end Lox
