import Lox.Proofs.Parser.Hushed

/-!
# Lox.Proofs.Parser.Crossing

Where one source ends and another one follows.

Two parsers read the same tokens up to a semicolon.  After it one of them finds
the end marker and the other one more tokens (`Seam`).  If the semicolon ends a
statement, both have recorded the same by then, and go on from the next token.
If it is taken for an operand that is missing, the first parser stops, and the
second one may read on, panicking: an expression that begins with an operator
is taken for the rest of the broken one.  It gets no further than the
semicolon after that expression, and it says nothing about what it takes
(`Past`).
-/

namespace Lox

open Awaiting

namespace Parser

variable {p q : Parser} {n count count' : Nat} {l : List Lexed} {lexed : Lexed}

/-- Tokens that follow on another source: first what a broken expression would
go on with, if anything, and then `stop`, with which it would not. -/
structure Sequel where
  next : Token
  rest : List Token
  whole : List Token
  stop : Token
  after : List Token
  split : next :: rest = whole ++ stop :: after
  closed : Sealed (next :: rest)
  continues : Continues whole
  isInner : ∀ token ∈ whole, token.kind.isInner = true
  stop_loose : stop.kind.binaryOp? = none
  stop_ne_paren : stop.kind ≠ .rightParen
  stop_ne_equal : stop.kind ≠ .equal
  stop_semicolon : stop.kind = .semicolon ↔ whole ≠ []

/-- The place behind the last token of a source, where another source follows.
The source at hand has the faults that it ends with and its end marker there,
the joined one the same faults and the tokens that follow. -/
structure Seam extends Sequel where
  faults : List LexicalFault
  marker : Token
  marker_kind : marker.kind = .endOfInput

theorem Sequel.after_ne_nil (s : Sequel) (h : s.whole ≠ []) : s.after ≠ [] := by
  intro hnil
  have hended := s.closed.ended
  rw [s.split, hnil] at hended
  have hstop := hended.suffix.kind_of_singleton
  rw [s.stop_semicolon.2 h] at hstop
  cases hstop

/-- What is pending where the source at hand ends. -/
def Seam.ending (s : Seam) : List Lexed := [⟨s.faults, s.marker⟩]

/-- What is pending there in the joined source. -/
def Seam.following (s : Seam) : List Lexed := ⟨s.faults, s.next⟩ :: s.rest.map (Lexed.mk [])

/-! ## before the seam -/

theorem recordFaults_pending (p : Parser) (faults : List LexicalFault) (pending : List Lexed) :
    ({ p with pending := pending } : Parser).recordFaults faults =
      { p.recordFaults faults with pending := pending } := by
  cases faults with
  | nil => rfl
  | cons fault faults =>
    simp only [recordFaults_cons, record]
    split <;> rfl

theorem recordAt_pending (p : Parser) (token : Token) (error : SyntaxError)
    (pending : List Lexed) :
    ({ p with pending := pending } : Parser).recordAt token error =
      { p.recordAt token error with pending := pending } := by
  simp only [recordAt, record]
  split <;> rfl

/-- With these tokens pending before the seam, and the last of them a
semicolon, two parsers have done the same so far. -/
structure Split (s : Seam) (n : Nat) (l : List Lexed) (p q : Parser) : Prop where
  pending : p.pending = l ++ s.ending
  joined : q = { p with pending := l ++ s.following }
  closes : ∃ semicolon, (p.current :: l.map Lexed.token).getLast? = some semicolon ∧
    semicolon.kind = .semicolon
  goes : ∀ token ∈ p.current :: l.map Lexed.token, token.kind ≠ .endOfInput
  levels : q.pending.length ≤ n
  roomy : q.Roomy

namespace Split

variable {s : Seam}

theorem pending_joined (h : Split s n l p q) : q.pending = l ++ s.following := by
  rw [h.joined]

theorem ended (h : Split s n l p q) : Ended p.ahead ∧ Ended q.ahead := by
  refine ⟨⟨p.current :: l.map Lexed.token, s.marker, ?_, s.marker_kind⟩, ?_⟩
  · simp [ahead, h.pending, Seam.ending]
  · obtain ⟨init, last, heq, hlast⟩ := s.closed.ended
    refine ⟨q.current :: l.map Lexed.token ++ init, last, ?_, hlast⟩
    have htokens : s.following.map Lexed.token = s.next :: s.rest := by
      simp only [Seam.following, List.map_cons, List.map_map]
      exact congrArg _ (List.map_id _)
    rw [ahead, h.pending_joined, List.map_append, htokens, heq]
    simp

/-- Only the semicolon stands right before the seam. -/
theorem exists_cons (h : Split s n l p q) (hkind : p.current.kind ≠ .semicolon) :
    ∃ lexed more, l = lexed :: more := by
  cases l with
  | nil =>
    obtain ⟨semicolon, hlast, hsemicolon⟩ := h.closes
    obtain rfl := Option.some.inj hlast
    exact absurd hsemicolon hkind
  | cons lexed more => exact ⟨lexed, more, rfl⟩

/-- One more token is taken, by parsers that may only just begin. -/
theorem of_take (hpending : p.pending = lexed :: (l ++ s.ending))
    (hjoined : q = { p with pending := lexed :: (l ++ s.following) })
    (hcloses : ∃ semicolon, (lexed.token :: l.map Lexed.token).getLast? = some semicolon ∧
      semicolon.kind = .semicolon)
    (hgoes : ∀ token ∈ lexed.token :: l.map Lexed.token, token.kind ≠ .endOfInput)
    (hlevels : q.take.pending.length ≤ n) (hroomy : q.take.Roomy) :
    Split s n l p.take q.take := by
  have hcurrent : p.take.current = lexed.token := by simp [Parser.take, hpending]
  refine ⟨by simp [hpending], ?_, by rwa [hcurrent], by rwa [hcurrent], hlevels, hroomy⟩
  rw [hjoined]
  simp [Parser.take, hpending, recordFaults_pending]

theorem take (h : Split s (n + 1) (lexed :: l) p q) : Split s n l p.take q.take := by
  have hlevels := h.levels
  refine of_take h.pending h.joined (by simpa using h.closes)
    (fun token htoken => h.goes token (List.mem_cons_of_mem _ (by simpa using htoken))) ?_
    h.roomy.take
  rw [length_pending_take]
  omega

theorem weaken (h : Split s n l p q) : Split s (n + 1) l p q :=
  { h with levels := Nat.le_succ_of_le h.levels }

theorem recordAt (h : Split s n l p q) (token : Token) (error : SyntaxError) :
    Split s n l (p.recordAt token error) (q.recordAt token error) := by
  refine ⟨by simpa [Parser.recordAt] using h.pending, ?_,
    by simpa [Parser.recordAt] using h.closes, by simpa [Parser.recordAt] using h.goes,
    by simpa [Parser.recordAt] using h.levels, h.roomy.recordAt _ _⟩
  rw [h.joined, recordAt_pending]

theorem request (h : Split s n l p q)
    (hroom : q.constants.length + q.pending.length < poolCapacity) (constant : Constant) :
    Split s n l (p.request constant) (q.request constant) := by
  have hroomy := h.roomy.request hroom constant
  have hconstants : p.constants = q.constants := by rw [h.joined]
  have hq : q.constants.length < poolCapacity := by omega
  have hp : p.constants.length < poolCapacity := by rwa [hconstants]
  rw [request_of_lt hq] at hroomy ⊢
  rw [request_of_lt hp]
  refine ⟨h.pending, ?_, h.closes, h.goes, h.levels, hroomy⟩
  rw [h.joined]

theorem lt_take (h : Split s n l p q) :
    q.take.constants.length + q.take.pending.length < poolCapacity :=
  h.roomy.lt_take (by simp [h.pending_joined, Seam.following])

end Split

/-! ## past the seam -/

/-- One parser is at its end, and the other one has taken a semicolon last and
goes on with what follows, or with what follows less an expression and its
semicolon.  Both have recorded the same. -/
structure Past (s : Seam) (p q : Parser) : Prop where
  pending : p.pending = []
  ended : p.current.kind = .endOfInput
  overflowed : p.overflowed = false
  diagnostics : q.diagnostics = p.diagnostics
  panicking : q.panicking = p.panicking
  roomy : q.Roomy
  faultless : ∀ lexed ∈ q.pending, lexed.faults = []
  previous : q.previous.kind = .semicolon
  ahead : q.ahead = s.next :: s.rest ∨ s.whole ≠ [] ∧ q.ahead = s.after

/-- One parser is at its end, and the other one reads on in the belief that it
is still inside the same statement; both panic. -/
structure Apart (s : Seam) (n : Nat) (p q : Parser) : Prop where
  pending : p.pending = []
  ended : p.current.kind = .endOfInput
  overflowed : p.overflowed = false
  panicking : p.panicking = true
  hushed : Hushed p.diagnostics q
  faultless : ∀ lexed ∈ q.pending, lexed.faults = []
  levels : q.pending.length ≤ n
  closed : Sealed q.ahead
  ahead : ∃ tokens, q.ahead = tokens ++ s.stop :: s.after ∧ Continues tokens ∧
    (q.previous.kind = .semicolon ∧ tokens = s.whole ∨
      q.previous ∈ s.whole ∧ tokens <:+ s.whole)

namespace Split

variable {s : Seam}

/-- Both parsers take the semicolon. -/
theorem take_last (h : Split s n [] p q) :
    Past s p.take q.take ∧ q.take.ahead = s.next :: s.rest := by
  have hpending : p.pending = [⟨s.faults, s.marker⟩] := h.pending
  have hjoined : q = { p with pending := ⟨s.faults, s.next⟩ :: s.rest.map (Lexed.mk []) } :=
    h.joined
  have hp : p.take = { p.recordFaults s.faults with
      pending := [], current := s.marker, previous := p.current, taken := p.taken + 1 } := by
    rw [Parser.take, hpending]
  have hq : q.take = { p.recordFaults s.faults with
      pending := s.rest.map (Lexed.mk []), current := s.next, previous := p.current,
      taken := p.taken + 1 } := by
    rw [hjoined, Parser.take]
    simp only [recordFaults_pending]
  have hahead : q.take.ahead = s.next :: s.rest := by
    rw [hq]
    simp only [Parser.ahead, List.map_map]
    exact congrArg _ (List.map_id _)
  obtain ⟨semicolon, hlast, hsemicolon⟩ := h.closes
  obtain rfl := Option.some.inj hlast
  have hoverflowed : p.take.overflowed = false := by
    have hroomy := h.roomy.overflowed
    rw [hjoined] at hroomy
    simpa using hroomy
  refine ⟨⟨by rw [hp], by rw [hp]; exact s.marker_kind, hoverflowed, by rw [hp, hq], by rw [hp, hq],
    h.roomy.take, ?_, by rw [hq]; exact hsemicolon, .inl hahead⟩, hahead⟩
  rw [hq]
  intro lexed hlexed
  obtain ⟨token, -, rfl⟩ := List.mem_map.1 hlexed
  rfl

/-- The semicolon is taken for a missing operand. -/
theorem refuse (h : Split s (n + 1) [] p q) (error : SyntaxError) :
    Apart s n (p.take.recordAt p.current error) (q.take.recordAt q.current error) := by
  obtain ⟨hpast, hahead⟩ := h.take_last
  have hcurrent : q.current = p.current := by rw [h.joined]
  have hlevels := h.levels
  have hrecorded : (p.take.recordAt p.current error).panicking = true ∧
      (q.take.recordAt p.current error).panicking = true ∧
      (q.take.recordAt p.current error).diagnostics =
        (p.take.recordAt p.current error).diagnostics := by
    simp only [Parser.recordAt, record, hpast.panicking, hpast.diagnostics]
    split
    · next hpanicking => exact ⟨hpanicking, hpast.panicking.trans hpanicking, hpast.diagnostics⟩
    · exact ⟨rfl, rfl, rfl⟩
  rw [hcurrent]
  refine ⟨by simpa [Parser.recordAt] using hpast.pending,
    by simpa [Parser.recordAt] using hpast.ended, by simpa [Parser.recordAt] using hpast.overflowed,
    hrecorded.1, ⟨hrecorded.2.1, hrecorded.2.2, hpast.roomy.recordAt _ _⟩,
    by simpa [Parser.recordAt] using hpast.faultless, ?_, ?_, s.whole, ?_, s.continues,
    .inl ⟨?_, rfl⟩⟩
  · simp only [Parser.recordAt, pending_record, length_pending_take]
    omega
  · rw [ahead_recordAt, hahead]
    exact s.closed
  · rw [ahead_recordAt, hahead, s.split]
  · simpa [Parser.recordAt] using hpast.previous

end Split

namespace Apart

variable {s : Seam} {left left' : Option Expr} {floor : Precedence}

theorem weaken (h : Apart s n p q) : Apart s (n + 1) p q :=
  { h with levels := Nat.le_succ_of_le h.levels }

/-- What is ahead continues the expression, or ends it. -/
theorem current (h : Apart s n p q) :
    q.current.kind.binaryOp?.isSome = true ∨ q.current = s.stop := by
  obtain ⟨tokens, hahead, hcontinues, -⟩ := h.ahead
  cases tokens with
  | nil => exact .inr (List.cons.inj hahead).1
  | cons first tokens =>
    obtain rfl : q.current = first := (List.cons.inj hahead).1
    exact .inl (continues_cons.1 hcontinues).1

theorem current_ne (h : Apart s n p q) {kind : TokenKind} (hkind : kind.binaryOp? = none)
    (hstop : s.stop.kind ≠ kind) : q.current.kind ≠ kind := by
  rcases h.current with hop | heq
  · rintro rfl
    simp [hkind] at hop
  · rwa [heq]

/-- The loop takes operators with their operands, up to the end of the
expression at most. -/
theorem trailing (h : Apart s n p q) (hcount : q.pending.length ≤ count) (floor : Precedence)
    (left : Option Expr) : Apart s n p (trailing (operand n) floor count left q).2 := by
  induction count generalizing q left with
  | zero => exact h
  | succ count ih =>
    by_cases hgo : ∃ op, q.current.kind.binaryOp? = some op ∧ floor ≤ op.precedence
    case neg =>
      rw [trailing_stop fun op hop hle => hgo ⟨op, hop, hle⟩]
      exact h
    obtain ⟨op, hop, hle⟩ := hgo
    obtain ⟨tokens, hahead, hcontinues, hplace⟩ := h.ahead
    cases tokens with
    | nil =>
      obtain heq : q.current = s.stop := (List.cons.inj hahead).1
      rw [heq, s.stop_loose] at hop
      cases hop
    | cons first tokens =>
      obtain rfl : q.current = first := (List.cons.inj hahead).1
      have hpending := pending_ne_nil h.closed.ended (ne_of_binaryOp? hop rfl)
      have hlength := List.length_pos_iff.2 hpending
      have htake : q.take.ahead = tokens ++ s.stop :: s.after := by
        rw [ahead_take hpending] at hahead
        exact (List.cons.inj hahead).2
      have hwhole : s.whole ≠ [] := by
        rintro hnil
        rcases hplace with ⟨-, hwhole⟩ | ⟨hmem, -⟩
        · rw [hnil] at hwhole
          cases hwhole
        · rw [hnil] at hmem
          cases hmem
      have hsuffix : q.current :: tokens <:+ s.whole := by
        rcases hplace with ⟨-, hwhole⟩ | ⟨-, hsuffix⟩
        · exact hwhole ▸ List.suffix_refl _
        · exact hsuffix
      have hsealed := sealed_take h.closed
      have hlevels := h.levels
      have hshort : q.take.ahead.length ≤ n := by
        simp only [Parser.ahead, List.length_cons, List.length_map, length_pending_take]
        omega
      have htracked := tracks n op.precedence.tighter q.take hsealed
      rw [show decide (op.precedence.tighter ≤ .assignment) = false by cases op <;> decide]
        at htracked
      obtain ⟨taken, more, rfl, hmore, hrest, hprevious⟩ := htracked.of_completes
        htake (continues_cons.1 hcontinues).2 (s.stop_semicolon.2 hwhole) hshort
      have hleads := (Leads.take q).trans (Leads.operand n op.precedence.tighter q.take)
      have hless := (Leads.operand n op.precedence.tighter q.take).suffix.length_le
      rw [length_pending_take] at hless
      have hmem : (operand n op.precedence.tighter q.take).2.previous ∈ s.whole := by
        refine hsuffix.subset ?_
        rw [previous_take] at hprevious
        exact List.mem_cons.2 ((List.mem_cons.1 hprevious).imp_right (List.mem_append_left _))
      rw [trailing_go hop hle]
      refine ih ⟨h.pending, h.ended, h.overflowed, h.panicking, h.hushed.take.operand hsealed _ _,
        fun lexed hlexed => h.faultless lexed (hleads.suffix.subset hlexed), by omega, ?_, more,
        hrest, hmore, .inr ⟨hmem, ?_⟩⟩ (by omega) _
      · rw [htake, List.append_assoc, ← hrest] at hsealed
        exact hsealed.suffix (by simp [Parser.ahead])
      · exact ((List.suffix_append taken more).trans (List.suffix_cons _ _)).trans hsuffix

end Apart

/-! ## up to the seam and past it -/

variable {s : Seam}

/-- Two parsers before the seam that have done the same so far. -/
def Short (s : Seam) (n : Nat) (p q : Parser) : Prop := ∃ l, Split s n l p q

theorem Short.lockstep (s : Seam) : Lockstep (Short s) (Apart s) where
  kind := by
    rintro n p q ⟨l, h⟩
    rw [h.joined]
  ended := by
    rintro n p q ⟨l, h⟩
    exact h.ended
  weaken := by
    rintro n p q ⟨l, h⟩
    exact ⟨l, h.weaken⟩
  take := by
    rintro n p q ⟨l, h⟩ hsemicolon -
    obtain ⟨lexed, more, rfl⟩ := h.exists_cons hsemicolon
    exact ⟨more, h.take⟩
  pool := by
    rintro n p q constant ⟨l, h⟩ hpooled
    obtain ⟨lexed, more, rfl⟩ :=
      h.exists_cons fun hsemicolon => by simp [hsemicolon, TokenKind.isPooled] at hpooled
    rw [show q.current = p.current by rw [h.joined]]
    exact ⟨more, h.take.request h.lt_take _⟩
  unnamed := by
    rintro n p q ⟨l, h⟩ hvar
    obtain ⟨lexed, more, rfl⟩ := h.exists_cons (by rw [hvar]; decide)
    have hcurrent : q.take.current = p.take.current := by rw [h.take.joined]
    rw [hcurrent, show q.current = p.current by rw [h.joined]]
    exact ⟨more, (h.take.recordAt _ _).request (by simpa [recordAt] using h.lt_take) _⟩
  refuse := by
    rintro n p q ⟨l, h⟩ -
    cases l with
    | nil => exact .inr (h.refuse _)
    | cons lexed more =>
      rw [show q.current = p.current by rw [h.joined]]
      exact .inl ⟨more, h.take.recordAt _ _⟩
  blame := by
    rintro n p q ⟨l, h⟩ hequal
    obtain ⟨lexed, more, rfl⟩ := h.exists_cons (by rw [hequal]; decide)
    rw [show q.current = p.current by rw [h.joined]]
    exact ⟨more, h.take.recordAt _ _⟩
  complain := by
    rintro n p q error ⟨l, h⟩
    rw [show q.current = p.current by rw [h.joined]]
    exact ⟨l, h.recordAt _ _⟩
  parted_weaken h := h.weaken
  parted_expect := by
    intro n p q h
    rw [expect_of_ne (by rw [h.ended]; decide), Hushed.recordAt_eq h.panicking,
      expect_of_ne (h.current_ne rfl s.stop_ne_paren), Hushed.recordAt_eq h.hushed.panicking]
    exact h
  parted_trailing := by
    intro n count count' p q left left' floor h _ hcount'
    rw [trailing_stop (by simp [h.ended, TokenKind.binaryOp?])]
    exact h.trailing hcount' floor left'
  parted_settle := by
    intro n p q tree tree' assignable h
    rw [settle_of_ne (by simp [h.ended]),
      settle_of_ne fun _ => h.current_ne rfl s.stop_ne_equal]
    exact h

theorem Split.calm (h : Split s n l p q) :
    Split s n l { p with panicking := false } { q with panicking := false } := by
  refine ⟨h.pending, ?_, h.closes, h.goes, h.levels, h.roomy.overflowed, h.roomy.room⟩
  rw [h.joined]

/-- One more token is taken, the semicolon at the seam perhaps. -/
theorem Short.advance (h : Short s n p q) : Short s n p.take q.take ∨ Past s p.take q.take := by
  obtain ⟨l, h⟩ := h
  cases l with
  | nil => exact .inr h.take_last.1
  | cons lexed more => exact .inl ⟨more, h.weaken.take⟩

namespace Past

theorem atBoundary (h : Past s p q) : p.atBoundary = true ∧ q.atBoundary = true := by
  simp [Parser.atBoundary, h.ended, h.previous]

theorem calm (h : Past s p q) :
    Past s { p with panicking := false } { q with panicking := false } :=
  { h with panicking := rfl, roomy := ⟨h.roomy.overflowed, h.roomy.room⟩ }

theorem recover (h : Past s p q) : Past s p.recover q.recover := by
  rw [recover_of_atBoundary h.atBoundary.1, recover_of_atBoundary h.atBoundary.2]
  exact h.calm

end Past

theorem Short.skipToBoundary (h : Short s n p q) (hcount : p.pending.length ≤ count)
    (hcount' : q.pending.length ≤ count') :
    Short s n (p.skipToBoundary count) (q.skipToBoundary count') ∨
      Past s (p.skipToBoundary count) (q.skipToBoundary count') := by
  induction count generalizing p q count' with
  | zero =>
    obtain ⟨l, h⟩ := h
    simp [h.pending, Seam.ending] at hcount
  | succ count ih =>
    have hjoined : q.atBoundary = p.atBoundary := by
      obtain ⟨l, h⟩ := h
      rw [h.joined]
      rfl
    have hpending' : 0 < q.pending.length := by
      obtain ⟨l, h⟩ := h
      rw [h.pending_joined, Seam.following, List.length_append, List.length_cons]
      omega
    obtain ⟨count', rfl⟩ : ∃ m, count' = m + 1 := ⟨count' - 1, by omega⟩
    cases hboundary : p.atBoundary with
    | true =>
      rw [skipToBoundary_of_atBoundary hboundary,
        skipToBoundary_of_atBoundary (hjoined.trans hboundary)]
      exact .inl h
    | false =>
      simp only [Parser.skipToBoundary, hjoined, hboundary]
      have hless {r : Parser} {m : Nat} (hm : r.pending.length ≤ m + 1) :
          r.take.pending.length ≤ m := by
        rw [length_pending_take]
        omega
      rcases h.advance with hshort | hpast
      · exact ih hshort (hless hcount) (hless hcount')
      · rw [skipToBoundary_of_atBoundary hpast.atBoundary.1,
          skipToBoundary_of_atBoundary hpast.atBoundary.2]
        exact .inr hpast

theorem Short.recover (h : Short s n p q) :
    Short s n p.recover q.recover ∨ Past s p.recover q.recover := by
  rcases h.skipToBoundary (Nat.le_refl _) (Nat.le_refl _) with ⟨l, hsplit⟩ | hpast
  · exact .inl ⟨l, hsplit.calm⟩
  · exact .inr hpast.calm

namespace Apart

/-- A hushed parser that has found a boundary is past the seam. -/
theorem past (h : Apart s n p q) {r : Parser} (hhushed : Hushed p.diagnostics r)
    (hsuffix : r.pending <:+ q.pending) (hprevious : r.previous.kind = .semicolon)
    (hahead : r.ahead = s.next :: s.rest ∨ s.whole ≠ [] ∧ r.ahead = s.after) :
    Past s p r :=
  ⟨h.pending, h.ended, h.overflowed, hhushed.diagnostics,
    hhushed.panicking.trans h.panicking.symm, hhushed.roomy,
    fun lexed hlexed => h.faultless lexed (hsuffix.subset hlexed), hprevious, hahead⟩

/-- At the end of the statement the first parser is at its end anyway, and the
second one recovers between two statements of what follows. -/
theorem recover (h : Apart s n p q) (error : SyntaxError) :
    (q.expect .semicolon error).2.panicking = true ∧
      Past s p.recover (q.expect .semicolon error).2.recover := by
  have hp : p.recover = { p with panicking := false } := by
    refine recover_of_atBoundary ?_
    simp [atBoundary, h.ended]
  obtain ⟨tokens, hahead, hcontinues, hplace⟩ := h.ahead
  have hstays (hne : q.current.kind ≠ .semicolon) : (q.expect .semicolon error).2 = q := by
    rw [expect_of_ne hne, Hushed.recordAt_eq h.hushed.panicking]
  rcases hplace with ⟨hprevious, rfl⟩ | ⟨hmem, hsuffix⟩
  · -- nothing of what follows has been taken
    have hne : q.current.kind ≠ .semicolon := by
      rcases h.current with hop | heq
      · intro hsemicolon
        simp [hsemicolon, TokenKind.binaryOp?] at hop
      · intro hsemicolon
        rw [heq, s.stop_semicolon] at hsemicolon
        obtain ⟨first, more, hwhole⟩ := List.exists_cons_of_ne_nil hsemicolon
        rw [hwhole] at hahead hcontinues
        obtain rfl : q.current = first := (List.cons.inj hahead).1
        have hop := (continues_cons.1 hcontinues).1
        rw [heq, s.stop_loose] at hop
        cases hop
    have hpast := h.past h.hushed (List.suffix_refl _) hprevious (.inl (by rw [hahead, s.split]))
    rw [hstays hne, hp, recover_of_atBoundary hpast.atBoundary.2]
    exact ⟨h.hushed.panicking, hpast.calm⟩
  · have hwhole : s.whole ≠ [] := List.ne_nil_of_mem hmem
    have hstop := s.stop_semicolon.2 hwhole
    have hinner : ∀ token ∈ s.whole, token.kind ≠ .semicolon := by
      intro token htoken hsemicolon
      have hisInner := s.isInner token htoken
      simp [TokenKind.isInner, hsemicolon] at hisInner
    by_cases hkind : q.current.kind = .semicolon
    · obtain rfl : tokens = [] := by
        cases tokens with
        | nil => rfl
        | cons first more =>
          obtain rfl : q.current = first := (List.cons.inj hahead).1
          exact absurd hkind (hinner _ (hsuffix.subset (.head _)))
      have hpending := pending_ne_nil h.closed.ended (by rw [hkind]; decide)
      rw [ahead_take hpending] at hahead
      have hpast := h.past h.hushed.take (Leads.take q).suffix (by rw [previous_take, hkind])
        (.inr ⟨hwhole, (List.cons.inj hahead).2⟩)
      rw [expect_of_eq hkind, hp, recover_of_atBoundary hpast.atBoundary.2]
      exact ⟨h.hushed.take.panicking, hpast.calm⟩
    · have hskip := h.hushed.skipToBoundary hahead
        (fun token htoken => s.isInner token (hsuffix.subset htoken)) hstop
        (s.toSequel.after_ne_nil hwhole) (hinner _ hmem) (Nat.le_refl _)
      have hpast := h.past hskip.1 hskip.2.2.2 (by rw [hskip.2.2.1, hstop])
        (.inr ⟨hwhole, hskip.2.1⟩)
      rw [hstays hkind, hp]
      exact ⟨h.hushed.panicking, hpast.calm⟩

end Apart

/-- Reading a statement, both parsers stay before the seam, or both get
past. -/
theorem Short.statement (h : Short s nestingLimit p q) :
    Short s nestingLimit p.statement.2 q.statement.2 ∨ Past s p.statement.2 q.statement.2 := by
  obtain ⟨clause, p', q', hjoint, hp, hq⟩ := (Short.lockstep s).unrecovered h
  simp only [Parser.statement]
  rw [hp, hq]
  rcases hjoint with hshort | hapart
  · have hcurrent : q'.current = p'.current := by
      obtain ⟨l, hsplit⟩ := hshort
      rw [hsplit.joined]
    have hstep {error : SyntaxError} :
        Short s nestingLimit (p'.expect .semicolon error).2 (q'.expect .semicolon error).2 ∨
          Past s (p'.expect .semicolon error).2 (q'.expect .semicolon error).2 := by
      by_cases hkind : p'.current.kind = .semicolon
      · rw [expect_of_eq hkind, expect_of_eq (hcurrent ▸ hkind)]
        exact hshort.advance
      · rw [expect_of_ne hkind, expect_of_ne (hcurrent ▸ hkind)]
        exact .inl ((Short.lockstep s).complain _ hshort)
    rcases hstep with hshort | hpast
    · have hpanicking {r t : Parser} (h : Short s nestingLimit r t) :
          t.panicking = r.panicking := by
        obtain ⟨l, hsplit⟩ := h
        rw [hsplit.joined]
      rw [hpanicking hshort]
      split
      · exact hshort.recover
      · exact .inl hshort
    · rw [hpast.panicking]
      split
      · exact .inr hpast.recover
      · exact .inr hpast
  · have hrecover := hapart.recover (.semicolonExpected clause)
    rw [if_pos hrecover.1, expect_of_ne (by rw [hapart.ended]; decide),
      Hushed.recordAt_eq hapart.panicking, if_pos hapart.panicking]
    exact .inr hrecover.2

/-- When the first parser is done, the second one is past the seam, with all
that the first one has recorded and nothing else. -/
theorem Short.statements (h : Short s nestingLimit p q) (hcount : p.pending.length < count)
    (hcount' : q.pending.length < count') :
    ∃ p' q' rest, Past s p' q' ∧ q'.panicking = false ∧ q'.pending.length < rest ∧
      (p.statements count).2.diagnostics = p'.diagnostics ∧
      (q.statements count').2 = (q'.statements rest).2 := by
  induction count generalizing p q count' with
  | zero => omega
  | succ count ih =>
    obtain ⟨count', rfl⟩ : ∃ m, count' = m + 1 := ⟨count' - 1, by omega⟩
    have hcurrent : q.current = p.current ∧ p.overflowed = false ∧ q.overflowed = false ∧
        p.current.kind ≠ .endOfInput ∧ Ended p.ahead ∧ Ended q.ahead := by
      obtain ⟨l, hsplit⟩ := h
      have hoverflowed := hsplit.roomy.overflowed
      refine ⟨by rw [hsplit.joined], ?_, hoverflowed, hsplit.goes _ (.head _), hsplit.ended⟩
      rwa [hsplit.joined] at hoverflowed
    obtain ⟨hcurrent, hp, hq, hgo, hended, hended'⟩ := hcurrent
    have hless := length_pending_statement hended hgo
    have hless' := length_pending_statement hended' (hcurrent ▸ hgo)
    rw [statements_of_ne hp hgo, statements_of_ne hq (hcurrent ▸ hgo)]
    rcases h.statement with hshort | hpast
    · exact ih hshort (by omega) (by omega)
    · refine ⟨_, _, count', hpast, panicking_statement q, by omega, ?_, rfl⟩
      obtain ⟨count, rfl⟩ : ∃ m, count = m + 1 := ⟨count - 1, by omega⟩
      rw [statements_end hpast.overflowed hpast.ended]
      exact diagnostics_take_of_nil hpast.pending

end Parser

end Lox
