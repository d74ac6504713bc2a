import Lox.Proofs.Parser.Lockstep
import Lox.Proofs.Viability

/-!
# Lox.Proofs.Parser.Tracking

A call of the parser, token by token.

What a call takes is what may stand where it stands: either it takes a phrase
and returns where an operator is awaited, or it stops at a token that may not
stand there, or it stops because it is nested too deeply (`Tracked`).  The last
two leave a diagnostic, and unless something was wrong before, the one at hand
is the first: it is at the token that may not stand there, or about a limit.

This holds at any depth of groups, since a call closes those that it opened.
-/

namespace Lox

namespace Parser

open Awaiting

variable {p q r : Parser} {levels : Nat} {floor : Precedence} {form : PrefixForm}
  {before after : Nat → Awaiting} {next : Bool → Token → Prop} {token : Token}

/-! ## the first diagnostic -/

/-- Nothing has gone wrong, and no fault is ahead. -/
structure Calm (p : Parser) : Prop where
  panicking : p.panicking = false
  diagnostics : p.diagnostics = []
  faultless : ∀ lexed ∈ p.pending, lexed.faults = []

/-- The first diagnostic is about a limit. -/
def Limited (p : Parser) : Prop :=
  ∃ first rest, p.diagnostics = first :: rest ∧
    (first.error = .nestedTooDeeply ∨ first.error = .tooManyConstants)

/-- The first diagnostic is at a token. -/
def Blames (token : Token) (p : Parser) : Prop :=
  ∃ first rest, p.diagnostics = first :: rest ∧ first.line = token.line ∧
    first.place = token.place

theorem Limited.mono (h : p.Limited) (hleads : Leads p q) : q.Limited := by
  obtain ⟨first, rest, heq, herror⟩ := h
  obtain ⟨more, hmore⟩ := hleads.extend
  exact ⟨first, rest ++ more, by rw [← hmore, heq, List.cons_append], herror⟩

theorem Blames.mono (h : p.Blames token) (hleads : Leads p q) : q.Blames token := by
  obtain ⟨first, rest, heq, hplace⟩ := h
  obtain ⟨more, hmore⟩ := hleads.extend
  exact ⟨first, rest ++ more, by rw [← hmore, heq, List.cons_append], hplace⟩

namespace Calm

theorem take (h : p.Calm) : p.take.Calm := by
  unfold Parser.take
  split
  · exact ⟨h.panicking, h.diagnostics, h.faultless⟩
  · next faults token rest hpending =>
    obtain rfl : faults = [] := h.faultless ⟨faults, token⟩ (by rw [hpending]; exact .head _)
    refine ⟨h.panicking, h.diagnostics, fun lexed hlexed => h.faultless lexed ?_⟩
    rw [hpending]
    exact .tail _ hlexed

theorem diagnostics_recordAt (h : p.Calm) (token : Token) (error : SyntaxError) :
    (p.recordAt token error).diagnostics = [⟨error, token.line, token.place⟩] := by
  simp [recordAt, record, h.panicking, h.diagnostics]

theorem blames (h : p.Calm) (token : Token) (error : SyntaxError) :
    (p.recordAt token error).Blames token :=
  ⟨_, [], h.diagnostics_recordAt token error, rfl, rfl⟩

/-- A constant fits, or it is the first not to. -/
theorem request (h : p.Calm) (constant : Constant) :
    (p.request constant).Calm ∨ (p.request constant).Limited := by
  unfold Parser.request
  split
  · exact .inl ⟨h.panicking, h.diagnostics, h.faultless⟩
  · have hasked : ({ p with constants := p.constants ++ [constant] } : Parser).Calm :=
      ⟨h.panicking, h.diagnostics, h.faultless⟩
    exact .inr ⟨_, [], hasked.diagnostics_recordAt p.previous .tooManyConstants, .inr rfl⟩

end Calm

/-! ## calls -/

/-- How a call takes tokens from where `before` is awaited, inside any number
of groups.  After a phrase `next` holds of the token ahead. -/
inductive Tracked (before : Nat → Awaiting) (levels : Nat) (next : Bool → Token → Prop)
    (p r : Parser) : Prop where
  | reads {tokens : List Token} {named : Bool} (hahead : p.ahead = tokens ++ r.ahead)
      (hprevious : r.previous ∈ p.previous :: tokens)
      (hrun : ∀ depth, (before depth).run tokens = some (operator named depth))
      (hnext : next named r.current) (hcalm : p.Calm → r.Calm ∨ r.Limited)
  | stops {tokens rest : List Token} {stop : Token} (hahead : p.ahead = tokens ++ stop :: rest)
      (hstuck : ∀ depth, ∃ state, (before depth).run tokens = some state ∧
        state.step stop.kind = none) (hcalm : p.Calm → r.Limited ∨ r.Blames stop)
  | deep {tokens rest : List Token} (hahead : p.ahead = tokens ++ rest)
      (hrun : ∀ depth, ∃ state, (before depth).run tokens = some state)
      (hlong : levels ≤ tokens.length) (hcalm : p.Calm → r.Limited)

namespace Tracked

theorem stay {named : Bool} (hnext : next named p.current) :
    Tracked (operator named) levels next p p :=
  .reads (List.nil_append p.ahead).symm (.head _) (fun _ => rfl) hnext .inl

theorem weaken (h : Tracked before (levels + 1) next p r) : Tracked before levels next p r := by
  cases h with
  | reads hahead hprevious hrun hnext hcalm => exact .reads hahead hprevious hrun hnext hcalm
  | stops hahead hstuck hcalm => exact .stops hahead hstuck hcalm
  | deep hahead hrun hlong hcalm => exact .deep hahead hrun (by omega) hcalm

/-- A token is taken, then a call is made. -/
theorem cons (hpending : p.pending ≠ [])
    (hstep : ∀ depth, (before depth).step p.current.kind = some (after depth))
    (h : Tracked after levels next p.take r) : Tracked before (levels + 1) next p r := by
  have hahead' (tokens : List Token) (rest : List Token) (h : p.take.ahead = tokens ++ rest) :
      p.ahead = p.current :: tokens ++ rest := by
    rw [ahead_take hpending, h, List.cons_append]
  cases h with
  | @reads tokens named hahead hprevious hrun hnext hcalm =>
    refine .reads (hahead' _ _ hahead) ?_ (fun depth => ?_) hnext fun hp => hcalm hp.take
    · rw [previous_take] at hprevious
      exact List.mem_cons_of_mem _ hprevious
    · rw [run_cons, hstep, Option.bind_some, hrun]
  | stops hahead hstuck hcalm =>
    refine .stops (hahead' _ _ hahead) (fun depth => ?_) fun hp => hcalm hp.take
    obtain ⟨state, hrun, hnone⟩ := hstuck depth
    exact ⟨state, by rw [run_cons, hstep, Option.bind_some, hrun], hnone⟩
  | deep hahead hrun hlong hcalm =>
    refine .deep (hahead' _ _ hahead) (fun depth => ?_) (by simpa using hlong)
      fun hp => hcalm hp.take
    obtain ⟨state, hrun⟩ := hrun depth
    exact ⟨state, by rw [run_cons, hstep, Option.bind_some, hrun]⟩

/-- A constant is asked for, then a call is made. -/
theorem request {constant : Constant} (hleads : Leads (p.request constant) r)
    (h : Tracked before levels next (p.request constant) r) : Tracked before levels next p r := by
  have hcalm' {goal : Prop} (hlimited : r.Limited → goal)
      (h : (p.request constant).Calm → goal) (hp : p.Calm) : goal :=
    (hp.request constant).elim h fun hlimit => hlimited (hlimit.mono hleads)
  have hprevious' : (p.request constant).previous = p.previous := by
    unfold Parser.request
    split
    · rfl
    · simp [recordAt]
  have hahead' := ahead_request p constant
  cases h with
  | reads hahead hprevious hrun hnext hcalm =>
    exact .reads (hahead' ▸ hahead) (hprevious' ▸ hprevious) hrun hnext (hcalm' .inr hcalm)
  | stops hahead hstuck hcalm => exact .stops (hahead' ▸ hahead) hstuck (hcalm' .inl hcalm)
  | deep hahead hrun hlong hcalm => exact .deep (hahead' ▸ hahead) hrun hlong (hcalm' id hcalm)

/-- A call is made, and if that takes a phrase another one. -/
theorem bind {next' : Bool → Token → Prop} (h : Tracked before levels next p q)
    (hsealed : Sealed p.ahead) (hleads : Leads q r)
    (hreads : ∀ named, Sealed q.ahead → next named q.current →
      Tracked (operator named) levels next' q r) : Tracked before levels next' p r := by
  cases h with
  | @reads tokens named hahead hprevious hrun hnext hcalm =>
    have hsealed' : Sealed q.ahead := (hahead ▸ hsealed).suffix (by simp [ahead])
    have hahead' (tokens' rest : List Token) (h : q.ahead = tokens' ++ rest) :
        p.ahead = tokens ++ tokens' ++ rest := by rw [hahead, h, List.append_assoc]
    have hcalm' {goal : Prop} (hlimited : r.Limited → goal) (h : q.Calm → goal) (hp : p.Calm) :
        goal := (hcalm hp).elim h fun hlimit => hlimited (hlimit.mono hleads)
    cases hreads named hsealed' hnext with
    | @reads tokens' named' hmore hprevious' hrun' hnext' hcalm'' =>
      refine .reads (hahead' _ _ hmore) ?_ (fun depth => ?_) hnext' (hcalm' .inr hcalm'')
      · rcases List.mem_cons.1 hprevious' with heq | hmem
        · rw [heq, ← List.cons_append]
          exact List.mem_append_left _ hprevious
        · exact List.mem_cons_of_mem _ (List.mem_append_right _ hmem)
      · rw [run_append_of_run (hrun depth), hrun']
    | stops hmore hstuck hcalm'' =>
      refine .stops (hahead' _ _ hmore) (fun depth => ?_) (hcalm' .inl hcalm'')
      obtain ⟨state, hstate, hnone⟩ := hstuck depth
      exact ⟨state, by rw [run_append_of_run (hrun depth), hstate], hnone⟩
    | deep hmore hrun' hlong hcalm'' =>
      refine .deep (hahead' _ _ hmore) (fun depth => ?_)
        (by rw [List.length_append]; omega) (hcalm' id hcalm'')
      obtain ⟨state, hstate⟩ := hrun' depth
      exact ⟨state, by rw [run_append_of_run (hrun depth), hstate]⟩
  | stops hahead hstuck hcalm =>
    exact .stops hahead hstuck fun hp => (hcalm hp).imp (·.mono hleads) (·.mono hleads)
  | deep hahead hrun hlong hcalm => exact .deep hahead hrun hlong fun hp => (hcalm hp).mono hleads

end Tracked

/-- What may follow a name is not an equals sign. -/
def Unsigned (named : Bool) (token : Token) : Prop := named = true → token.kind ≠ .equal

/-- What follows what is read at a precedence: no operator that binds as
tightly, and after a name no equals sign. -/
structure Closes (floor : Precedence) (named : Bool) (token : Token) : Prop where
  unsigned : Unsigned named token
  loose : ∀ op, token.kind.binaryOp? = some op → ¬ floor ≤ op.precedence

/-- Calls with this many levels left are tracked. -/
def Tracks (levels : Nat) : Prop :=
  ∀ (floor : Precedence) (p : Parser), Sealed p.ahead →
    Tracked (Awaiting.operand (floor ≤ .assignment)) levels (Closes floor) p
      (operand levels floor p).2

theorem tracked_named (hnested : Tracks levels) (hsealed : Sealed p.ahead) (assignable : Bool) :
    Tracked (operator assignable) levels Unsigned p
      (named (Parser.operand levels) assignable p).2 := by
  have hsealed' : Sealed (p.request (.text p.previous.lexeme)).ahead := by rwa [ahead_request]
  refine .request (Moves.named_request (Moves.operand levels) assignable p).leads ?_
  simp only [named]
  split
  · next hsign =>
    simp only [Bool.and_eq_true, beq_iff_eq] at hsign
    obtain ⟨rfl, hequal⟩ := hsign
    have hvalue := hnested .assignment _ (sealed_take hsealed')
    refine .weaken (.cons (pending_ne_nil hsealed'.ended (by rw [hequal]; decide))
      (fun depth => by rw [hequal, step_equal]) ?_)
    exact hvalue.bind (sealed_take hsealed') (.refl _) fun named _ hnext => .stay hnext.unsigned
  · next hsign =>
    refine .stay fun hassignable hequal => hsign ?_
    simp [hassignable, hequal]

theorem tracked_grouped (hnested : Tracks levels) (hsealed : Sealed p.ahead) :
    Tracked (fun depth => Awaiting.operand true (depth + 1)) levels Unsigned p
      (grouped (Parser.operand levels) p).2 := by
  have hinner := hnested .assignment p hsealed
  rw [show decide (Precedence.assignment ≤ .assignment) = true by decide] at hinner
  simp only [grouped]
  generalize Parser.operand levels .assignment p = inner at hinner ⊢
  have hleads := Leads.expect inner.2 .rightParen .closingParenExpected
  cases hinner with
  | @reads tokens named hahead hprevious hrun hnext hcalm =>
    have hsealed' : Sealed inner.2.ahead := (hahead ▸ hsealed).suffix (by simp [ahead])
    by_cases hclosing : inner.2.current.kind = .rightParen
    · have hpending := pending_ne_nil hsealed'.ended (by rw [hclosing]; decide)
      rw [expect_of_eq hclosing]
      have htaken : p.ahead = (tokens ++ [inner.2.current]) ++ inner.2.take.ahead := by
        rw [hahead, ahead_take hpending, List.append_assoc, List.singleton_append]
      have hclosed (depth : Nat) : (Awaiting.operand true (depth + 1)).run
          (tokens ++ [inner.2.current]) = some (operator false depth) := by
        rw [run_append_of_run (hrun (depth + 1))]
        simp [hclosing]
      exact .reads htaken (by simp) hclosed (by simp [Unsigned])
        fun hp => (hcalm hp).imp Calm.take (·.mono (Leads.take _))
    · rw [expect_of_ne hclosing] at hleads ⊢
      refine .stops hahead (fun depth => ⟨_, hrun (depth + 1), ?_⟩) fun hp => ?_
      · refine Option.eq_none_iff_forall_ne_some.2 fun state hstate => ?_
        rcases step_operator_cases hstate with ⟨hop, -⟩ | ⟨hequal, hnamed, -⟩ | ⟨hparen, -⟩ |
          ⟨-, hdepth, -⟩
        · obtain ⟨op, hop⟩ := Option.isSome_iff_exists.1 hop
          exact hnext.loose op hop (by cases op <;> decide)
        · exact hnext.unsigned hnamed hequal
        · exact hclosing hparen
        · cases hdepth
      · exact (hcalm hp).elim (fun hq => .inr (hq.blames _ _)) fun hq => .inl (hq.mono hleads)
  | stops hahead hstuck hcalm =>
    exact .stops hahead (fun depth => hstuck (depth + 1))
      fun hp => (hcalm hp).imp (·.mono hleads) (·.mono hleads)
  | deep hahead hrun hlong hcalm =>
    exact .deep hahead (fun depth => hrun (depth + 1)) hlong fun hp => (hcalm hp).mono hleads

theorem tracked_leading (hnested : Tracks levels) (hsealed : Sealed p.ahead)
    (assignable : Bool) (form : PrefixForm) :
    Tracked (fun depth => afterForm assignable depth form) levels Unsigned p
      (leading (Parser.operand levels) assignable form p).2 := by
  have hstay {q : Parser} : Tracked (operator false) levels Unsigned q q :=
    .stay (by simp [Unsigned])
  cases form with
  | atom value => exact hstay
  | number => exact .request (.refl _) hstay
  | string => exact .request (.refl _) hstay
  | name => exact tracked_named hnested hsealed assignable
  | group => exact tracked_grouped hnested hsealed
  | unary op =>
    have hoperand := hnested .unary p hsealed
    exact hoperand.bind hsealed (.refl _) fun named _ hnext => .stay hnext.unsigned

/-- After what begins an operand, the loop takes operators and their operands
in turn. -/
theorem tracked_trailing (hnested : Tracks levels) (hsealed : Sealed p.ahead) {named : Bool}
    (hnamed : Unsigned named p.current) {count : Nat} (hcount : p.pending.length ≤ count)
    (floor : Precedence) (left : Option Expr) :
    Tracked (operator named) levels (Closes floor) p
      (trailing (Parser.operand levels) floor count left p).2 := by
  induction count generalizing p named left with
  | zero =>
    have hend := kind_of_pending_eq_nil hsealed.ended (List.eq_nil_of_length_eq_zero (by omega))
    have hstop : ∀ op, p.current.kind.binaryOp? = some op → ¬ floor ≤ op.precedence := by
      simp [hend, TokenKind.binaryOp?]
    rw [trailing_stop hstop]
    exact .stay ⟨hnamed, hstop⟩
  | succ count ih =>
    by_cases hgo : ∃ op, p.current.kind.binaryOp? = some op ∧ floor ≤ op.precedence
    · obtain ⟨op, hop, hle⟩ := hgo
      have hpending := pending_ne_nil hsealed.ended (ne_of_binaryOp? hop rfl)
      have hlength := List.length_pos_iff.2 hpending
      have hless : (Parser.operand levels op.precedence.tighter p.take).2.pending.length ≤
          p.pending.length - 1 := by
        simpa using (Leads.operand levels op.precedence.tighter p.take).suffix.length_le
      have hright := hnested op.precedence.tighter p.take (sealed_take hsealed)
      rw [show decide (op.precedence.tighter ≤ .assignment) = false by cases op <;> decide]
        at hright
      rw [trailing_go hop hle]
      refine .weaken (.cons hpending (step_operator (by simp [hop]) named) ?_)
      exact hright.bind (sealed_take hsealed) (Moves.trailing (Moves.operand levels) _ _ _ _).leads
        fun named' hsealed' hnext => ih hsealed' hnext.unsigned (by omega) _
    · have hstop : ∀ op, p.current.kind.binaryOp? = some op → ¬ floor ≤ op.precedence :=
        fun op hop hle => hgo ⟨op, hop, hle⟩
      rw [trailing_stop hstop]
      exact .stay ⟨hnamed, hstop⟩

/-- An equals sign after a phrase that is no name may not stand there. -/
theorem tracked_settle {named : Bool} (hnext : Closes floor named p.current) (assignable : Bool)
    (tree : Option Expr) :
    Tracked (operator named) levels (Closes floor) p (settle assignable (tree, p)).2 := by
  by_cases hsign : assignable = true ∧ p.current.kind = .equal
  · obtain ⟨rfl, hequal⟩ := hsign
    rw [settle_of_equal hequal]
    have hnamed : named = false := by
      cases named with
      | false => rfl
      | true => exact absurd hequal (hnext.unsigned rfl)
    refine .stops (List.nil_append p.ahead).symm (fun depth => ⟨_, rfl, ?_⟩)
      fun hp => .inr (hp.take.blames _ _)
    rw [hnamed, hequal]
    rfl
  · rw [settle_of_ne fun ha he => hsign ⟨ha, he⟩]
    exact .stay hnext

theorem tracks (levels : Nat) : Tracks levels := by
  induction levels with
  | zero =>
    intro floor p hsealed
    exact .deep (List.nil_append p.ahead).symm (fun depth => ⟨_, rfl⟩) (Nat.le_refl _)
      fun hp => ⟨_, [], hp.diagnostics_recordAt _ _, .inl rfl⟩
  | succ levels ih =>
    intro floor p hsealed
    cases hform : p.current.kind.prefixForm? with
    | none =>
      rw [operand_of_none hform]
      refine .stops (List.nil_append p.ahead).symm (fun depth => ⟨_, rfl, ?_⟩)
        fun hp => .inr (hp.take.blames _ _)
      simp [hform]
    | some form =>
      rw [operand_of_some hform]
      have hpending := pending_ne_nil hsealed.ended (ne_of_prefixForm? hform rfl)
      have hleading := tracked_leading ih (sealed_take hsealed) (floor ≤ .assignment) form
      refine .cons hpending (fun depth => by simp [hform]; rfl) ?_
      refine hleading.bind (sealed_take hsealed) ?_ fun named hsealed' hnext => ?_
      · exact (Moves.trailing (Moves.operand levels) _ _ _ _).leads.trans (Leads.settle _ _)
      · have htrailing := tracked_trailing ih hsealed' hnext (Nat.le_refl _) floor
        exact (htrailing _).bind hsealed' (Leads.settle _ _)
          fun named' _ hnext' => tracked_settle hnext' _ _

end Parser

end Lox
