import Lox.Proofs.Parser.Tracking

/-!
# Lox.Proofs.Parser.Hushed

A panicking parser reads on.

A parser that panics records nothing, whatever it takes (`Hushed`).  How far it
gets is known where an expression lies ahead: its calls take some of the
expression, up to an operator, or all of it, but not the semicolon behind it
(`Tracked.of_completes`), and recovery takes what is left, the semicolon
included (`Hushed.skipToBoundary`).
-/

namespace Lox

open Awaiting

/-! ## tokens inside a statement -/

/-- Does a statement neither end nor begin with this kind of token? -/
def TokenKind.isInner (kind : TokenKind) : Bool :=
  kind != .semicolon && kind != .endOfInput && !Parser.beginsStatement kind

theorem Joins.isInner {level : Level} {kind : TokenKind} {op : BinaryOp}
    (h : Joins level kind op) : kind.isInner = true := by cases h <;> rfl

theorem Signs.isInner {kind : TokenKind} {op : UnaryOp} (h : Signs kind op) :
    kind.isInner = true := by cases h <;> rfl

theorem isInner_of_denotes {kind : TokenKind} {lexeme : Text} {value : Literal}
    (h : Denotes kind lexeme value) : kind.isInner = true := by cases h <;> rfl

theorem Level.Derives.isInner {level : Level} {tokens : List Token} {e : Expr}
    (h : level.Derives tokens e) : ∀ token ∈ tokens, token.kind.isInner = true := by
  induction h with
  | tighter _ ih => exact ih
  | assign hname hsign _ ih =>
    simp only [List.forall_mem_cons, hname, hsign]
    exact ⟨rfl, rfl, ih⟩
  | binary hsign _ _ ihleft ihright =>
    simp only [List.forall_mem_append, List.forall_mem_cons]
    exact ⟨ihleft, hsign.isInner, ihright⟩
  | unary hsign _ ih => exact List.forall_mem_cons.2 ⟨hsign.isInner, ih⟩
  | literal h => exact List.forall_mem_singleton.2 (isInner_of_denotes h)
  | global h => exact List.forall_mem_singleton.2 (by rw [h]; rfl)
  | group hopening hclosing _ ih =>
    simp only [List.cons_append, List.forall_mem_append, List.forall_mem_cons, hopening, hclosing]
    exact ⟨rfl, ih, rfl, by simp⟩

namespace Parser

variable {p q r : Parser} {levels count count' : Nat} {floor : Precedence}
  {l : List Lexed} {token stop : Token} {tokens phrase after : List Token}

/-! ## reading on -/

/-- A call that has an operand and a semicolon ahead takes some of the operand,
up to an operator, or all of it. -/
theorem Tracked.of_completes (h : Tracked (Awaiting.operand false) levels (Closes floor) q r)
    (hahead : q.ahead = phrase ++ stop :: after) (hphrase : Completes phrase)
    (hstop : stop.kind = .semicolon) (hlevels : q.ahead.length ≤ levels) :
    ∃ taken more, phrase = taken ++ more ∧ Continues more ∧
      r.ahead = more ++ stop :: after ∧ r.previous ∈ q.previous :: taken := by
  have hwhole : phrase ++ [stop] <+: q.ahead := ⟨after, by simp [hahead]⟩
  -- inside a group nothing leads past the semicolon
  have hshort {tokens rest : List Token} {state : Awaiting} (h : q.ahead = tokens ++ rest)
      (hrun : (Awaiting.operand false 1).run tokens = some state) :
      tokens.length ≤ phrase.length := by
    refine Nat.le_of_not_lt fun hlong => ?_
    have hprefix : phrase ++ [stop] <+: tokens :=
      List.prefix_of_prefix_length_le hwhole ⟨rest, h.symm⟩ (by simp; omega)
    obtain ⟨more, rfl⟩ := hprefix
    obtain ⟨_, hnone, -⟩ := exists_run_of_append hrun
    rw [(hphrase.run_semicolon hstop).2] at hnone
    cases hnone
  cases h with
  | @reads tokens named htaken hprevious hrun hnext _ =>
    have hprefix : tokens <+: phrase :=
      List.prefix_of_prefix_length_le ⟨_, htaken.symm⟩ ⟨_, hahead.symm⟩ (hshort htaken (hrun 1))
    obtain ⟨more, rfl⟩ := hprefix
    have hrest : r.ahead = more ++ stop :: after := by
      rw [htaken, List.append_assoc] at hahead
      exact List.append_cancel_left hahead
    refine ⟨tokens, more, rfl, fun depth => ?_, hrest, hprevious⟩
    obtain ⟨last, hlast⟩ := hphrase depth
    rw [run_append_of_run (hrun depth)] at hlast
    cases more with
    | nil => exact ⟨false, rfl⟩
    | cons first more =>
      obtain rfl : r.current = first := (List.cons.inj hrest).1
      cases named with
      | false => exact ⟨last, hlast⟩
      | true =>
        rw [run_cons, step_operator_of_ne (hnext.unsigned rfl) true false] at hlast
        exact ⟨last, hlast⟩
  | @stops tokens rest stop' htaken hstuck _ =>
    obtain ⟨_, hrun, -⟩ := hstuck 1
    have hlength := hshort htaken hrun
    have hprefix : tokens ++ [stop'] <+: phrase ++ [stop] :=
      List.prefix_of_prefix_length_le ⟨rest, by simp [htaken]⟩ hwhole (by simp; omega)
    obtain ⟨more, hmore⟩ := hprefix
    obtain ⟨state, hstate, hnone⟩ := hstuck 0
    have hstatement := (hphrase.run_semicolon hstop).1
    rw [← hmore, List.append_assoc, run_append_of_run hstate, List.singleton_append, run_cons,
      hnone] at hstatement
    cases hstatement
  | deep htaken hrun hlong _ =>
    obtain ⟨_, hrun⟩ := hrun 1
    have hlength := hshort htaken hrun
    have hahead' := congrArg List.length hahead
    simp only [List.length_append, List.length_cons] at hahead'
    omega

/-- A parser that says nothing more for now. -/
structure Hushed (said : List Diagnostic) (p : Parser) : Prop where
  panicking : p.panicking = true
  diagnostics : p.diagnostics = said
  roomy : p.Roomy

namespace Hushed

variable {said : List Diagnostic}

theorem recordAt_eq (h : p.panicking = true) (token : Token) (error : SyntaxError) :
    p.recordAt token error = p := if_pos h

theorem take (h : Hushed said p) : Hushed said p.take := by
  refine ⟨?_, ?_, h.roomy.take⟩ <;> unfold Parser.take <;> split <;>
    simp [recordFaults_of_panicking h.panicking, h.panicking, h.diagnostics]

theorem recordAt (h : Hushed said p) (token : Token) (error : SyntaxError) :
    Hushed said (p.recordAt token error) := by rwa [recordAt_eq h.panicking]

theorem take_request (h : Hushed said p) (hsealed : Sealed p.ahead)
    (hgo : p.current.kind ≠ .endOfInput) (constant : Constant) :
    Hushed said (p.take.request constant) := by
  have hroom := h.roomy.lt_take (pending_ne_nil hsealed.ended hgo)
  have hroomy := h.roomy.take.request hroom constant
  rw [request_of_lt (by omega)] at hroomy ⊢
  exact ⟨h.take.panicking, h.take.diagnostics, hroomy⟩

theorem kept (said : List Diagnostic) : Kept (Hushed said) (Hushed said) where
  take _ h _ := h.take
  pool constant hsealed h hpooled :=
    h.take_request hsealed (fun hend => by simp [hend, TokenKind.isPooled] at hpooled) constant
  unnamed token constant hsealed h hvar := by
    rw [recordAt_eq h.take.panicking]
    exact h.take_request hsealed (by rw [hvar]; decide) constant
  complain token error h := h.recordAt token error
  last _ h _ := h.take.recordAt _ _
  last_complain token error h := h.recordAt token error

theorem operand (h : Hushed said p) (hsealed : Sealed p.ahead) (levels : Nat)
    (floor : Precedence) : Hushed said (operand levels floor p).2 :=
  ((kept said).operand levels floor hsealed h).2.elim id (·.2)

/-- Panicking, a parser skips the rest of a statement and its semicolon. -/
theorem skipToBoundary (h : Hushed said p) (hahead : p.ahead = tokens ++ stop :: after)
    (hinner : ∀ token ∈ tokens, token.kind.isInner = true) (hstop : stop.kind = .semicolon)
    (hafter : after ≠ []) (hprevious : p.previous.kind ≠ .semicolon)
    (hcount : p.pending.length ≤ count) :
    let skipped := p.skipToBoundary count
    Hushed said skipped ∧ skipped.ahead = after ∧ skipped.previous = stop ∧
      skipped.pending <:+ p.pending := by
  induction tokens generalizing p count with
  | nil =>
    obtain rfl : p.current = stop := (List.cons.inj hahead).1
    have hpending : p.pending ≠ [] := by
      rintro hnil
      simp only [ahead, hnil, List.map_nil, List.nil_append, List.cons.injEq, true_and] at hahead
      exact hafter hahead.symm
    have hlength := List.length_pos_iff.2 hpending
    obtain ⟨count, rfl⟩ : ∃ n, count = n + 1 := ⟨count - 1, by omega⟩
    have hboundary : p.atBoundary = false := by
      simp [atBoundary, hstop, hprevious, beginsStatement]
    have hboundary' : p.take.atBoundary = true := by simp [atBoundary, hstop]
    have hskip : p.skipToBoundary (count + 1) = p.take := by
      rw [Parser.skipToBoundary, if_neg (by simp [hboundary]),
        skipToBoundary_of_atBoundary hboundary']
    rw [ahead_take hpending] at hahead
    rw [hskip]
    exact ⟨h.take, (List.cons.inj hahead).2, previous_take p, (Leads.take p).suffix⟩
  | cons first tokens ih =>
    obtain rfl : p.current = first := (List.cons.inj hahead).1
    obtain ⟨hfirst, hinner⟩ := List.forall_mem_cons.1 hinner
    have hpending : p.pending ≠ [] := by
      rintro hnil
      simp [ahead, hnil] at hahead
    have hlength := List.length_pos_iff.2 hpending
    obtain ⟨count, rfl⟩ : ∃ n, count = n + 1 := ⟨count - 1, by omega⟩
    simp only [TokenKind.isInner, Bool.and_eq_true, bne_iff_ne, ne_eq, Bool.not_eq_true'] at hfirst
    have hboundary : p.atBoundary = false := by simp [atBoundary, hfirst, hprevious]
    rw [ahead_take hpending] at hahead
    rw [Parser.skipToBoundary, if_neg (by simp [hboundary])]
    have hcount' : p.take.pending.length ≤ count := by
      rw [length_pending_take]
      omega
    have hskip := ih h.take (List.cons.inj hahead).2 hinner (by simp [hfirst]) hcount'
    exact ⟨hskip.1, hskip.2.1, hskip.2.2.1, hskip.2.2.2.trans (Leads.take p).suffix⟩

end Hushed

end Parser

end Lox
