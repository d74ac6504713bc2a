import Lox.Proofs.Parser.Ahead

/-!
# Lox.Proofs.Parser.Lockstep

Two parsers that make the same moves.

A parser chooses its next move by the kind of the token it looks at.  Two
parsers that look at tokens of the same kinds are therefore in lockstep, and
whatever relation their single moves keep (`Aligned`) holds where their calls
return.  They may part on a token that begins no expression and is taken all
the same; from there on both only return to the statement they are in, and
another relation (`Parted`) holds.

`Lockstep` lists what single moves have to keep; `Lockstep.operand` and
`Lockstep.unrecovered` follow the calls once for all such relations.  A
property of one parser is a relation of it with itself (`Kept`).
-/

namespace Lox

namespace Parser

/-- Relations between two parsers that their moves keep, with some number of
nested calls left. -/
structure Lockstep (Aligned Parted : Nat → Parser → Parser → Prop) : Prop where
  kind {n : Nat} {p q : Parser} : Aligned n p q → p.current.kind = q.current.kind
  ended {n : Nat} {p q : Parser} : Aligned n p q → Ended p.ahead ∧ Ended q.ahead
  weaken {n : Nat} {p q : Parser} : Aligned n p q → Aligned (n + 1) p q
  take {n : Nat} {p q : Parser} : Aligned (n + 1) p q → p.current.kind ≠ .semicolon →
    p.current.kind ≠ .endOfInput → Aligned n p.take q.take
  pool {n : Nat} {p q : Parser} (constant : Text → Constant) : Aligned (n + 1) p q →
    p.current.kind.isPooled = true →
    Aligned n (p.take.request (constant p.current.lexeme))
      (q.take.request (constant q.current.lexeme))
  unnamed {n : Nat} {p q : Parser} : Aligned (n + 1) p q →
    p.current.kind = .keyword .varWord →
    Aligned n
      ((p.take.recordAt p.take.current .variableNameExpected).request (.text p.current.lexeme))
      ((q.take.recordAt q.take.current .variableNameExpected).request (.text q.current.lexeme))
  refuse {n : Nat} {p q : Parser} : Aligned (n + 1) p q → p.current.kind.prefixForm? = none →
    Aligned n (p.take.recordAt p.current .expressionExpected)
      (q.take.recordAt q.current .expressionExpected) ∨
    Parted n (p.take.recordAt p.current .expressionExpected)
      (q.take.recordAt q.current .expressionExpected)
  blame {n : Nat} {p q : Parser} : Aligned (n + 1) p q → p.current.kind = .equal →
    Aligned n (p.take.recordAt p.current .invalidAssignmentTarget)
      (q.take.recordAt q.current .invalidAssignmentTarget)
  complain {n : Nat} {p q : Parser} (error : SyntaxError) : Aligned n p q →
    Aligned n (p.recordAt p.current error) (q.recordAt q.current error)
  parted_weaken {n : Nat} {p q : Parser} : Parted n p q → Parted (n + 1) p q
  parted_expect {n : Nat} {p q : Parser} : Parted n p q →
    Parted n (p.expect .rightParen .closingParenExpected).2
      (q.expect .rightParen .closingParenExpected).2
  parted_trailing {n count count' : Nat} {p q : Parser} {left left' : Option Expr}
    (floor : Precedence) : Parted n p q → p.pending.length ≤ count → q.pending.length ≤ count' →
    Parted n (trailing (operand n) floor count left p).2
      (trailing (operand n) floor count' left' q).2
  parted_settle {n : Nat} {p q : Parser} {tree tree' : Option Expr} (assignable : Bool) :
    Parted n p q → Parted n (settle assignable (tree, p)).2 (settle assignable (tree', q)).2

/-- Two parsers that are aligned, or parted on the way. -/
def Joint (Aligned Parted : Nat → Parser → Parser → Prop) (n : Nat) (p q : Parser) : Prop :=
  Aligned n p q ∨ Parted n p q

namespace Lockstep

variable {Aligned Parted : Nat → Parser → Parser → Prop} {n count count' : Nat} {p q : Parser}
  {floor : Precedence} {form : PrefixForm} {left left' : Option Expr}

/-! ## expressions -/

/-- What a nested call keeps. -/
def Nests (Aligned Parted : Nat → Parser → Parser → Prop) (n : Nat) : Prop :=
  ∀ {p q : Parser} (floor : Precedence), Aligned n p q →
    Joint Aligned Parted n (operand n floor p).2 (operand n floor q).2

theorem named (h : Lockstep Aligned Parted) (hnested : Nests Aligned Parted n)
    (hpq : Aligned (n + 1) p q) (hname : p.current.kind = .identifier) (assignable : Bool) :
    Joint Aligned Parted n (named (operand n) assignable p.take).2
      (named (operand n) assignable q.take).2 := by
  have hasked := h.pool .text hpq (by rw [hname]; rfl)
  simp only [Parser.named, previous_take, ← h.kind hasked]
  by_cases hsign : assignable = true ∧
      (p.take.request (.text p.current.lexeme)).current.kind = .equal
  · rw [if_pos (by simpa using hsign), if_pos (by simpa using hsign)]
    have hvalue := h.take (h.weaken hasked) (by rw [hsign.2]; decide) (by rw [hsign.2]; decide)
    exact hnested .assignment hvalue
  · rw [if_neg (by simpa using hsign), if_neg (by simpa using hsign)]
    exact .inl hasked

theorem expect (h : Lockstep Aligned Parted) {kind : TokenKind} (hkind : kind ≠ .semicolon)
    (hkind' : kind ≠ .endOfInput) (error : SyntaxError) (hpq : Aligned n p q) :
    Aligned n (p.expect kind error).2 (q.expect kind error).2 := by
  by_cases hcurrent : p.current.kind = kind
  · rw [expect_of_eq hcurrent, expect_of_eq (by rw [← h.kind hpq, hcurrent])]
    exact h.take (h.weaken hpq) (hcurrent ▸ hkind) (hcurrent ▸ hkind')
  · rw [expect_of_ne hcurrent, expect_of_ne (by rwa [← h.kind hpq])]
    exact h.complain error hpq

theorem grouped (h : Lockstep Aligned Parted) (hnested : Nests Aligned Parted n)
    (hpq : Aligned n p q) :
    Joint Aligned Parted n (grouped (operand n) p).2 (grouped (operand n) q).2 := by
  rcases hnested .assignment hpq with haligned | hparted
  · exact .inl (h.expect (by decide) (by decide) _ haligned)
  · exact .inr (h.parted_expect hparted)

theorem leading (h : Lockstep Aligned Parted) (hnested : Nests Aligned Parted n)
    (hpq : Aligned (n + 1) p q) (hform : p.current.kind.prefixForm? = some form)
    (assignable : Bool) :
    Joint Aligned Parted n (leading (operand n) assignable form p.take).2
      (leading (operand n) assignable form q.take).2 := by
  have htake : Aligned n p.take q.take :=
    h.take hpq (ne_of_prefixForm? hform rfl) (ne_of_prefixForm? hform rfl)
  have hbegins := begins_of_prefixForm? hform
  have hpool (constant : Text → Constant) (hpooled : p.current.kind.isPooled = true) :
      Aligned n (p.take.request (constant p.take.previous.lexeme))
        (q.take.request (constant q.take.previous.lexeme)) := by
    simpa using h.pool constant hpq hpooled
  cases form with
  | atom value => exact .inl htake
  | number =>
    have hkind : p.current.kind = .number := hbegins
    exact .inl (hpool (fun lexeme => .number (Decimal.read lexeme)) (by rw [hkind]; rfl))
  | string =>
    have hkind : p.current.kind = .string := hbegins
    exact .inl (hpool (fun lexeme => .text (unquote lexeme)) (by rw [hkind]; rfl))
  | name => exact h.named hnested hpq hbegins assignable
  | group => exact h.grouped hnested htake
  | unary op => exact hnested .unary htake

/-- The loops of both parsers take the same operators, and each has as many
rounds left as it needs. -/
theorem trailing (h : Lockstep Aligned Parted) (hnested : Nests Aligned Parted n)
    (hpq : Joint Aligned Parted n p q) (hcount : p.pending.length ≤ count)
    (hcount' : q.pending.length ≤ count') (floor : Precedence) :
    Joint Aligned Parted n (trailing (operand n) floor count left p).2
      (trailing (operand n) floor count' left' q).2 := by
  rcases hpq with hpq | hparted
  case inr => exact .inr (h.parted_trailing floor hparted hcount hcount')
  induction count generalizing count' p q left left' with
  | zero =>
    have hpending : p.pending = [] := List.eq_nil_of_length_eq_zero (by omega)
    have hend := kind_of_pending_eq_nil (h.ended hpq).1 hpending
    rw [trailing_stop (by simp [hend, TokenKind.binaryOp?]),
      trailing_stop (by simp [← h.kind hpq, hend, TokenKind.binaryOp?])]
    exact .inl hpq
  | succ count ih =>
    by_cases hgo : ∃ op, p.current.kind.binaryOp? = some op ∧ floor ≤ op.precedence
    · obtain ⟨op, hop, hle⟩ := hgo
      have hend : p.current.kind ≠ .endOfInput := ne_of_binaryOp? hop rfl
      have hop' : q.current.kind.binaryOp? = some op := by rwa [← h.kind hpq]
      have hpending := pending_ne_nil (h.ended hpq).1 hend
      have hpending' := pending_ne_nil (h.ended hpq).2 (by rwa [← h.kind hpq])
      have hlength := List.length_pos_iff.2 hpending
      have hlength' := List.length_pos_iff.2 hpending'
      obtain ⟨count', rfl⟩ : ∃ m, count' = m + 1 := ⟨count' - 1, by omega⟩
      have htake := h.take (h.weaken hpq) (ne_of_binaryOp? hop rfl) hend
      -- a nested call leaves no more pending than the token taken before it
      have hshorter (r : Parser) :
          (operand n op.precedence.tighter r.take).2.pending.length ≤ r.pending.length - 1 := by
        simpa using (Leads.operand n op.precedence.tighter r.take).suffix.length_le
      have hless := hshorter p
      have hless' := hshorter q
      rw [trailing_go hop hle, trailing_go hop' hle]
      rcases hnested op.precedence.tighter htake with haligned | hparted
      · exact ih (by omega) (by omega) haligned
      · exact .inr (h.parted_trailing floor hparted (by omega) (by omega))
    · have hstop : ∀ op, p.current.kind.binaryOp? = some op → ¬ floor ≤ op.precedence :=
        fun op hop hle => hgo ⟨op, hop, hle⟩
      rw [trailing_stop hstop, trailing_stop (by rwa [← h.kind hpq])]
      exact .inl hpq

theorem settle (h : Lockstep Aligned Parted) (hpq : Joint Aligned Parted n p q)
    (assignable : Bool) :
    Joint Aligned Parted n (settle assignable (left, p)).2 (settle assignable (left', q)).2 := by
  rcases hpq with hpq | hparted
  case inr => exact .inr (h.parted_settle assignable hparted)
  by_cases hsign : assignable = true ∧ p.current.kind = .equal
  · obtain ⟨rfl, hequal⟩ := hsign
    rw [settle_of_equal hequal, settle_of_equal (by rwa [← h.kind hpq])]
    exact .inl (h.blame (h.weaken hpq) hequal)
  · have hne : assignable = true → p.current.kind ≠ .equal := fun ha he => hsign ⟨ha, he⟩
    rw [settle_of_ne hne, settle_of_ne (by rwa [← h.kind hpq])]
    exact .inl hpq

theorem operand (h : Lockstep Aligned Parted) (n : Nat) : Nests Aligned Parted n := by
  induction n with
  | zero => exact fun _ hpq => .inl (h.complain _ hpq)
  | succ n ih =>
    intro p q floor hpq
    have hweaken {r s : Parser} (hrs : Joint Aligned Parted n r s) :
        Joint Aligned Parted (n + 1) r s := hrs.imp h.weaken h.parted_weaken
    cases hform : p.current.kind.prefixForm? with
    | none =>
      rw [operand_of_none hform, operand_of_none (by rwa [← h.kind hpq])]
      exact hweaken (h.refuse hpq hform)
    | some form =>
      rw [operand_of_some hform, operand_of_some (by rwa [← h.kind hpq])]
      have hleading := h.leading ih hpq hform (floor ≤ .assignment)
      refine hweaken (h.settle ?_ _)
      exact h.trailing ih hleading (Nat.le_refl _) (Nat.le_refl _) floor

/-! ## statements -/

/-- With a name or without, the pool is asked for it. -/
theorem introduced (h : Lockstep Aligned Parted) (hpq : Aligned n p q)
    (hvar : p.current.kind = .keyword .varWord) :
    Aligned n p.take.introduced q.take.introduced := by
  have htake := h.take (h.weaken hpq) (by rw [hvar]; decide) (by rw [hvar]; decide)
  by_cases hname : p.take.current.kind = .identifier
  · rw [introduced_of_name hname, introduced_of_name (by rwa [← h.kind htake])]
    exact h.pool .text (h.weaken htake) (by rw [hname]; rfl)
  · rw [introduced_of_ne hname, introduced_of_ne (by rwa [← h.kind htake]), previous_take,
      previous_take]
    exact h.unnamed (h.weaken hpq) hvar

/-- A statement before its last token: both parsers expect a semicolon after
what they have read. -/
theorem unrecovered (h : Lockstep Aligned Parted) (hpq : Aligned nestingLimit p q) :
    ∃ clause p' q',
      Joint Aligned Parted nestingLimit p' q' ∧
      p.unrecovered.2 = (p'.expect .semicolon (.semicolonExpected clause)).2 ∧
      q.unrecovered.2 = (q'.expect .semicolon (.semicolonExpected clause)).2 := by
  have hexpression {r s : Parser} (hrs : Aligned nestingLimit r s) :=
    h.operand nestingLimit .assignment hrs
  have htake {word : Keyword} (hword : p.current.kind = .keyword word) :
      Aligned nestingLimit p.take q.take :=
    h.take (h.weaken hpq) (by rw [hword]; simp) (by rw [hword]; simp)
  by_cases hvar : p.current.kind = .keyword .varWord
  · rw [unrecovered_var hvar, unrecovered_var (by rwa [← h.kind hpq])]
    have hasked := h.introduced hpq hvar
    by_cases hsign : p.take.introduced.current.kind = .equal
    · rw [declaration_of_equal hsign, declaration_of_equal (by rwa [← h.kind hasked])]
      have hvalue := h.take (h.weaken hasked) (by rw [hsign]; decide) (by rw [hsign]; decide)
      exact ⟨_, _, _, hexpression hvalue, rfl, rfl⟩
    · rw [declaration_of_ne hsign, declaration_of_ne (by rwa [← h.kind hasked])]
      exact ⟨_, _, _, .inl hasked, rfl, rfl⟩
  · by_cases hprint : p.current.kind = .keyword .printWord
    · rw [unrecovered_print hprint, unrecovered_print (by rwa [← h.kind hpq])]
      exact ⟨_, _, _, hexpression (htake hprint), rfl, rfl⟩
    · rw [unrecovered_of_ne hvar hprint,
        unrecovered_of_ne (by rwa [← h.kind hpq]) (by rwa [← h.kind hpq])]
      exact ⟨_, _, _, hexpression hpq, rfl, rfl⟩

end Lockstep

/-! ## one parser -/

/-- Properties of a parser that its moves keep, the second one from where the
end marker is taken for an operand. -/
structure Kept (Inv Last : Parser → Prop) : Prop where
  take {p : Parser} : Sealed p.ahead → Inv p → p.current.kind ≠ .endOfInput → Inv p.take
  pool {p : Parser} (constant : Constant) : Sealed p.ahead → Inv p →
    p.current.kind.isPooled = true → Inv (p.take.request constant)
  unnamed {p : Parser} (token : Token) (constant : Constant) : Sealed p.ahead → Inv p →
    p.current.kind = .keyword .varWord →
    Inv ((p.take.recordAt token .variableNameExpected).request constant)
  complain {p : Parser} (token : Token) (error : SyntaxError) : Inv p → Inv (p.recordAt token error)
  last {p : Parser} : Sealed p.ahead → Inv p → p.current.kind = .endOfInput →
    Last (p.take.recordAt p.current .expressionExpected)
  last_complain {p : Parser} (token : Token) (error : SyntaxError) : Last p →
    Last (p.recordAt token error)

namespace Kept

variable {Inv Last : Parser → Prop} {p : Parser}

/-- A parser before the end, with a property. -/
def Here (Inv : Parser → Prop) (p q : Parser) : Prop := p = q ∧ Sealed p.ahead ∧ Inv p

/-- A parser at the end, with a property. -/
def AtEnd (Last : Parser → Prop) (p q : Parser) : Prop :=
  p = q ∧ Sealed p.ahead ∧ p.current.kind = .endOfInput ∧ Last p

theorem lockstep (h : Kept Inv Last) :
    Lockstep (fun _ => Here Inv) (fun _ => AtEnd Last) where
  kind := by
    rintro _ p _ ⟨rfl, -⟩
    rfl
  ended := by
    rintro _ p _ ⟨rfl, hsealed, -⟩
    exact ⟨hsealed.ended, hsealed.ended⟩
  weaken := id
  take := by
    rintro _ p _ ⟨rfl, hsealed, hinv⟩ - hend
    exact ⟨rfl, sealed_take hsealed, h.take hsealed hinv hend⟩
  pool := by
    rintro _ p _ constant ⟨rfl, hsealed, hinv⟩ hpooled
    exact ⟨rfl, by rw [ahead_request]; exact sealed_take hsealed, h.pool _ hsealed hinv hpooled⟩
  unnamed := by
    rintro _ p _ ⟨rfl, hsealed, hinv⟩ hvar
    refine ⟨rfl, ?_, h.unnamed _ _ hsealed hinv hvar⟩
    rw [ahead_request, ahead_recordAt]
    exact sealed_take hsealed
  refuse := by
    rintro _ p _ ⟨rfl, hsealed, hinv⟩ -
    have htake : Sealed (p.take.recordAt p.current .expressionExpected).ahead := by
      rw [ahead_recordAt]
      exact sealed_take hsealed
    by_cases hend : p.current.kind = .endOfInput
    · refine .inr ⟨rfl, htake, ?_, h.last hsealed hinv hend⟩
      have hpending := (pending_eq_nil_iff hsealed).2 hend
      rw [← pending_eq_nil_iff htake]
      simp [recordAt, hpending]
    · exact .inl ⟨rfl, htake, h.complain _ _ (h.take hsealed hinv hend)⟩
  blame := by
    rintro _ p _ ⟨rfl, hsealed, hinv⟩ hequal
    refine ⟨rfl, ?_, h.complain _ _ (h.take hsealed hinv (by rw [hequal]; decide))⟩
    rw [ahead_recordAt]
    exact sealed_take hsealed
  complain := by
    rintro _ p _ error ⟨rfl, hsealed, hinv⟩
    exact ⟨rfl, by rwa [ahead_recordAt], h.complain _ _ hinv⟩
  parted_weaken := id
  parted_expect := by
    rintro _ p _ ⟨rfl, hsealed, hend, hlast⟩
    rw [expect_of_ne (by rw [hend]; decide)]
    exact ⟨rfl, by rwa [ahead_recordAt], by simpa [recordAt] using hend, h.last_complain _ _ hlast⟩
  parted_trailing := by
    rintro _ _ _ p _ _ _ floor ⟨rfl, hsealed, hend, hlast⟩ - -
    rw [trailing_stop (by simp [hend, TokenKind.binaryOp?]),
      trailing_stop (by simp [hend, TokenKind.binaryOp?])]
    exact ⟨rfl, hsealed, hend, hlast⟩
  parted_settle := by
    rintro _ p _ _ _ assignable ⟨rfl, hsealed, hend, hlast⟩
    rw [settle_of_ne (by simp [hend]), settle_of_ne (by simp [hend])]
    exact ⟨rfl, hsealed, hend, hlast⟩

theorem operand (h : Kept Inv Last) (levels : Nat) (floor : Precedence) (hsealed : Sealed p.ahead)
    (hp : Inv p) :
    Sealed (operand levels floor p).2.ahead ∧
      (Inv (operand levels floor p).2 ∨
        (operand levels floor p).2.current.kind = .endOfInput ∧
          Last (operand levels floor p).2) := by
  rcases h.lockstep.operand levels floor ⟨rfl, hsealed, hp⟩ with
    ⟨-, hsealed', hinv⟩ | ⟨-, hsealed', hend, hlast⟩
  · exact ⟨hsealed', .inl hinv⟩
  · exact ⟨hsealed', .inr ⟨hend, hlast⟩⟩

theorem unrecovered (h : Kept Inv Last) (hsealed : Sealed p.ahead) (hp : Inv p) :
    ∃ clause p', Sealed p'.ahead ∧ (Inv p' ∨ p'.current.kind = .endOfInput ∧ Last p') ∧
      p.unrecovered.2 = (p'.expect .semicolon (.semicolonExpected clause)).2 := by
  obtain ⟨clause, p', q', hjoint, hread, -⟩ := h.lockstep.unrecovered ⟨rfl, hsealed, hp⟩
  rcases hjoint with ⟨rfl, hsealed', hinv⟩ | ⟨rfl, hsealed', hend, hlast⟩
  · exact ⟨clause, p', hsealed', .inl hinv, hread⟩
  · exact ⟨clause, p', hsealed', .inr ⟨hend, hlast⟩, hread⟩

end Kept

end Parser

end Lox
