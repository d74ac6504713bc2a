import Lox.Token.Scan

/-!
# Lox.Proofs.Tokens

The tokens of a source.

A source ends with the end marker, which stands nowhere else (`Terminated`).
Tokens carry the faults passed before them, so a source whose tokens carry
none scans without a fault, and then its outcomes are its tokens.
-/

namespace Lox

/-- The last outcome of a run is the only end marker in it. -/
theorem Cursor.run_eq_append (c : Cursor) :
    ∃ init last, c.run.1 = init ++ [.token last] ∧ last.kind = .endOfInput ∧
      ∀ outcome ∈ init, ¬ outcome.isEnd := by
  fun_induction Cursor.run c with
  | case1 c hend =>
    cases houtcome : c.next.1 with
    | fault found => simp [houtcome, Outcome.isEnd] at hend
    | token found =>
      rw [houtcome] at hend
      exact ⟨[], found, rfl, by simpa [Outcome.isEnd] using hend, by simp⟩
  | case2 c hgo outcomes last hrun ih =>
    obtain ⟨init, marker, hinit, hmarker, hothers⟩ := ih
    rw [hrun] at hinit
    have houtcomes : outcomes = init ++ [.token marker] := hinit
    refine ⟨c.next.1 :: init, marker, by rw [houtcomes, List.cons_append], hmarker, ?_⟩
    intro outcome houtcome
    rcases List.mem_cons.1 houtcome with rfl | hlater
    · exact hgo
    · exact hothers outcome hlater

/-- The last of these tokens is the only end marker among them. -/
def Terminated (all : List Lexed) : Prop :=
  ∃ init last, all = init ++ [last] ∧ last.token.kind = .endOfInput ∧
    ∀ lexed ∈ init, lexed.token.kind ≠ .endOfInput

namespace Terminated

variable {before rest : List Lexed} {lexed : Lexed}

/-- Nothing follows the end marker. -/
theorem eq_nil_of_kind (h : Terminated (before ++ lexed :: rest))
    (hkind : lexed.token.kind = .endOfInput) : rest = [] := by
  obtain ⟨init, last, heq, -, hothers⟩ := h
  rcases List.eq_nil_or_concat rest with rfl | ⟨more, final, rfl⟩
  · rfl
  · rw [List.concat_eq_append, ← List.cons_append, ← List.append_assoc] at heq
    obtain ⟨rfl, -⟩ := List.append_inj' heq rfl
    exact absurd hkind (hothers lexed (by simp))

/-- Something follows every other token. -/
theorem ne_nil_of_kind (h : Terminated (before ++ lexed :: rest))
    (hkind : lexed.token.kind ≠ .endOfInput) : rest ≠ [] := by
  rintro rfl
  obtain ⟨init, last, heq, hlast, -⟩ := h
  obtain ⟨-, hlexed⟩ := List.append_inj' heq rfl
  obtain rfl := List.singleton_inj.1 hlexed
  exact hkind hlast

end Terminated

theorem Lexed.terminated_ofOutcomes {init : List Outcome} {last : Token}
    (hlast : last.kind = .endOfInput) (hothers : ∀ outcome ∈ init, ¬ outcome.isEnd)
    (faults : List LexicalFault) : Terminated (ofOutcomes faults (init ++ [.token last])) := by
  induction init generalizing faults with
  | nil => exact ⟨[], ⟨faults, last⟩, rfl, hlast, by simp⟩
  | cons outcome init ih =>
    have hrest (outcome : Outcome) (h : outcome ∈ init) := hothers outcome (.tail _ h)
    cases outcome with
    | fault fault => exact ih hrest (faults ++ [fault])
    | token token =>
      obtain ⟨before, final, heq, hfinal, hbefore⟩ := ih hrest []
      refine ⟨⟨faults, token⟩ :: before, final, ?_, hfinal, ?_⟩
      · simp only [List.cons_append, ofOutcomes, heq]
      · intro lexed hlexed
        rcases List.mem_cons.1 hlexed with rfl | hlater
        · simpa [Outcome.isEnd] using hothers (.token token) (.head _)
        · exact hbefore lexed hlater

theorem terminated_lex (source : Text) : Terminated (lex source) := by
  obtain ⟨init, last, hrun, hlast, hothers⟩ := (Cursor.start source).run_eq_append
  rw [lex, scan, hrun]
  exact Lexed.terminated_ofOutcomes hlast hothers []

/-! ## sources without faults -/

theorem Lexed.ofOutcomes_tokens (tokens : List Token) :
    ofOutcomes [] (tokens.map .token) = tokens.map (Lexed.mk []) := by
  induction tokens with
  | nil => rfl
  | cons token tokens ih => simp only [List.map_cons, ofOutcomes, ih]

theorem lex_of_scan {source : Text} {tokens : List Token} (h : scan source = tokens.map .token) :
    lex source = tokens.map (Lexed.mk []) := by
  rw [lex, h, Lexed.ofOutcomes_tokens]

/-- The tokens of a source, without the end marker. -/
def tokensOf (source : Text) : List Token := ((lex source).map Lexed.token).dropLast

theorem tokensOf_of_scan {source : Text} {tokens : List Token}
    (h : scan source = tokens.map .token) :
    tokensOf source = tokens.dropLast := by
  rw [tokensOf, lex_of_scan h, List.map_map]
  exact congrArg List.dropLast (List.map_id tokens)

theorem length_tokensOf {source : Text} {tokens : List Token}
    (h : scan source = tokens.map .token) :
    (tokensOf source).length = tokens.length - 1 := by
  rw [tokensOf_of_scan h, List.length_dropLast]

/-- Faults before an end marker are all carried by tokens. -/
theorem Lexed.eq_map_of_faultless {init : List Outcome} {last : Token}
    {faults : List LexicalFault}
    (h : ∀ lexed ∈ ofOutcomes faults (init ++ [.token last]), lexed.faults = []) :
    faults = [] ∧ init ++ [.token last] =
      (ofOutcomes faults (init ++ [.token last])).map fun lexed => .token lexed.token := by
  induction init generalizing faults with
  | nil => exact ⟨h ⟨faults, last⟩ (by simp [ofOutcomes]), rfl⟩
  | cons outcome init ih =>
    cases outcome with
    | fault fault => exact absurd (ih h).1 (by simp)
    | token token =>
      have hfaultless : ∀ lexed ∈ ofOutcomes [] (init ++ [.token last]), lexed.faults = [] :=
        fun lexed hlexed => h lexed (.tail _ hlexed)
      have hrest := ih hfaultless
      refine ⟨h ⟨faults, token⟩ (.head _), ?_⟩
      simp only [List.cons_append, ofOutcomes, List.map_cons, ← hrest.2]

theorem scan_of_faultless {source : Text} (h : ∀ lexed ∈ lex source, lexed.faults = []) :
    scan source = ((lex source).map Lexed.token).map .token := by
  obtain ⟨init, last, hrun, -, -⟩ := (Cursor.start source).run_eq_append
  rw [lex, scan, hrun] at h
  rw [lex, scan, hrun, List.map_map]
  exact (Lexed.eq_map_of_faultless h).2

end Lox
