import Lox.Proofs.Joining

/-!
# Lox.Proofs.Lines

Lines in the order of the source.

A cursor never goes up: every outcome is at the line that the cursor has come to
(`Cursor.ascending_run`).  So the lines of a whole source, faults and tokens
alike, are in ascending order (`ascending_lex`).
-/

namespace Lox

/-- Lines in ascending order, of which neighbours may be equal. -/
abbrev Ascending (lines : List Nat) : Prop := lines.Pairwise (· ≤ ·)

/-- What comes first is above all the rest. -/
theorem Ascending.cons {line first : Nat} {lines : List Nat} (hle : line ≤ first)
    (h : Ascending (first :: lines)) : Ascending (line :: first :: lines) := by
  refine List.pairwise_cons.2 ⟨fun next hnext => ?_, h⟩
  obtain rfl | hrest := List.mem_cons.1 hnext
  · exact hle
  · exact Nat.le_trans hle ((List.pairwise_cons.1 h).1 next hrest)

/-- Nothing is below what comes last. -/
theorem Ascending.le_last {line last : Nat} {lines : List Nat} (h : Ascending (lines ++ [last]))
    (hline : line ∈ lines ++ [last]) : line ≤ last := by
  obtain hfront | hlast := List.mem_append.1 hline
  · exact (List.pairwise_append.1 h).2.2 line hfront last (List.mem_singleton_self last)
  · exact Nat.le_of_eq (List.mem_singleton.1 hlast)

/-- The line of an outcome. -/
def Outcome.line : Outcome → Nat
  | token found => found.line
  | fault found => found.line

namespace Cursor

theorem line_found (offset line : Nat) (rest : Text) :
    (found offset line rest).1.line = (found offset line rest).2.line ∧
      line ≤ (found offset line rest).2.line := by
  cases rest with
  | nil => exact ⟨rfl, Nat.le_refl line⟩
  | cons first after =>
    simp only [found]
    split
    · exact ⟨rfl, Nat.le_add_right ..⟩
    · exact ⟨rfl, Nat.le_add_right ..⟩

/-- An outcome is at the line to which the cursor has come, and that is not
above the one at which it was. -/
theorem line_next (c : Cursor) : c.next.1.line = c.next.2.line ∧ c.line ≤ c.next.2.line := by
  rw [next_eq]
  have hfound := line_found (c.offset + (splitGap false c.rest).1.length)
    (c.line + Text.newlines (splitGap false c.rest).1) (splitGap false c.rest).2
  exact ⟨hfound.1, Nat.le_trans (Nat.le_add_right ..) hfound.2⟩

/-- A run goes down from its cursor. -/
theorem ascending_run (c : Cursor) : Ascending (c.line :: c.run.1.map Outcome.line) := by
  induction c using run.induct with
  | case1 c hend =>
    obtain ⟨hline, hle⟩ := line_next c
    rw [run_of_isEnd hend, List.map_singleton, hline]
    exact .cons hle (List.pairwise_singleton ..)
  | case2 c hgo _ _ _ ih =>
    obtain ⟨hline, hle⟩ := line_next c
    have hend : c.next.1.isEnd = false := by simpa using hgo
    rw [run_of_not_isEnd hend, List.map_cons, hline]
    exact .cons hle ih

end Cursor

/-- Everything that a scan finds is below what it found before. -/
theorem ascending_scan (source : Text) : Ascending (1 :: (scan source).map Outcome.line) :=
  (Cursor.start source).ascending_run

/-! ## tokens with the faults before them -/

/-- The lines of the faults before a token and of the token. -/
def Lexed.lines (lexed : Lexed) : List Nat :=
  lexed.faults.map LexicalFault.line ++ [lexed.token.line]

/-- Faults and tokens stand in the order of the outcomes. -/
theorem Lexed.lines_ofOutcomes (faults : List LexicalFault) (outcomes : List Outcome) :
    (ofOutcomes faults outcomes).flatMap lines <+:
      faults.map LexicalFault.line ++ outcomes.map Outcome.line := by
  fun_induction ofOutcomes faults outcomes with
  | case1 faults => exact List.nil_prefix
  | case2 faults fault rest ih => simpa [Outcome.line] using ih
  | case3 faults token rest ih =>
    rw [List.flatMap_cons, lines, List.append_assoc, List.map_cons]
    simpa [Outcome.line] using ih

theorem ascending_lex (source : Text) : Ascending (1 :: (lex source).flatMap Lexed.lines) := by
  have hprefix := Lexed.lines_ofOutcomes [] (scan source)
  exact (ascending_scan source).sublist (.cons_cons 1 hprefix.sublist)

end Lox
