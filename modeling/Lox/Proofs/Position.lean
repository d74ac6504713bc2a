import Lox.Proofs.Lines
import Lox.Proofs.LongestMatch

/-!
# Lox.Proofs.Position

The line of every outcome, by its place in the source.

However many steps were taken, a cursor stands between two parts of the source,
and its line counts the separators of the first part (`Cursor.exists_between`).
The next step passes a gap and a span and stands behind them
(`Cursor.next_between`).  So an outcome has the line of the offset at which its
span ends, faults and end markers included (`line_of_span_end`).
-/

namespace Lox

/-! ## spans by offsets -/

/-- The offsets of a source between which an outcome stands.  An open string
reaches to the end of the source, and the end marker is there. -/
inductive Outcome.Spans (source : Text) : Nat → Nat → Outcome → Prop where
  | token {start : Nat} {found : Token} (hkind : found.kind ≠ .endOfInput)
      (hne : found.lexeme ≠ []) (hlexeme : found.lexeme <+: source.drop start) :
      Spans source start (start + found.lexeme.length) (.token found)
  | unexpected {found : LexicalFault} (herror : found.error = .unexpectedCharacter)
      (hlt : found.offset < source.length) :
      Spans source found.offset (found.offset + 1) (.fault found)
  | unterminated {found : LexicalFault} (herror : found.error = .unterminatedString)
      (hquote : source[found.offset]? = some quote) :
      Spans source found.offset source.length (.fault found)
  | marker {found : Token} (hkind : found.kind = .endOfInput) (hlexeme : found.lexeme = []) :
      Spans source source.length source.length (.token found)

/-- An outcome that a step from one offset finds before another one.  It stands
behind a gap, and its line is one more than the number of line separators before
its end; for a string these are the separators before its closing quote. -/
structure Outcome.Exact (source : Text) (offset stop : Nat) (outcome : Outcome) : Prop where
  spans : ∃ start, offset ≤ start ∧ Trailing ((source.take start).drop offset) ∧
    outcome.Spans source start stop
  line : outcome.line = 1 + Text.newlines (source.take stop)
  closing : ∀ token, outcome = .token token → token.kind = .string →
    ∃ closing, stop = closing + 1 ∧ source[closing]? = some quote ∧
      token.line = 1 + Text.newlines (source.take closing)

section

variable {before span rest : Text} {reading : Except LexicalError TokenKind}

@[simp] theorem Outcome.line_ofSpan (before span : Text)
    (reading : Except LexicalError TokenKind) :
    (Outcome.ofSpan before span reading).line = 1 + Text.newlines (before ++ span) := by
  cases reading <;> rfl

theorem Word.Formed.lexeme_ne_nil {word : Word} (h : word.Formed) : word.lexeme ≠ [] := by
  cases h with
  | keyword k =>
    obtain ⟨first, more, hspelling, -⟩ := k.spelling_eq_cons
    simp [hspelling]
  | @symbol kind spelling h =>
    rintro rfl
    cases kind <;> cases h
  | _ => simp

/-- What the grammar finds at a place spans the units that it takes there. -/
theorem Matches.spans (h : Matches reading span rest) (before : Text) :
    (Outcome.ofSpan before span reading).Spans (before ++ (span ++ rest)) before.length
      (before ++ span).length := by
  cases h with
  | @word word rest hword _ =>
    have hlexeme : word.lexeme <+: (before ++ (word.lexeme ++ rest)).drop before.length := by simp
    rw [List.length_append]
    exact @Outcome.Spans.token _ _ ⟨word.kind, word.lexeme, _⟩ hword.kind_ne hword.lexeme_ne_nil
      hlexeme
  | @unexpected u rest h =>
    have hlt : before.length < (before ++ ([u] ++ rest)).length := by simp
    rw [List.length_append]
    exact @Outcome.Spans.unexpected _ ⟨_, _, before.length⟩ rfl hlt
  | @unterminated body h =>
    have hquote : (before ++ (quote :: body ++ []))[before.length]? = some quote := by simp
    rw [List.append_nil] at hquote ⊢
    exact @Outcome.Spans.unterminated _ ⟨_, _, before.length⟩ rfl hquote

/-- A string ends with a quote. -/
theorem Matches.exists_closing (h : Matches reading span rest) (hstring : reading = .ok .string) :
    ∃ front, span = front ++ [quote] := by
  cases h with
  | word hword =>
    cases hword with
    | @string content h => exact ⟨quote :: content, rfl⟩
    | symbol hsymbol =>
      obtain rfl := Except.ok.inj hstring
      cases hsymbol
    | _ => cases hstring
  | _ => cases hstring

/-- The line of a string counts the separators before its closing quote. -/
theorem Matches.closing (h : Matches reading span rest) (before : Text) {token : Token}
    (htoken : Outcome.ofSpan before span reading = .token token) (hstring : token.kind = .string) :
    ∃ closing, (before ++ span).length = closing + 1 ∧
      (before ++ (span ++ rest))[closing]? = some quote ∧
      token.line = 1 + Text.newlines ((before ++ (span ++ rest)).take closing) := by
  have hquote : Text.newlines [quote] = 0 := by decide
  cases reading with
  | error error => cases htoken
  | ok kind =>
    cases htoken
    obtain ⟨front, rfl⟩ := h.exists_closing (congrArg Except.ok hstring)
    have htext : before ++ (front ++ [quote] ++ rest) = before ++ front ++ quote :: rest := by simp
    refine ⟨(before ++ front).length, by simp [Nat.add_assoc], ?_, ?_⟩
    · simp
    · rw [htext, List.take_left]
      simp [hquote]

end

/-! ## steps -/

namespace Cursor

/-- The place after some number of steps through a source. -/
def after (source : Text) : Nat → Cursor
  | 0 => start source
  | count + 1 => (after source count).next.2

/-- A step from between two parts of a source finds the end marker, or what the
grammar finds behind a gap. -/
theorem next_between (before rest : Text) :
    (Trailing rest ∧ (between before rest).next =
      (.token (.marker (before ++ rest)), between (before ++ rest) [])) ∨
    ∃ gap span after reading, rest = gap ++ (span ++ after) ∧ Gap gap ∧
      Matches reading span after ∧ (between before rest).next =
        (.ofSpan (before ++ gap) span reading, between (before ++ gap ++ span) after) := by
  rcases trailing_or_opens rest with h | ⟨gap, first, after, rfl, hgap, hopens⟩
  · exact .inl ⟨h, next_trailing h⟩
  · have hmatches := matches_read hopens
    have htext := Span.units_append_rest first after
    rw [← htext] at hopens ⊢
    exact .inr ⟨gap, _, _, _, rfl, hgap, hmatches, next_span before hgap hopens hmatches⟩

/-- A cursor always stands between two parts of the source. -/
theorem exists_between (source : Text) (count : Nat) :
    ∃ before rest, source = before ++ rest ∧ after source count = between before rest := by
  induction count with
  | zero => exact ⟨[], source, rfl, rfl⟩
  | succ count ih =>
    obtain ⟨before, rest, rfl, hafter⟩ := ih
    rw [after, hafter]
    rcases next_between before rest with ⟨-, hnext⟩ | ⟨gap, span, rest, _, rfl, -, -, hnext⟩
    · exact ⟨before ++ rest, [], by simp, by rw [hnext]⟩
    · exact ⟨before ++ gap ++ span, rest, by simp, by rw [hnext]⟩

/-- The line of a cursor does not go back. -/
theorem line_after_le (source : Text) {count later : Nat} (h : count ≤ later) :
    (after source count).line ≤ (after source later).line := by
  induction h with
  | refl => exact Nat.le_refl _
  | step _ ih => exact Nat.le_trans ih (line_next _).2

/-- What a step finds is exact. -/
theorem exact_next (before rest : Text) :
    (between before rest).next.1.Exact (before ++ rest) before.length
      (between before rest).next.2.offset := by
  rcases next_between before rest with
    ⟨hgap, hnext⟩ | ⟨gap, span, rest, reading, rfl, hgap, hmatches, hnext⟩
  · rw [hnext]
    refine ⟨⟨(before ++ rest).length, by simp, ?_, .marker rfl rfl⟩, ?_, ?_⟩
    · rwa [List.take_length, List.drop_left]
    · show 1 + _ = 1 + Text.newlines ((before ++ rest).take (before ++ rest).length)
      rw [List.take_length]
    · rintro token ⟨⟩ hstring
      cases hstring
  · have htext : before ++ (gap ++ (span ++ rest)) = before ++ gap ++ (span ++ rest) := by simp
    rw [hnext, htext]
    refine ⟨⟨(before ++ gap).length, by simp, ?_, hmatches.spans (before ++ gap)⟩, ?_, ?_⟩
    · rw [List.take_left, List.drop_left]
      exact .gap hgap
    · show _ = 1 + Text.newlines (List.take (before ++ gap ++ span).length _)
      rw [Outcome.line_ofSpan, ← List.append_assoc, List.take_left]
    · intro token htoken hstring
      exact hmatches.closing (before ++ gap) htoken hstring

end Cursor

/-- The line of every outcome is exact.  However many steps were taken, the next
one finds an outcome whose line is one more than the number of line separators
before its end, and what later steps find is never on an earlier line. -/
theorem line_of_span_end (source : Text) (count : Nat) :
    let step := (Cursor.after source count).next
    step.1.Exact source (Cursor.after source count).offset step.2.offset ∧
      ∀ later, count ≤ later → step.1.line ≤ (Cursor.after source later).next.1.line := by
  refine ⟨?_, fun later hle => ?_⟩
  · obtain ⟨before, rest, rfl, hafter⟩ := Cursor.exists_between source count
    rw [hafter]
    exact Cursor.exact_next before rest
  · rw [(Cursor.line_next _).1, (Cursor.line_next _).1]
    exact Cursor.line_after_le source (Nat.succ_le_succ hle)

/-- A string has the line of its closing quote, and an open one that of the end
of the source. -/
example : (Cursor.start (text "\"a\n\" // b\n\"c\n")).take 3 =
    [.token ⟨.string, text "\"a\n\"", 2⟩, .fault ⟨.unterminatedString, 4, 10⟩,
     .token ⟨.endOfInput, [], 4⟩] := by decide +kernel

end Lox
