import Lox.Proofs.Joining
import Lox.Proofs.Lexical

/-!
# Lox.Proofs.LongestMatch

The scanner against its lexical grammar, for every source.

`Lexes` says what the outcomes of a text are without a scanner: after each gap
stands the longest word of the grammar (`Word.Longest`), a unit that begins no
word, or an opening quote that nothing closes (`Matches`).  Gaps and spans are
the pieces of the text, so no unit of it is lost and none is read twice.

The scanner never compares two words: it stops where a unit does not continue
the word that it reads.  What follows the longest word does not continue it
(`Word.Formed.ends_of_longest`), so the longest word is the one that is read.
-/

namespace Lox

/-! ## the grammar of a source -/

/-- Neither a blank nor a comment stands at the beginning of a text. -/
def Opens (t : Text) : Prop :=
  (∀ u ∈ t.head?, isBlank u = false) ∧ ¬ [unit '/', unit '/'] <+: t

/-- What may stand after the last word: a gap, and a comment that the text
ends in. -/
inductive Trailing : Text → Prop where
  | gap {gap : Text} (h : Gap gap) : Trailing gap
  | comment {gap body : Text} (h : Gap gap) (hbody : newline ∉ body) :
      Trailing (gap ++ unit '/' :: unit '/' :: body)

/-- No word at the beginning of a text is longer than this one, which the text
begins with. -/
def Word.Longest (word : Word) (rest : Text) : Prop :=
  ∀ other : Word, other.Formed → other.lexeme <+: word.lexeme ++ rest →
    other.lexeme.length ≤ word.lexeme.length

/-- A span at the beginning of a text, what it is, and what follows it. -/
inductive Matches : Except LexicalError TokenKind → Text → Text → Prop where
  | word {word : Word} {rest : Text} (hword : word.Formed) (hlongest : word.Longest rest) :
      Matches (.ok word.kind) word.lexeme rest
  | unexpected {u : CodeUnit} {rest : Text}
      (h : ∀ word : Word, word.Formed → word.lexeme.head? ≠ some u) :
      Matches (.error .unexpectedCharacter) [u] rest
  | unterminated {body : Text} (h : quote ∉ body) :
      Matches (.error .unterminatedString) (quote :: body) []

/-- The outcome of a span that stands after `before`. -/
def Outcome.ofSpan (before span : Text) : Except LexicalError TokenKind → Outcome
  | .ok kind => token ⟨kind, span, 1 + Text.newlines (before ++ span)⟩
  | .error error => fault ⟨error, 1 + Text.newlines (before ++ span), before.length⟩

/-- The marker at the end of a source. -/
def Token.marker (source : Text) : Token := ⟨.endOfInput, [], 1 + Text.newlines source⟩

/-- The outcomes of a text that stands after `before`, up to the end marker. -/
inductive Lexes : Text → Text → List Outcome → Prop where
  | done {before gap : Text} (h : Trailing gap) :
      Lexes before gap [.token (.marker (before ++ gap))]
  | span {before gap span rest : Text} {reading : Except LexicalError TokenKind}
      {outcomes : List Outcome} (hgap : Gap gap) (hopens : Opens (span ++ rest))
      (hmatches : Matches reading span rest) (hspan : span ≠ [])
      (hrest : Lexes (before ++ gap ++ span) rest outcomes) :
      Lexes before (gap ++ (span ++ rest)) (.ofSpan (before ++ gap) span reading :: outcomes)

/-! ## gaps -/

section

variable {t gap rest body : Text} {u : CodeUnit}

theorem splitGap_of_opens (h : Opens t) : splitGap false t = ([], t) := by
  cases t with
  | nil => rfl
  | cons u rest =>
    have hblank : isBlank u = false := h.1 u rfl
    have hcomment : ¬ (u == unit '/' && rest.head? == some (unit '/')) = true := by
      intro hslash
      rw [Bool.and_eq_true, beq_iff_eq, beq_iff_eq, List.head?_eq_some_iff] at hslash
      obtain ⟨rfl, more, rfl⟩ := hslash
      exact h.2 ⟨more, rfl⟩
    simp [splitGap, hblank, hcomment]

theorem Trailing.splitGap (h : Trailing gap) : splitGap false gap = (gap, []) := by
  cases h with
  | gap h => simpa [Lox.splitGap] using h.splitGap []
  | comment h hbody => rw [h.splitGap, splitGap_comment, splitGap_comment_end hbody]

theorem Trailing.blank (hu : isBlank u = true) (h : Trailing t) : Trailing (u :: t) := by
  cases h with
  | gap h => exact .gap (.blank hu h)
  | comment h hbody => exact .comment (.blank hu h) hbody

theorem Trailing.after_comment (hbody : newline ∉ body) (h : Trailing t) :
    Trailing (unit '/' :: unit '/' :: body ++ newline :: t) := by
  cases h with
  | gap h => exact .gap (.comment hbody h)
  | @comment gap last h hlast =>
    have hall := Trailing.comment (.comment hbody h) hlast
    simpa using hall

/-- A text is all gap, or a gap with something after it that begins none. -/
theorem trailing_or_opens (t : Text) : Trailing t ∨
    ∃ gap first after, t = gap ++ first :: after ∧ Gap gap ∧ Opens (first :: after) := by
  match t with
  | [] => exact .inl (.gap .nil)
  | u :: rest =>
    by_cases hblank : isBlank u = true
    · rcases trailing_or_opens rest with h | ⟨gap, first, after, rfl, hgap, hopens⟩
      · exact .inl (h.blank hblank)
      · exact .inr ⟨u :: gap, first, after, rfl, .blank hblank hgap, hopens⟩
    by_cases hcomment : [unit '/', unit '/'] <+: u :: rest
    · obtain ⟨after, heq⟩ := hcomment
      by_cases hline : newline ∈ after
      · obtain ⟨body, more, rfl, hbody⟩ := List.eq_append_cons_of_mem hline
        have hshorter : more.length < rest.length := by
          have hlength := congrArg List.length heq
          simp at hlength
          omega
        rw [← heq]
        rcases trailing_or_opens more with h | ⟨gap, first, after, rfl, hgap, hopens⟩
        · exact .inl (h.after_comment hbody)
        · exact .inr ⟨_, first, after, by simp, .comment hbody hgap, hopens⟩
      · rw [← heq]
        exact .inl (.comment .nil hline)
    · exact .inr ⟨[], u, rest, rfl, .nil, by simpa using hblank, hcomment⟩
termination_by t.length

end

/-! ## words -/

/-- What begins an operator is one by itself. -/
theorem TokenKind.exists_symbol_alone {kind : TokenKind} {first : CodeUnit} {more : Text}
    (h : kind.symbol? = some (first :: more)) :
    ∃ alone : TokenKind, alone.symbol? = some [first] := by
  cases kind with
  | bangEqual => cases h; exact ⟨.bang, rfl⟩
  | equalEqual => cases h; exact ⟨.equal, rfl⟩
  | greaterEqual => cases h; exact ⟨.greater, rfl⟩
  | lessEqual => cases h; exact ⟨.less, rfl⟩
  | _ =>
    obtain rfl : more = [] := by cases h <;> rfl
    exact ⟨_, h⟩

namespace Word

variable {word : Word} {rest : Text}

/-- A run that begins with a letter is a word, reserved or not. -/
theorem formed_ofWord {first : CodeUnit} {more : Text} (hfirst : isLetter first = true)
    (hmore : ∀ u ∈ more, isWordUnit u = true) :
    Formed ⟨.ofWord (first :: more), first :: more⟩ := by
  cases hfound : Keyword.ofText? (first :: more) with
  | some k =>
    rw [← Keyword.spelling_of_ofText? hfound, TokenKind.ofWord_spelling]
    exact .keyword k
  | none =>
    have hkind : TokenKind.ofWord (first :: more) = .identifier := by rw [TokenKind.ofWord, hfound]
    rw [hkind]
    refine .name hfirst hmore fun k hk => ?_
    simp [← hk] at hfound

/-- A unit that begins a word is a word by itself, a quote apart. -/
theorem Formed.single {first : CodeUnit} (h : word.Formed)
    (hfirst : word.lexeme.head? = some first) (hquote : first ≠ quote) :
    ∃ kind, Formed ⟨kind, [first]⟩ := by
  have hletter (h : isLetter first = true) : ∃ kind, Formed ⟨kind, [first]⟩ :=
    ⟨_, formed_ofWord h (by simp)⟩
  have hdigit (h : isDigit first = true) : ∃ kind, Formed ⟨kind, [first]⟩ :=
    ⟨_, .whole (by simpa using h)⟩
  cases h with
  | name h =>
    cases hfirst
    exact hletter h
  | keyword k =>
    obtain ⟨_, _, hspelling, h, -⟩ := k.spelling_eq_cons
    simp only [hspelling, List.head?_cons, Option.some.injEq] at hfirst
    exact hletter (hfirst ▸ h)
  | whole h =>
    cases hfirst
    exact hdigit (h _ (.head _))
  | decimal h =>
    cases hfirst
    exact hdigit (h _ (.head _))
  | string =>
    cases hfirst
    exact absurd rfl hquote
  | symbol h =>
    obtain ⟨more, rfl⟩ := List.head?_eq_some_iff.1 hfirst
    obtain ⟨alone, halone⟩ := TokenKind.exists_symbol_alone h
    exact ⟨alone, .symbol halone⟩

/-! The longest word is not continued by what follows it. -/

theorem Longest.not_formed {kind : TokenKind} (h : word.Longest rest) (more : Text)
    (hmore : more ≠ []) (hrest : more <+: rest) : ¬ Formed ⟨kind, word.lexeme ++ more⟩ := by
  intro hformed
  obtain ⟨after, rfl⟩ := hrest
  have hlength := h _ hformed ⟨after, List.append_assoc ..⟩
  have hpos := List.length_pos_iff.2 hmore
  simp only [List.length_append] at hlength
  omega

theorem Longest.head?_ne {u : CodeUnit} {kind : TokenKind} (h : word.Longest rest)
    (hlonger : Formed ⟨kind, word.lexeme ++ [u]⟩) : rest.head? ≠ some u := by
  intro hu
  obtain ⟨after, rfl⟩ := List.head?_eq_some_iff.1 hu
  exact h.not_formed [u] (by simp) ⟨after, rfl⟩ hlonger

/-- A word stops before a class of units if each of them would make it longer. -/
theorem Longest.stops {p : CodeUnit → Bool} (h : word.Longest rest)
    (hlonger : ∀ u, p u = true → ∃ kind, Formed ⟨kind, word.lexeme ++ [u]⟩) :
    ∀ u ∈ rest.head?, p u = false := by
  intro u hu
  rw [← Bool.not_eq_true]
  intro hp
  obtain ⟨kind, hformed⟩ := hlonger u hp
  exact h.head?_ne hformed hu

theorem Longest.run {kind : TokenKind} {first : CodeUnit} {more : Text}
    (h : Longest ⟨kind, first :: more⟩ rest) (hfirst : isLetter first = true)
    (hmore : ∀ u ∈ more, isWordUnit u = true) : ∀ u ∈ rest.head?, isWordUnit u = false := by
  refine h.stops fun u hu => ⟨.ofWord (first :: (more ++ [u])), ?_⟩
  have hall : ∀ v ∈ more ++ [u], isWordUnit v = true :=
    List.forall_mem_append.2 ⟨hmore, by simpa using hu⟩
  exact formed_ofWord hfirst hall

theorem Formed.ends_of_longest (hword : word.Formed) (h : word.Longest rest)
    (hopens : Opens (word.lexeme ++ rest)) : word.Ends rest := by
  have hdigits {u : CodeUnit} {digits : Text} (hall : ∀ v ∈ digits, isDigit v = true)
      (hu : isDigit u = true) : ∀ v ∈ digits ++ [u], isDigit v = true :=
    List.forall_mem_append.2 ⟨hall, by simpa using hu⟩
  cases hword with
  | name hfirst hmore => exact h.run hfirst hmore
  | keyword k =>
    obtain ⟨first, more, hspelling, hfirst, hmore⟩ := k.spelling_eq_cons
    rw [hspelling] at h
    exact h.run hfirst hmore
  | whole hall =>
    constructor
    · exact h.stops fun u hu => ⟨.number, .whole (hdigits hall hu)⟩
    · rintro - u after rfl
      rw [← Bool.not_eq_true]
      intro hu
      have htenths : ∀ v ∈ [u], isDigit v = true := by simpa using hu
      exact h.not_formed [unit '.', u] (by simp) ⟨after, rfl⟩ (.decimal hall htenths)
  | decimal hall hfraction =>
    constructor
    · refine h.stops fun u hu => ⟨.number, ?_⟩
      have hlonger := Formed.decimal hall (hdigits hfraction hu)
      simpa using hlonger
    · intro hpoint
      exact absurd (by simp) hpoint
  | string => trivial
  | @symbol kind spelling hsymbol =>
    have hequal (longer : TokenKind) (hlonger : longer.symbol? = some (spelling ++ [unit '='])) :
        rest.head? ≠ some (unit '=') := h.head?_ne (.symbol hlonger)
    cases kind with
    | bang => cases hsymbol; exact hequal .bangEqual rfl
    | equal => cases hsymbol; exact hequal .equalEqual rfl
    | greater => cases hsymbol; exact hequal .greaterEqual rfl
    | less => cases hsymbol; exact hequal .lessEqual rfl
    | slash =>
      -- two slashes would be a comment, not a longer word
      cases hsymbol
      intro hu
      obtain ⟨after, rfl⟩ := List.head?_eq_some_iff.1 hu
      exact hopens.2 ⟨after, rfl⟩
    | _ => trivial

/-- Where a word stands, there is a longest one. -/
theorem Formed.exists_longest {word : Word} (h : word.Formed) (rest : Text) :
    ∃ (best : Word) (more : Text), best.Formed ∧ best.Longest more ∧
      best.lexeme ++ more = word.lexeme ++ rest := by
  by_cases hlongest : word.Longest rest
  · exact ⟨word, rest, h, hlongest, rfl⟩
  · simp only [Longest, Classical.not_forall, Nat.not_le] at hlongest
    obtain ⟨other, hother, ⟨after, heq⟩, hlonger⟩ := hlongest
    have hshorter : after.length < rest.length := by
      have hlength := congrArg List.length heq
      simp only [List.length_append] at hlength
      omega
    obtain ⟨best, more, hbest, hbestLongest, htext⟩ := hother.exists_longest after
    exact ⟨best, more, hbest, hbestLongest, htext.trans heq⟩
termination_by rest.length

end Word

/-! ## spans -/

section

variable {u first : CodeUnit} {after body span rest : Text}
  {reading : Except LexicalError TokenKind}

theorem Span.read_unterminated (h : quote ∉ body) :
    read quote body = ⟨.error .unterminatedString, quote :: body, []⟩ := by
  have hdrop : (body ++ []).dropWhile (· != quote) = [] := dropWhile_run (bne_quote h) (by simp)
  have htake : (body ++ []).takeWhile (· != quote) = body := takeWhile_run (bne_quote h) (by simp)
  rw [List.append_nil] at hdrop htake
  have hread : read quote body = string quote body := rfl
  rw [hread, string, hdrop, htake]

/-- What begins no word is read as one unit. -/
theorem Span.read_unexpected (h : ∀ word : Word, word.Formed → word.lexeme.head? ≠ some u) :
    read u after = ⟨.error .unexpectedCharacter, [u], after⟩ := by
  have hsymbol (kind : TokenKind) : kind.symbol? ≠ some [u] :=
    fun hkind => h _ (.symbol hkind) rfl
  have hnil (p : CodeUnit → Bool) : ∀ v ∈ ([] : Text), p v = true := by simp
  have hletter : ¬ isLetter u = true := fun hu => h _ (Word.formed_ofWord hu (hnil _)) rfl
  have hdigit : ¬ isDigit u = true := fun hu =>
    h ⟨.number, [u]⟩ (.whole (by simpa using hu)) rfl
  have hquote : ¬ (u == quote) = true := fun hu =>
    h _ (.string List.not_mem_nil) (by rw [beq_iff_eq.1 hu]; rfl)
  have hcomparison : comparisons.lookup u = none := by
    have hkinds : ∀ entry ∈ comparisons, entry.2.1.symbol? = some [entry.1] := by decide
    cases hlookup : comparisons.lookup u with
    | none => rfl
    | some kinds => exact absurd (hkinds _ (mem_of_lookup hlookup)) (hsymbol _)
  have hpunctuation : punctuation.lookup u = none := by
    have hkinds : ∀ entry ∈ punctuation, entry.2.symbol? = some [entry.1] := by decide
    cases hlookup : punctuation.lookup u with
    | none => rfl
    | some kind => exact absurd (hkinds _ (mem_of_lookup hlookup)) (hsymbol _)
  simp [read, hletter, hdigit, hquote, hcomparison, hpunctuation]

/-- The grammar says what is read at a place. -/
theorem Matches.read (h : Matches reading span rest) (hopens : Opens (span ++ rest)) :
    ∃ first more, span = first :: more ∧
      Span.read first (more ++ rest) = ⟨reading, span, rest⟩ := by
  cases h with
  | word hword hlongest => exact hword.read (hword.ends_of_longest hlongest hopens)
  | unexpected h => exact ⟨_, [], rfl, Span.read_unexpected h⟩
  | @unterminated body h =>
    exact ⟨quote, body, rfl, by rw [List.append_nil, Span.read_unterminated h]⟩

/-- Whatever is read at a place is in the grammar. -/
theorem matches_read (hopens : Opens (first :: after)) :
    Matches (Span.read first after).reading (Span.read first after).units
      (Span.read first after).rest := by
  by_cases hword : ∃ word : Word, word.Formed ∧ word.lexeme <+: first :: after
  · obtain ⟨word, hformed, rest, heq⟩ := hword
    obtain ⟨best, more, hbest, hlongest, htext⟩ := hformed.exists_longest rest
    rw [heq] at htext
    have hends := hbest.ends_of_longest hlongest (htext ▸ hopens)
    obtain ⟨_, _, hlexeme, hread⟩ := hbest.read hends
    rw [hlexeme, List.cons_append] at htext
    obtain ⟨rfl, rfl⟩ := List.cons.inj htext
    rw [hread]
    exact .word hbest hlongest
  by_cases hquote : first = quote
  · have hopen : quote ∉ after := by
      intro hmem
      obtain ⟨content, rest, rfl, hcontent⟩ := List.eq_append_cons_of_mem hmem
      exact hword ⟨_, .string hcontent, rest, by simp [hquote]⟩
    rw [hquote, Span.read_unterminated hopen]
    exact .unterminated hopen
  · have hnone : ∀ word : Word, word.Formed → word.lexeme.head? ≠ some first := by
      intro word hformed hfirst
      obtain ⟨kind, hsingle⟩ := hformed.single hfirst hquote
      exact hword ⟨_, hsingle, after, rfl⟩
    rw [Span.read_unexpected hnone]
    exact .unexpected hnone

theorem Matches.isEnd_ofSpan (h : Matches reading span rest) (before : Text) :
    (Outcome.ofSpan before span reading).isEnd = false := by
  cases h with
  | word hword => simpa [Outcome.ofSpan, Outcome.isEnd] using hword.kind_ne
  | unexpected | unterminated => rfl

end

/-! ## scanning -/

section

variable {before gap span rest : Text} {reading : Except LexicalError TokenKind}
  {outcomes : List Outcome}

/-- The place between two parts of a source. -/
def Cursor.between (before rest : Text) : Cursor :=
  ⟨rest, before.length, 1 + Text.newlines before⟩

theorem Cursor.next_trailing (h : Trailing gap) :
    (between before gap).next =
      (.token (.marker (before ++ gap)), between (before ++ gap) []) := by
  rw [next_eq]
  simp [between, h.splitGap, found, Token.marker, Nat.add_assoc]

theorem Cursor.next_span (before : Text) (hgap : Gap gap) (hopens : Opens (span ++ rest))
    (hmatches : Matches reading span rest) :
    (between before (gap ++ (span ++ rest))).next =
      (.ofSpan (before ++ gap) span reading, between (before ++ gap ++ span) rest) := by
  obtain ⟨first, more, hspan, hread⟩ := hmatches.read hopens
  have hsplit : splitGap false (gap ++ (span ++ rest)) = (gap, first :: (more ++ rest)) := by
    rw [hgap.splitGap, splitGap_of_opens hopens, hspan, List.append_nil, List.cons_append]
  rw [next_eq]
  cases reading <;> simp [between, hsplit, found, hread, Outcome.ofSpan, Nat.add_assoc]

namespace Lexes

/-- The grammar gives every text outcomes. -/
theorem exists_outcomes (before rest : Text) : ∃ outcomes, Lexes before rest outcomes := by
  rcases trailing_or_opens rest with h | ⟨gap, first, after, heq, hgap, hopens⟩
  · exact ⟨_, .done h⟩
  · have htext := Span.units_append_rest first after
    have hshorter : (Span.read first after).rest.length < rest.length := by
      have hspan := Span.length_rest_lt first after
      simp only [heq, List.length_append, List.length_cons]
      omega
    obtain ⟨outcomes, hrest⟩ :=
      exists_outcomes (before ++ gap ++ (Span.read first after).units) (Span.read first after).rest
    have hspan := Lexes.span hgap (htext ▸ hopens) (matches_read hopens)
      (Span.units_ne_nil first after) hrest
    rw [htext, ← heq] at hspan
    exact ⟨_, hspan⟩
termination_by rest.length

/-- They are what a run over the text finds. -/
theorem run (h : Lexes before rest outcomes) : (Cursor.between before rest).run.1 = outcomes := by
  induction h with
  | done h => rw [Cursor.run_of_isEnd] <;> rw [Cursor.next_trailing h]; rfl
  | @span before _ _ _ _ _ hgap hopens hmatches _ _ ih =>
    have hnext := Cursor.next_span before hgap hopens hmatches
    rw [Cursor.run_of_not_isEnd] <;> rw [hnext]
    · rw [ih]
    · exact hmatches.isEnd_ofSpan _

theorem length_le (h : Lexes before rest outcomes) : outcomes.length ≤ rest.length + 1 := by
  induction h with
  | done => simp
  | span _ _ _ hspan _ ih =>
    have hpos := List.length_pos_iff.2 hspan
    simp only [List.length_cons, List.length_append]
    omega

/-- The last outcome is the end marker, which comes nowhere else. -/
theorem ends_in_marker (h : Lexes before rest outcomes) : ∃ front,
    outcomes = front ++ [.token (.marker (before ++ rest))] ∧
      ∀ outcome ∈ front, outcome.isEnd = false := by
  induction h with
  | done => exact ⟨[], rfl, by simp⟩
  | @span before gap span rest reading outcomes _ _ hmatches _ _ ih =>
    obtain ⟨front, rfl, hfront⟩ := ih
    refine ⟨.ofSpan (before ++ gap) span reading :: front, by simp, ?_⟩
    simpa using ⟨hmatches.isEnd_ofSpan (before ++ gap), hfront⟩

end Lexes

/-- Past the end there are end markers only. -/
theorem Cursor.take_between_nil (before : Text) (count : Nat) :
    (between before []).take count = List.replicate count (.token (.marker before)) := by
  have hnext : (between before []).next =
      (.token (.marker (before ++ [])), between (before ++ []) []) := next_trailing (.gap .nil)
  rw [List.append_nil] at hnext
  induction count with
  | zero => rfl
  | succ count ih => rw [take, hnext, ih, List.replicate_succ]

theorem Lexes.take (h : Lexes before rest outcomes) (extra : Nat) :
    (Cursor.between before rest).take (outcomes.length + extra) =
      outcomes ++ List.replicate extra (.token (.marker (before ++ rest))) := by
  induction h with
  | done h =>
    rw [List.length_singleton, Nat.add_comm, Cursor.take, Cursor.next_trailing h,
      Cursor.take_between_nil, List.singleton_append]
  | @span before _ _ _ _ _ hgap hopens hmatches _ _ ih =>
    have hnext := Cursor.next_span before hgap hopens hmatches
    rw [List.length_cons, Nat.add_right_comm, Cursor.take, hnext, ih]
    simp

end

/-- Scanning a source finds the outcomes that the grammar gives it, and these
only.  They are at most one more than the source has units; the end marker is
the last of them, and each step after it finds the end marker again. -/
theorem scan_longest_match (source : Text) :
    (∀ outcomes, Lexes [] source outcomes ↔ outcomes = scan source) ∧
    (scan source).length ≤ source.length + 1 ∧
    (∃ front, scan source = front ++ [.token (.marker source)] ∧
      ∀ outcome ∈ front, outcome.isEnd = false) ∧
    ∀ extra, (Cursor.start source).take ((scan source).length + extra) =
      scan source ++ List.replicate extra (.token (.marker source)) := by
  obtain ⟨outcomes, hlexes⟩ := Lexes.exists_outcomes [] source
  have hscan : scan source = outcomes := hlexes.run
  rw [hscan]
  refine ⟨fun other => ⟨fun h => ?_, fun h => h ▸ hlexes⟩, hlexes.length_le, hlexes.ends_in_marker,
    hlexes.take⟩
  rw [← h.run, hlexes.run]

/-- A number leaves the point after it, and reading goes on after a fault. -/
example : (Cursor.start (text "8.@ //\n\"\n")).take 6 =
    [.token ⟨.number, text "8", 1⟩, .token ⟨.dot, text ".", 1⟩,
     .fault ⟨.unexpectedCharacter, 1, 2⟩, .fault ⟨.unterminatedString, 3, 7⟩,
     .token ⟨.endOfInput, [], 3⟩, .token ⟨.endOfInput, [], 3⟩] := by decide +kernel

end Lox
