import Lox.Token.Scan

/-!
# Lox.Proofs.Lexical

The lexical grammar of the language, and texts that spell given words.

A word is a kind with a lexeme that the kind may have (`Word.Formed`).  A text
spells a sequence of words if the words stand in it in order with gaps between
them, and no word is continued by what follows it (`Spells`).  Layout is free
otherwise: two words need a gap only where they would run together.  Scanning
a text finds the words that it spells.
-/

namespace Lox

/-- A token without its line. -/
structure Word where
  kind : TokenKind
  lexeme : Text
  deriving DecidableEq, Repr

/-- The word of a token. -/
def Token.word (token : Token) : Word := ⟨token.kind, token.lexeme⟩

/-- The word that ends every source. -/
def Word.endOfInput : Word := ⟨.endOfInput, []⟩

/-! ## the grammar -/

/-- How a kind is written that has one spelling only, keywords aside. -/
def TokenKind.symbol? : TokenKind → Option Text
  | leftParen => some [unit '(']
  | rightParen => some [unit ')']
  | leftBrace => some [unit '{']
  | rightBrace => some [unit '}']
  | comma => some [unit ',']
  | dot => some [unit '.']
  | minus => some [unit '-']
  | plus => some [unit '+']
  | semicolon => some [unit ';']
  | slash => some [unit '/']
  | star => some [unit '*']
  | bang => some [unit '!']
  | bangEqual => some [unit '!', unit '=']
  | equal => some [unit '=']
  | equalEqual => some [unit '=', unit '=']
  | greater => some [unit '>']
  | greaterEqual => some [unit '>', unit '=']
  | less => some [unit '<']
  | lessEqual => some [unit '<', unit '=']
  | _ => none

/-- The words of the language. -/
inductive Word.Formed : Word → Prop where
  | name {first : CodeUnit} {more : Text} (hfirst : isLetter first = true)
      (hmore : ∀ u ∈ more, isWordUnit u = true)
      (hfree : ∀ k : Keyword, k.spelling ≠ first :: more) :
      Formed ⟨.identifier, first :: more⟩
  | keyword (k : Keyword) : Formed ⟨.keyword k, k.spelling⟩
  | whole {digit : CodeUnit} {digits : Text} (h : ∀ u ∈ digit :: digits, isDigit u = true) :
      Formed ⟨.number, digit :: digits⟩
  | decimal {digit : CodeUnit} {digits : Text} {tenths : CodeUnit} {fraction : Text}
      (h : ∀ u ∈ digit :: digits, isDigit u = true)
      (hfraction : ∀ u ∈ tenths :: fraction, isDigit u = true) :
      Formed ⟨.number, digit :: digits ++ unit '.' :: tenths :: fraction⟩
  | string {content : Text} (h : quote ∉ content) : Formed ⟨.string, quote :: content ++ [quote]⟩
  | symbol {kind : TokenKind} {spelling : Text} (h : kind.symbol? = some spelling) :
      Formed ⟨kind, spelling⟩

/-- What follows a word does not continue it. -/
def Word.Ends (word : Word) (rest : Text) : Prop :=
  match word.kind with
  | .identifier | .keyword _ => ∀ u ∈ rest.head?, isWordUnit u = false
  | .number => (∀ u ∈ rest.head?, isDigit u = false) ∧
      (unit '.' ∉ word.lexeme → ∀ u more, rest = unit '.' :: u :: more → isDigit u = false)
  | .bang | .equal | .greater | .less => rest.head? ≠ some (unit '=')
  | .slash => rest.head? ≠ some (unit '/')
  | _ => True

/-- What may stand between words: blanks, and comments up to the end of their
line. -/
inductive Gap : Text → Prop where
  | nil : Gap []
  | blank {u : CodeUnit} {rest : Text} (h : isBlank u = true) (tail : Gap rest) : Gap (u :: rest)
  | comment {body rest : Text} (h : newline ∉ body) (tail : Gap rest) :
      Gap (unit '/' :: unit '/' :: body ++ newline :: rest)

/-- A text that consists of these words and gaps, the last of which may be a
comment that the text ends in. -/
inductive Spells : List Word → Text → Prop where
  | gap {gap : Text} (h : Gap gap) : Spells [] gap
  | comment {gap body : Text} (h : Gap gap) (hbody : newline ∉ body) :
      Spells [] (gap ++ unit '/' :: unit '/' :: body)
  | word {gap rest : Text} {word : Word} {words : List Word} (hgap : Gap gap)
      (hword : word.Formed) (hends : word.Ends rest) (hrest : Spells words rest) :
      Spells (word :: words) (gap ++ (word.lexeme ++ rest))

/-! ## classes of units -/

theorem isDigit_iff {u : CodeUnit} : isDigit u = true ↔ 48 ≤ u.toNat ∧ u.toNat ≤ 57 := by
  simp [isDigit, unit, UInt16.le_iff_toNat_le]

theorem isLetter_iff {u : CodeUnit} : isLetter u = true ↔
    (97 ≤ u.toNat ∧ u.toNat ≤ 122) ∨ (65 ≤ u.toNat ∧ u.toNat ≤ 90) ∨ u.toNat = 95 := by
  simp [isLetter, unit, UInt16.le_iff_toNat_le, ← UInt16.toNat_inj, or_assoc]

theorem isBlank_iff {u : CodeUnit} : isBlank u = true ↔
    u.toNat = 32 ∨ u.toNat = 13 ∨ u.toNat = 9 ∨ u.toNat = 10 := by
  simp [isBlank, newline, unit, ← UInt16.toNat_inj, or_assoc]

theorem isLetter_of_isDigit {u : CodeUnit} (h : isDigit u = true) : isLetter u = false := by
  rw [isDigit_iff] at h
  rw [← Bool.not_eq_true, isLetter_iff]
  omega

/-- A letter or a digit stands in no gap. -/
theorem opens_no_gap {u : CodeUnit} (h : isWordUnit u = true) :
    isBlank u = false ∧ u ≠ unit '/' := by
  rw [isWordUnit, Bool.or_eq_true, isLetter_iff, isDigit_iff] at h
  constructor
  · rw [← Bool.not_eq_true, isBlank_iff]
    omega
  · rw [Ne, ← UInt16.toNat_inj]
    change ¬ u.toNat = 47
    omega

theorem Keyword.spelling_eq_cons (k : Keyword) :
    ∃ first more, k.spelling = first :: more ∧ isLetter first = true ∧
      ∀ u ∈ more, isWordUnit u = true := by
  cases k <;> exact ⟨_, _, rfl, by decide, List.all_eq_true.1 (by decide)⟩

/-! ## spans -/

/-- A run ends where its class does. -/
theorem takeWhile_run {α : Type} {p : α → Bool} {body rest : List α} (h : ∀ u ∈ body, p u = true)
    (hrest : ∀ u ∈ rest.head?, p u = false) : (body ++ rest).takeWhile p = body := by
  rw [List.takeWhile_append_of_pos h]
  cases rest with
  | nil => rw [List.takeWhile_nil, List.append_nil]
  | cons u rest =>
    rw [List.takeWhile_cons_of_neg (by simp [hrest u rfl]), List.append_nil]

theorem dropWhile_run {α : Type} {p : α → Bool} {body rest : List α} (h : ∀ u ∈ body, p u = true)
    (hrest : ∀ u ∈ rest.head?, p u = false) : (body ++ rest).dropWhile p = rest := by
  rw [List.dropWhile_append_of_pos h]
  cases rest with
  | nil => rfl
  | cons u rest => rw [List.dropWhile_cons_of_neg (by simp [hrest u rfl])]

namespace Span

theorem read_word {first : CodeUnit} {more rest : Text} (hfirst : isLetter first = true)
    (hmore : ∀ u ∈ more, isWordUnit u = true) (hrest : ∀ u ∈ rest.head?, isWordUnit u = false) :
    read first (more ++ rest) = ⟨.ok (.ofWord (first :: more)), first :: more, rest⟩ := by
  rw [read, if_pos hfirst, word, takeWhile_run hmore hrest, dropWhile_run hmore hrest]

theorem read_number {digit : CodeUnit} {after : Text} (h : isDigit digit = true) :
    read digit after = number digit after := by
  simp [read, isLetter_of_isDigit h, h]

theorem number_whole {digit : CodeUnit} {digits rest : Text}
    (hdigits : ∀ u ∈ digits, isDigit u = true) (hrest : ∀ u ∈ rest.head?, isDigit u = false)
    (hpoint : ∀ u more, rest = unit '.' :: u :: more → isDigit u = false) :
    number digit (digits ++ rest) = ⟨.ok .number, digit :: digits, rest⟩ := by
  unfold number
  rw [dropWhile_run hdigits hrest, takeWhile_run hdigits hrest]
  split
  · next point u more =>
    rw [if_neg]
    intro h
    rw [Bool.and_eq_true, beq_iff_eq] at h
    simp [hpoint u more (by rw [h.1])] at h
  · rfl

theorem number_decimal {digit tenths : CodeUnit} {digits fraction rest : Text}
    (hdigits : ∀ u ∈ digits, isDigit u = true)
    (hfraction : ∀ u ∈ tenths :: fraction, isDigit u = true)
    (hrest : ∀ u ∈ rest.head?, isDigit u = false) :
    number digit (digits ++ unit '.' :: tenths :: (fraction ++ rest)) =
      ⟨.ok .number, digit :: digits ++ unit '.' :: tenths :: fraction, rest⟩ := by
  have hpoint : ∀ u ∈ (unit '.' :: tenths :: (fraction ++ rest)).head?, isDigit u = false := by
    simp only [List.head?_cons, Option.mem_def, Option.some.injEq, forall_eq']
    decide
  have hmore : ∀ u ∈ fraction, isDigit u = true := fun u hu => hfraction u (.tail _ hu)
  unfold number
  rw [dropWhile_run hdigits hpoint, takeWhile_run hdigits hpoint]
  simp only
  rw [if_pos (by rw [beq_self_eq_true, Bool.true_and]; exact hfraction tenths (.head _)),
    takeWhile_run hmore hrest, dropWhile_run hmore hrest]

/-- What a string runs over holds no quote. -/
theorem bne_quote {content : Text} (h : quote ∉ content) : ∀ u ∈ content, (u != quote) = true := by
  intro u hu
  rw [bne_iff_ne]
  rintro rfl
  exact h hu

theorem read_string {content rest : Text} (h : quote ∉ content) :
    read quote (content ++ quote :: rest) =
      ⟨.ok .string, quote :: content ++ [quote], rest⟩ := by
  have hcontent := bne_quote h
  have hclosing : ∀ u ∈ (quote :: rest).head?, (u != quote) = false := by simp
  have hread : read quote (content ++ quote :: rest) = string quote (content ++ quote :: rest) :=
    rfl
  rw [hread, string, dropWhile_run hcontent hclosing, takeWhile_run hcontent hclosing]

theorem read_symbol {kind : TokenKind} {first : CodeUnit} {more rest : Text}
    (h : kind.symbol? = some (first :: more)) (hends : Word.Ends ⟨kind, first :: more⟩ rest) :
    read first (more ++ rest) = ⟨.ok kind, first :: more, rest⟩ := by
  have halone (kind withEqual : TokenKind) (hrest : rest.head? ≠ some (unit '=')) :
      comparison first kind withEqual rest = ⟨.ok kind, [first], rest⟩ := by
    cases rest with
    | nil => rfl
    | cons second rest =>
      have hne : second ≠ unit '=' := fun h => hrest (by rw [h]; rfl)
      simp [comparison, hne]
  cases kind <;> simp only [TokenKind.symbol?, Option.some.injEq, List.cons.injEq,
    reduceCtorEq] at h <;> obtain ⟨rfl, rfl⟩ := h <;> first
    | exact halone _ _ hends
    | rfl

end Span

namespace Word

variable {word : Word} {rest : Text}

/-- Blanks and most symbols continue no word. -/
theorem ends_of_cons {u : CodeUnit} (hword : isWordUnit u = false) (hpoint : u ≠ unit '.')
    (hequal : u ≠ unit '=') (hslash : u ≠ unit '/') : word.Ends (u :: rest) := by
  have hdigit : isDigit u = false := (Bool.or_eq_false_iff.1 hword).2
  unfold Ends
  split
  · simpa using hword
  · simpa using hword
  · exact ⟨by simpa using hdigit, fun _ v more h => absurd (List.cons.inj h).1 hpoint⟩
  all_goals first
    | trivial
    | simpa using hequal
    | simpa using hslash

/-- A word that nothing continues is the span read at its place. -/
theorem Formed.read (h : word.Formed) (hends : word.Ends rest) :
    ∃ first more, word.lexeme = first :: more ∧
      Span.read first (more ++ rest) = ⟨.ok word.kind, word.lexeme, rest⟩ := by
  cases h with
  | @name first more hfirst hmore hfree =>
    have hkind : TokenKind.ofWord (first :: more) = .identifier := by
      rw [TokenKind.ofWord]
      split
      · next k hk => exact absurd (Keyword.spelling_of_ofText? hk) (hfree k)
      · rfl
    exact ⟨first, more, rfl, hkind ▸ Span.read_word hfirst hmore hends⟩
  | keyword k =>
    obtain ⟨first, more, hspelling, hfirst, hmore⟩ := k.spelling_eq_cons
    refine ⟨first, more, hspelling, ?_⟩
    rw [Span.read_word hfirst hmore hends, ← hspelling, TokenKind.ofWord_spelling]
  | @whole digit digits h =>
    have hmore : ∀ u ∈ digits, isDigit u = true := fun u hu => h u (.tail _ hu)
    have hpoint : unit '.' ∉ digit :: digits := fun hmem => absurd (h _ hmem) (by decide)
    refine ⟨digit, digits, rfl, ?_⟩
    rw [Span.read_number (h digit (.head _))]
    exact Span.number_whole hmore hends.1 (hends.2 hpoint)
  | @decimal digit digits tenths fraction h hfraction =>
    have hmore : ∀ u ∈ digits, isDigit u = true := fun u hu => h u (.tail _ hu)
    refine ⟨digit, digits ++ unit '.' :: tenths :: fraction, rfl, ?_⟩
    rw [Span.read_number (h digit (.head _)), List.append_assoc]
    exact Span.number_decimal hmore hfraction hends.1
  | @string content h =>
    refine ⟨quote, content ++ [quote], rfl, ?_⟩
    rw [List.append_assoc]
    exact Span.read_string h
  | @symbol kind spelling h =>
    obtain ⟨first, more, rfl⟩ : ∃ first more, spelling = first :: more := by
      cases kind <;> simp only [TokenKind.symbol?, Option.some.injEq, reduceCtorEq] at h <;>
        exact ⟨_, _, h.symm⟩
    exact ⟨first, more, rfl, Span.read_symbol h hends⟩

end Word

/-! ## gaps -/

theorem splitGap_comment_body {body rest : Text} (h : newline ∉ body) :
    splitGap true (body ++ newline :: rest) =
      (body ++ newline :: (splitGap false rest).1, (splitGap false rest).2) := by
  induction body with
  | nil => simp [splitGap]
  | cons u body ih =>
    have hne : u ≠ newline := fun hu => h (hu ▸ .head _)
    rw [List.cons_append, splitGap, if_pos rfl, bne_iff_ne.2 hne,
      ih fun hmem => h (.tail _ hmem)]
    rfl

theorem splitGap_comment_end {body : Text} (h : newline ∉ body) :
    splitGap true body = (body, []) := by
  induction body with
  | nil => rfl
  | cons u body ih =>
    have hne : u ≠ newline := fun hu => h (hu ▸ .head _)
    rw [splitGap, if_pos rfl, bne_iff_ne.2 hne, ih fun hmem => h (.tail _ hmem)]

theorem splitGap_comment (after : Text) :
    splitGap false (unit '/' :: unit '/' :: after) =
      (unit '/' :: unit '/' :: (splitGap true after).1, (splitGap true after).2) := by
  have hslash : isBlank (unit '/') = false := by decide
  have hnewline : (unit '/' != newline) = true := by decide
  rw [splitGap, if_neg Bool.false_ne_true, if_neg (by simp [hslash]), if_pos (by simp), splitGap,
    if_pos rfl, hnewline]

/-- A gap is passed as a whole, with any gap that follows it. -/
theorem Gap.splitGap {gap : Text} (h : Gap gap) (rest : Text) :
    splitGap false (gap ++ rest) =
      (gap ++ (Lox.splitGap false rest).1, (Lox.splitGap false rest).2) := by
  induction h with
  | nil => rfl
  | blank h _ ih =>
    rw [List.cons_append, Lox.splitGap, if_neg Bool.false_ne_true, if_pos h, ih]
    rfl
  | comment h _ ih =>
    rw [List.append_assoc]
    simp only [List.cons_append]
    rw [splitGap_comment, splitGap_comment_body h, ih]
    simp

/-- No word begins with a gap. -/
theorem Word.Formed.splitGap {word : Word} {rest : Text} (h : word.Formed)
    (hends : word.Ends rest) :
    Lox.splitGap false (word.lexeme ++ rest) = ([], word.lexeme ++ rest) := by
  have hopens {first : CodeUnit} {after : Text} (hblank : isBlank first = false)
      (hslash : first ≠ unit '/' ∨ after.head? ≠ some (unit '/')) :
      Lox.splitGap false (first :: after) = ([], first :: after) := by
    rw [Lox.splitGap, if_neg Bool.false_ne_true, if_neg (by simp [hblank]), if_neg]
    simpa [Decidable.imp_iff_not_or] using hslash
  have hword {first : CodeUnit} {after : Text} (hfirst : isWordUnit first = true) :
      Lox.splitGap false (first :: after) = ([], first :: after) :=
    hopens (opens_no_gap hfirst).1 (.inl (opens_no_gap hfirst).2)
  cases h with
  | name hfirst => exact hword (by rw [isWordUnit, hfirst, Bool.true_or])
  | keyword k =>
    obtain ⟨first, more, hspelling, hfirst, -⟩ := k.spelling_eq_cons
    simp only [hspelling]
    exact hword (by rw [isWordUnit, hfirst, Bool.true_or])
  | whole h => exact hword (by rw [isWordUnit, h _ (.head _), Bool.or_true])
  | decimal h => exact hword (by rw [isWordUnit, h _ (.head _), Bool.or_true])
  | string h => exact hopens (by decide) (.inl (by decide))
  | @symbol kind spelling h =>
    cases kind <;> simp only [TokenKind.symbol?, Option.some.injEq, reduceCtorEq] at h <;>
      obtain rfl := h <;> first
      | exact hopens (by decide) (.inr hends)
      | exact hopens (by decide) (.inl (by decide))

/-! ## scanning -/

namespace Cursor

variable {c : Cursor}

theorem next_word {gap rest : Text} {word : Word} (hgap : Gap gap) (hword : word.Formed)
    (hends : word.Ends rest) (h : c.rest = gap ++ (word.lexeme ++ rest)) :
    ∃ token, c.next.1 = .token token ∧ token.word = word ∧ c.next.2.rest = rest := by
  obtain ⟨first, more, hlexeme, hread⟩ := hword.read hends
  have hsplit : Lox.splitGap false c.rest = (gap, first :: (more ++ rest)) := by
    rw [h, hgap.splitGap, hword.splitGap hends, List.append_nil, hlexeme]
    rfl
  refine ⟨⟨word.kind, word.lexeme,
    c.line + Text.newlines gap + Text.newlines word.lexeme⟩, ?_, rfl, ?_⟩ <;>
    simp only [next, hsplit, hread]

theorem run_gap {gap : Text} (h : Lox.splitGap false c.rest = (gap, [])) :
    ∃ token, c.run.1 = [.token token] ∧ token.word = .endOfInput := by
  have hnext : c.next.1 = .token ⟨.endOfInput, [], c.line + Text.newlines gap⟩ := by
    simp only [next, h]
  have hend : c.next.1.isEnd = true := by
    rw [hnext]
    rfl
  exact ⟨⟨.endOfInput, [], c.line + Text.newlines gap⟩, by rw [run_of_isEnd hend, hnext], rfl⟩

theorem run_cons {token : Token} (h : c.next.1 = .token token)
    (hkind : token.kind ≠ .endOfInput) : c.run.1 = .token token :: c.next.2.run.1 := by
  have hend : c.next.1.isEnd = false := by simp [h, Outcome.isEnd, hkind]
  rw [run_of_not_isEnd hend, h]

end Cursor

theorem Word.Formed.kind_ne {word : Word} (h : word.Formed) : word.kind ≠ .endOfInput := by
  cases h with
  | symbol h =>
    rintro rfl
    cases h
  | _ => simp

/-- A run over a text finds the words that the text spells. -/
theorem Spells.run {words : List Word} {source : Text} (h : Spells words source) {c : Cursor}
    (hc : c.rest = source) :
    ∃ tokens : List Token, c.run.1 = tokens.map .token ∧
      tokens.map Token.word = words ++ [.endOfInput] := by
  induction h generalizing c with
  | gap h =>
    have hsplit := h.splitGap []
    rw [List.append_nil, ← hc] at hsplit
    obtain ⟨token, hrun, hword⟩ := Cursor.run_gap hsplit
    exact ⟨[token], hrun, by rw [← hword]; rfl⟩
  | @comment gap body h hbody =>
    have hsplit := h.splitGap (unit '/' :: unit '/' :: body)
    rw [splitGap_comment, splitGap_comment_end hbody, ← hc] at hsplit
    obtain ⟨token, hrun, hword⟩ := Cursor.run_gap hsplit
    exact ⟨[token], hrun, by rw [← hword]; rfl⟩
  | word hgap hword hends _ ih =>
    obtain ⟨token, htoken, rfl, hrest⟩ := Cursor.next_word hgap hword hends hc
    obtain ⟨tokens, hrun, htokens⟩ := ih hrest
    have hall : c.run.1 = (token :: tokens).map Outcome.token := by
      rw [Cursor.run_cons htoken hword.kind_ne, hrun, List.map_cons]
    exact ⟨token :: tokens, hall, by rw [List.map_cons, htokens, List.cons_append]⟩

/-- A text scans without faults to the words that it spells. -/
theorem Spells.scan {words : List Word} {source : Text} (h : Spells words source) :
    ∃ tokens : List Token, scan source = tokens.map .token ∧
      tokens.map Token.word = words ++ [.endOfInput] := h.run rfl

end Lox
