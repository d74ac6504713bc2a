import Lox.Proofs.LongestMatch

/-!
# Lox.Proofs.Rescanning

The lexemes of a source as a text, and that text scanned.

Scanning finds words of the grammar only, one after the other
(`Lexes.exists_words`).  A blank continues no word, so the lexemes of some words
with a blank between every two of them spell the same words, whatever these are
(`spells_spaced`).  Hence the text rendered from the tokens of a source scans to
the same tokens, up to their lines (`scan_spaced`).
-/

namespace Lox

/-- Lexemes in a row, with one blank between every two of them. -/
def Text.spaced (lexemes : List Text) : Text := [unit ' '].intercalate lexemes

section

variable {word : Word} {words : List Word} {t : Text} {u : CodeUnit} {lexemes : List Text}

@[simp] theorem Text.spaced_singleton (lexeme : Text) : spaced [lexeme] = lexeme :=
  List.intercalate_singleton

theorem Text.spaced_cons_cons (first second : Text) (lexemes : List Text) :
    spaced (first :: second :: lexemes) = first ++ unit ' ' :: spaced (second :: lexemes) := by
  simp [spaced]

/-! ## words in a row -/

/-- Nothing continues no word. -/
theorem Word.ends_nil (word : Word) : word.Ends [] := by
  unfold Ends
  split <;> simp

theorem Word.ends_blank (word : Word) (rest : Text) : word.Ends (unit ' ' :: rest) :=
  ends_of_cons (by decide) (by decide) (by decide) (by decide)

/-- A blank in front of a text changes nothing. -/
theorem Spells.blank (hu : isBlank u = true) (h : Spells words t) : Spells words (u :: t) := by
  cases h with
  | gap h => exact .gap (.blank hu h)
  | comment h hbody => exact .comment (.blank hu h) hbody
  | word hgap hword hends hrest => exact .word (.blank hu hgap) hword hends hrest

/-- One more word in front. -/
theorem Spells.cons_spaced (hword : word.Formed) (h : Spells words (Text.spaced lexemes)) :
    Spells (word :: words) (Text.spaced (word.lexeme :: lexemes)) := by
  cases lexemes with
  | nil =>
    have hall := Spells.word .nil hword word.ends_nil h
    simpa using hall
  | cons lexeme lexemes =>
    have hblank : isBlank (unit ' ') = true := by decide
    rw [Text.spaced_cons_cons]
    exact .word .nil hword (word.ends_blank _) (h.blank hblank)

/-- The lexemes of some words spell these words, with lexemes after them that
spell none. -/
theorem spells_spaced (h : ∀ word ∈ words, word.Formed) (hlast : Spells [] (Text.spaced lexemes)) :
    Spells words (Text.spaced (words.map Word.lexeme ++ lexemes)) := by
  induction words with
  | nil => exact hlast
  | cons word words ih =>
    obtain ⟨hword, hwords⟩ := List.forall_mem_cons.1 h
    exact (ih hwords).cons_spaced hword

end

/-! ## words of a source -/

section

variable {before rest span source : Text} {reading : Except LexicalError TokenKind}
  {outcomes : List Outcome} {tokens : List Token} {token : Token}

/-- A token that the grammar finds is a word of it. -/
theorem Matches.formed (h : Matches reading span rest)
    (htoken : Outcome.ofSpan before span reading = .token token) : token.word.Formed := by
  cases h with
  | word hword =>
    cases htoken
    exact hword
  | unexpected | unterminated => cases htoken

/-- Where nothing but tokens is found, they are words, and then the end
marker. -/
theorem Lexes.exists_words (h : Lexes before rest outcomes)
    (htokens : outcomes = tokens.map .token) :
    ∃ words, (∀ word ∈ words, word.Formed) ∧
      tokens.map Token.word = words ++ [.endOfInput] := by
  induction h generalizing tokens with
  | done =>
    obtain ⟨token, rfl, hmarker⟩ := List.map_eq_singleton_iff.1 htokens.symm
    cases hmarker
    exact ⟨[], by simp, rfl⟩
  | @span before gap span rest reading outcomes _ _ hmatches _ _ ih =>
    obtain ⟨token, tokens, rfl, hfound, hrest⟩ := List.map_eq_cons_iff.1 htokens.symm
    obtain ⟨words, hwords, htail⟩ := ih hrest.symm
    have hword := hmatches.formed hfound.symm
    refine ⟨token.word :: words, List.forall_mem_cons.2 ⟨hword, hwords⟩, ?_⟩
    rw [List.map_cons, htail, List.cons_append]

theorem exists_words_of_scan (h : scan source = tokens.map .token) :
    ∃ words, (∀ word ∈ words, word.Formed) ∧
      tokens.map Token.word = words ++ [.endOfInput] := by
  obtain ⟨outcomes, hlexes⟩ := Lexes.exists_outcomes [] source
  have hscan : scan source = outcomes := hlexes.run
  exact hlexes.exists_words (hscan.symm.trans h)

/-- Every token of a source is a word of the language or the end marker. -/
theorem formed_of_scan {token : Token} (h : scan source = tokens.map .token)
    (htoken : token ∈ tokens) : token.word.Formed ∨ token.word = .endOfInput := by
  obtain ⟨words, hwords, htokens⟩ := exists_words_of_scan h
  have hword : token.word ∈ words ++ [.endOfInput] := htokens ▸ List.mem_map_of_mem htoken
  exact (List.mem_append.1 hword).imp (hwords _) List.mem_singleton.1

/-- The lexeme of a string has its content between two quotes. -/
theorem exists_quoted_of_scan {token : Token} (h : scan source = tokens.map .token)
    (htoken : token ∈ tokens) (hkind : token.kind = .string) :
    ∃ content, token.lexeme = quote :: content ++ [quote] := by
  have hword := formed_of_scan h htoken
  obtain ⟨kind, lexeme, line⟩ := token
  obtain rfl : kind = .string := hkind
  rcases hword with hformed | hend
  · cases hformed with
    | @string content => exact ⟨content, rfl⟩
    | symbol hsymbol => cases hsymbol
  · cases hend

/-- Rendering tokens and scanning the text is the identity.  The lexemes of a
source without lexical errors, joined by single blanks, scan without errors to
the same kinds and lexemes.  It does not matter whether the end marker, whose
lexeme is empty, is rendered with the other tokens. -/
theorem scan_spaced (h : scan source = tokens.map .token) :
    ∀ rendered ∈ [tokens, tokens.dropLast],
      ∃ again : List Token, scan (Text.spaced (rendered.map Token.lexeme)) = again.map .token ∧
        again.map Token.word = tokens.map Token.word := by
  obtain ⟨words, hwords, htokens⟩ := exists_words_of_scan h
  have hlexemes (tokens : List Token) :
      tokens.map Token.lexeme = (tokens.map Token.word).map Word.lexeme := by
    rw [List.map_map]
    rfl
  have hend : Spells [] (Text.spaced [Word.endOfInput.lexeme]) := .gap .nil
  have hnone : Spells [] (Text.spaced []) := .gap .nil
  have hall := (spells_spaced hwords hend).scan
  have hbody := (spells_spaced hwords hnone).scan
  rw [htokens, List.forall_mem_cons, List.forall_mem_singleton]
  constructor
  · rw [hlexemes, htokens, List.map_append]
    exact hall
  · rw [hlexemes, List.map_dropLast, htokens, List.dropLast_concat]
    rwa [List.append_nil] at hbody

/-- Blanks keep a point out of a number, two slashes out of a comment, and a sign
of equality out of an operator; a string keeps its line separator. -/
theorem scan_spaced_neighbours : ∃ tokens again : List Token,
    scan (text "8.x/ /!//\n=1.5\"\n\"") = tokens.map .token ∧
      tokens.map Token.lexeme = [text "8", text ".", text "x", text "/", text "/", text "!",
        text "=", text "1.5", text "\"\n\"", []] ∧
      scan (text "8 . x / / ! = 1.5 \"\n\"") = again.map .token ∧
      again.map Token.word = tokens.map Token.word := by
  let body : List Token := [⟨.number, text "8", 1⟩, ⟨.dot, text ".", 1⟩,
    ⟨.identifier, text "x", 1⟩, ⟨.slash, text "/", 1⟩, ⟨.slash, text "/", 1⟩,
    ⟨.bang, text "!", 1⟩, ⟨.equal, text "=", 2⟩, ⟨.number, text "1.5", 2⟩,
    ⟨.string, text "\"\n\"", 3⟩]
  let last : Token := ⟨.endOfInput, [], 3⟩
  have htake : (Cursor.start (text "8.x/ /!//\n=1.5\"\n\"")).take 10 =
      body.map .token ++ [.token last] := by decide +kernel
  have hscan : scan (text "8.x/ /!//\n=1.5\"\n\"") = (body ++ [last]).map .token :=
    Cursor.run_of_take htake rfl (by decide)
  obtain ⟨again, hagain, hwords⟩ := scan_spaced hscan body (by simp)
  exact ⟨_, again, hscan, rfl, hagain, hwords⟩

end

end Lox
