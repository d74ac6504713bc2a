import Lox.Token

/-!
# Lox.Token.Scan

Reading a source text as tokens, by longest match.

A cursor stands between two tokens.  `Cursor.next` passes a gap (blanks,
line separators, comments), reads the longest span that forms a token at that
place, and says what the span was: a token, or a lexical fault after which
reading goes on.  A span is never empty, so `Cursor.run` reaches the end of
the input; from there on `next` answers the end marker again and again.

Lines are counted over everything passed, so an outcome carries the line on
which its span ends.
-/

namespace Lox

/-! ## classes of code units -/

/-- The digits `0` to `9`. -/
def isDigit (u : CodeUnit) : Bool := unit '0' ≤ u && u ≤ unit '9'

/-- What may begin a word: an unaccented letter or an underscore. -/
def isLetter (u : CodeUnit) : Bool :=
  (unit 'a' ≤ u && u ≤ unit 'z') || (unit 'A' ≤ u && u ≤ unit 'Z') || u == unit '_'

/-- What may continue a word. -/
def isWordUnit (u : CodeUnit) : Bool := isLetter u || isDigit u

/-- What separates tokens. -/
def isBlank (u : CodeUnit) : Bool :=
  u == unit ' ' || u == unit '\r' || u == unit '\t' || u == newline

/-- The mark that opens and closes a string. -/
def quote : CodeUnit := unit '"'

/-! ## outcomes -/

/-- Why some units form no token. -/
inductive LexicalError where
  /-- A unit that begins no token. -/
  | unexpectedCharacter
  /-- A string that the input ends before it is closed. -/
  | unterminatedString
  deriving DecidableEq, Repr

/-- The wording of a lexical error. -/
def LexicalError.message : LexicalError → Text
  | .unexpectedCharacter => text "Unexpected character."
  | .unterminatedString => text "Unterminated string."

/-- A lexical error with the line its span ends on and the offset its span
begins at. -/
structure LexicalFault where
  error : LexicalError
  line : Nat
  offset : Nat
  deriving DecidableEq, Repr

/-- What one reading step finds. -/
inductive Outcome where
  | token (found : Token)
  | fault (found : LexicalFault)
  deriving DecidableEq, Repr

/-- Is this the marker that ends every source? -/
def Outcome.isEnd : Outcome → Bool
  | .token found => found.kind == .endOfInput
  | .fault _ => false

/-! ## gaps -/

/-- Split off the longest gap: blanks, and comments from `//` up to a line
separator.  The flag says that a comment is open. -/
def splitGap (comment : Bool) : Text → Text × Text
  | [] => ([], [])
  | u :: rest =>
    if comment then
      let (gap, after) := splitGap (u != newline) rest
      (u :: gap, after)
    else if isBlank u then
      let (gap, after) := splitGap false rest
      (u :: gap, after)
    else if u == unit '/' && rest.head? == some (unit '/') then
      let (gap, after) := splitGap true rest
      (u :: gap, after)
    else
      ([], u :: rest)

/-- A gap and what follows it make up the text. -/
theorem splitGap_append (comment : Bool) (t : Text) :
    (splitGap comment t).1 ++ (splitGap comment t).2 = t := by
  fun_induction splitGap comment t <;> simp_all

/-! ## spans -/

/-- Kinds that one unit alone makes up, whatever follows it. -/
def punctuation : List (CodeUnit × TokenKind) :=
  [(unit '(', .leftParen), (unit ')', .rightParen), (unit '{', .leftBrace),
   (unit '}', .rightBrace), (unit ',', .comma), (unit '.', .dot), (unit '-', .minus),
   (unit '+', .plus), (unit ';', .semicolon), (unit '/', .slash), (unit '*', .star)]

/-- Units that make up one kind alone and another with `=` after them. -/
def comparisons : List (CodeUnit × TokenKind × TokenKind) :=
  [(unit '!', .bang, .bangEqual), (unit '=', .equal, .equalEqual),
   (unit '>', .greater, .greaterEqual), (unit '<', .less, .lessEqual)]

/-- The longest span at some place of a source, what it is, and what follows
it. -/
structure Span where
  reading : Except LexicalError TokenKind
  units : Text
  rest : Text

namespace Span

/-- A word: the longest run of letters, digits and underscores. -/
def word (first : CodeUnit) (after : Text) : Span :=
  let units := first :: after.takeWhile isWordUnit
  ⟨.ok (.ofWord units), units, after.dropWhile isWordUnit⟩

/-- A number: digits, and a point with more digits if a digit follows the
point. -/
def number (first : CodeUnit) (after : Text) : Span :=
  let whole := first :: after.takeWhile isDigit
  match after.dropWhile isDigit with
  | point :: digit :: more =>
    if point == unit '.' && isDigit digit then
      ⟨.ok .number, whole ++ point :: digit :: more.takeWhile isDigit, more.dropWhile isDigit⟩
    else
      ⟨.ok .number, whole, point :: digit :: more⟩
  | rest => ⟨.ok .number, whole, rest⟩

/-- A string: everything up to the next quote, which may be missing. -/
def string (opening : CodeUnit) (after : Text) : Span :=
  let body := opening :: after.takeWhile (· != quote)
  match after.dropWhile (· != quote) with
  | [] => ⟨.error .unterminatedString, body, []⟩
  | closing :: rest => ⟨.ok .string, body ++ [closing], rest⟩

/-- An operator that takes in a following `=`. -/
def comparison (first : CodeUnit) (alone withEqual : TokenKind) (after : Text) : Span :=
  match after with
  | [] => ⟨.ok alone, [first], []⟩
  | second :: rest =>
    if second == unit '=' then
      ⟨.ok withEqual, [first, second], rest⟩
    else
      ⟨.ok alone, [first], second :: rest⟩

/-- The span that begins with `first`. -/
def read (first : CodeUnit) (after : Text) : Span :=
  if isLetter first then word first after
  else if isDigit first then number first after
  else if first == quote then string first after
  else
    match comparisons.lookup first with
    | some (alone, withEqual) => comparison first alone withEqual after
    | none =>
      match punctuation.lookup first with
      | some kind => ⟨.ok kind, [first], after⟩
      | none => ⟨.error .unexpectedCharacter, [first], after⟩

/-! A span and what follows it make up the text it was read from. -/

theorem word_append (first : CodeUnit) (after : Text) :
    (word first after).units ++ (word first after).rest = first :: after := by
  simp [word]

theorem number_append (first : CodeUnit) (after : Text) :
    (number first after).units ++ (number first after).rest = first :: after := by
  have hsplit := List.takeWhile_append_dropWhile (p := isDigit) (l := after)
  unfold number
  split
  · next heq => split <;> simp [← heq]
  · simp

theorem string_append (first : CodeUnit) (after : Text) :
    (string first after).units ++ (string first after).rest = first :: after := by
  have hsplit := List.takeWhile_append_dropWhile (p := (· != quote)) (l := after)
  unfold string
  split
  · next heq => rw [heq] at hsplit; simpa using hsplit
  · next heq => simp [← heq]

theorem comparison_append (first : CodeUnit) (alone withEqual : TokenKind) (after : Text) :
    (comparison first alone withEqual after).units ++
      (comparison first alone withEqual after).rest = first :: after := by
  unfold comparison
  split
  · rfl
  · split <;> rfl

theorem units_append_rest (first : CodeUnit) (after : Text) :
    (read first after).units ++ (read first after).rest = first :: after := by
  simp only [read]
  split
  · exact word_append ..
  split
  · exact number_append ..
  split
  · exact string_append ..
  split
  · exact comparison_append ..
  split <;> rfl

/-! A span holds at least the unit it begins with. -/

theorem number_ne_nil (first : CodeUnit) (after : Text) : (number first after).units ≠ [] := by
  unfold number
  split
  · split <;> simp
  · simp

theorem string_ne_nil (first : CodeUnit) (after : Text) : (string first after).units ≠ [] := by
  unfold string
  split <;> simp

theorem comparison_ne_nil (first : CodeUnit) (alone withEqual : TokenKind) (after : Text) :
    (comparison first alone withEqual after).units ≠ [] := by
  unfold comparison
  split
  · simp
  · split <;> simp

theorem units_ne_nil (first : CodeUnit) (after : Text) : (read first after).units ≠ [] := by
  simp only [read]
  split
  · simp [word]
  split
  · exact number_ne_nil first after
  split
  · exact string_ne_nil first after
  split
  · exact comparison_ne_nil first _ _ after
  split <;> simp

/-- What follows a span is shorter than what it was read from. -/
theorem length_rest_lt (first : CodeUnit) (after : Text) :
    (read first after).rest.length < after.length + 1 := by
  have happ := congrArg List.length (units_append_rest first after)
  have hne := List.length_pos_iff.2 (units_ne_nil first after)
  simp only [List.length_append, List.length_cons] at happ
  omega

end Span

/-! ## the cursor -/

/-- A place in a source: what is still unread, how many units were read, and
the current line. -/
structure Cursor where
  rest : Text
  offset : Nat
  line : Nat
  deriving DecidableEq, Repr

namespace Cursor

/-- The place before the first unit. -/
def start (source : Text) : Cursor := ⟨source, 0, 1⟩

/-- Pass a gap and read one span. -/
def next (c : Cursor) : Outcome × Cursor :=
  let gap := (splitGap false c.rest).1
  let offset := c.offset + gap.length
  match (splitGap false c.rest).2 with
  | [] =>
    let line := c.line + Text.newlines gap
    (.token ⟨.endOfInput, [], line⟩, ⟨[], offset, line⟩)
  | first :: after =>
    let span := Span.read first after
    let line := c.line + Text.newlines gap + Text.newlines span.units
    let cursor := ⟨span.rest, offset + span.units.length, line⟩
    match span.reading with
    | .ok kind => (.token ⟨kind, span.units, line⟩, cursor)
    | .error error => (.fault ⟨error, line, offset⟩, cursor)

/-- A step that does not find the end leaves less to read. -/
theorem length_rest_next_lt {c : Cursor} (h : ¬ c.next.1.isEnd) :
    c.next.2.rest.length < c.rest.length := by
  have hgap := congrArg List.length (splitGap_append false c.rest)
  rw [List.length_append] at hgap
  revert h
  simp only [next]
  split
  · simp [Outcome.isEnd]
  · next first after heq =>
    have hspan := Span.length_rest_lt first after
    simp only [heq, List.length_cons] at hgap
    split <;> simp only <;> omega

/-- Read on to the end marker, which is the last outcome. -/
def run (c : Cursor) : List Outcome × Cursor :=
  if c.next.1.isEnd then
    ([c.next.1], c.next.2)
  else
    let (outcomes, last) := c.next.2.run
    (c.next.1 :: outcomes, last)
termination_by c.rest.length
decreasing_by exact length_rest_next_lt ‹_›

theorem run_of_isEnd {c : Cursor} (h : c.next.1.isEnd = true) : c.run.1 = [c.next.1] := by
  rw [run, if_pos h]

theorem run_of_not_isEnd {c : Cursor} (h : c.next.1.isEnd = false) :
    c.run.1 = c.next.1 :: c.next.2.run.1 := by
  rw [run, if_neg (by simp [h])]

/-- Read `count` more outcomes. -/
def take : Nat → Cursor → List Outcome
  | 0, _ => []
  | count + 1, c => c.next.1 :: take count c.next.2

/-- Outcomes of which the last is the first end marker are a whole run. -/
theorem run_of_take {c : Cursor} {count : Nat} {outcomes : List Outcome} {last : Outcome}
    (h : c.take count = outcomes ++ [last]) (hlast : last.isEnd = true)
    (hothers : ∀ outcome ∈ outcomes, outcome.isEnd = false) : c.run.1 = outcomes ++ [last] := by
  induction outcomes generalizing c count with
  | nil =>
    cases count with
    | zero => cases h
    | succ count =>
      obtain ⟨rfl, -⟩ := List.cons.inj h
      exact run_of_isEnd hlast
  | cons outcome outcomes ih =>
    cases count with
    | zero => cases h
    | succ count =>
      obtain ⟨rfl, hrest⟩ := List.cons.inj h
      rw [run_of_not_isEnd (hothers _ (.head _)),
        ih hrest fun outcome houtcome => hothers outcome (.tail _ houtcome), List.cons_append]

end Cursor

/-! ## sources as tokens -/

/-- The outcomes of a whole source; the last one is the end marker. -/
def scan (source : Text) : List Outcome := (Cursor.start source).run.1

/-- The outcomes of a whole source, followed by `extra` outcomes past its end. -/
def scanPast (source : Text) (extra : Nat) : List Outcome :=
  let (outcomes, last) := (Cursor.start source).run
  outcomes ++ last.take extra

/-- A token together with the lexical faults passed just before it. -/
structure Lexed where
  faults : List LexicalFault
  token : Token
  deriving DecidableEq, Repr

/-- Attach each fault to the next token. -/
def Lexed.ofOutcomes (faults : List LexicalFault) : List Outcome → List Lexed
  | [] => []
  | .fault fault :: rest => ofOutcomes (faults ++ [fault]) rest
  | .token token :: rest => ⟨faults, token⟩ :: ofOutcomes [] rest

/-- The tokens of a source, each with the faults before it. -/
def lex (source : Text) : List Lexed := Lexed.ofOutcomes [] (scan source)

end Lox
