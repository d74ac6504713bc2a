import Lox.Proofs.Tokens

/-!
# Lox.Proofs.Joining

Scanning two texts that a line separator joins.

A line separator continues no span but an open string, and closes no gap.  So
the outcomes of the joined text are those of the first text, up to the end
marker, and then those of the second, as far down as the first text reaches
(`scan_append`).  The one exception is a first text that ends in an open string,
and that is always one: the string goes on in the second text
(`scan_joined_iff`).
-/

namespace Lox

/-! ## outcomes further down -/

/-- A token, some lines further down. -/
def Token.moved (lines : Nat) (token : Token) : Token := { token with line := token.line + lines }

/-- A fault, some units and lines further down. -/
def LexicalFault.moved (units lines : Nat) (fault : LexicalFault) : LexicalFault :=
  { fault with line := fault.line + lines, offset := fault.offset + units }

/-- An outcome, some units and lines further down. -/
def Outcome.moved (units lines : Nat) : Outcome → Outcome
  | token found => token (found.moved lines)
  | fault found => fault (found.moved units lines)

@[simp] theorem Outcome.isEnd_moved (units lines : Nat) (outcome : Outcome) :
    (outcome.moved units lines).isEnd = outcome.isEnd := by cases outcome <;> rfl

/-- The fault of a string that is not closed. -/
def Outcome.isOpenString : Outcome → Bool
  | token _ => false
  | fault found => found.error == .unterminatedString

/-! ## gaps and spans -/

section

variable {p : CodeUnit → Bool} {body rest gap after : Text} {u first : CodeUnit}

/-- A run stops inside a text, or at a unit after it that is not of its class. -/
theorem takeWhile_join (more : Text) (h : body.dropWhile p ≠ [] ∨ p u = false) :
    (body ++ u :: more).takeWhile p = body.takeWhile p ∧
      (body ++ u :: more).dropWhile p = body.dropWhile p ++ u :: more := by
  induction body with
  | nil =>
    have hu : p u = false := h.resolve_left (· rfl)
    simp [hu]
  | cons first body ih =>
    rw [List.cons_append]
    cases hfirst : p first with
    | false => simp [hfirst]
    | true =>
      rw [List.dropWhile_cons_of_pos hfirst] at h
      obtain ⟨htake, hdrop⟩ := ih h
      simp [hfirst, htake, hdrop]

theorem head?_join (rest more : Text) :
    ((rest ++ newline :: more).head? == some (unit '/')) = (rest.head? == some (unit '/')) := by
  cases rest <;> rfl

/-- A gap that a text ends in goes on after the line separator. -/
theorem splitGap_join_nil {comment : Bool} (h : (splitGap comment rest).2 = []) (more : Text) :
    splitGap comment (rest ++ newline :: more) =
      (rest ++ newline :: (splitGap false more).1, (splitGap false more).2) := by
  have hblank : isBlank newline = true := rfl
  induction rest generalizing comment with
  | nil => cases comment <;> simp [splitGap, hblank]
  | cons u rest ih =>
    simp only [List.cons_append, splitGap, head?_join] at h ⊢
    split at h
    · next hcomment => rw [if_pos hcomment, ih h]
    · next hcomment =>
      rw [if_neg hcomment]
      split at h
      · next hu => rw [if_pos hu, ih h]
      · next hu =>
        rw [if_neg hu]
        split at h
        · next hslash => rw [if_pos hslash, ih h]
        · cases h

/-- A gap that ends before a span ends there in the joined text, too. -/
theorem splitGap_join_cons {comment : Bool} (h : splitGap comment rest = (gap, first :: after))
    (more : Text) :
    splitGap comment (rest ++ newline :: more) =
      (gap, first :: (after ++ newline :: more)) := by
  induction rest generalizing comment gap with
  | nil => cases h
  | cons u rest ih =>
    have hgap {comment : Bool} (h : (splitGap comment rest).2 = first :: after) :
        splitGap comment (rest ++ newline :: more) =
          ((splitGap comment rest).1, first :: (after ++ newline :: more)) :=
      ih (Prod.ext rfl h)
    simp only [List.cons_append, splitGap, head?_join] at h ⊢
    split at h
    · next hcomment =>
      obtain ⟨rfl, hafter⟩ := Prod.mk.inj h
      rw [if_pos hcomment, hgap hafter]
    · next hcomment =>
      rw [if_neg hcomment]
      split at h
      · next hu =>
        obtain ⟨rfl, hafter⟩ := Prod.mk.inj h
        rw [if_pos hu, hgap hafter]
      · next hu =>
        rw [if_neg hu]
        split at h
        · next hslash =>
          obtain ⟨rfl, hafter⟩ := Prod.mk.inj h
          rw [if_pos hslash, hgap hafter]
        · next hslash =>
          rw [if_neg hslash]
          cases h
          rfl

end

namespace Span

/-- The same span, with a line separator and more text after it. -/
def join (span : Span) (more : Text) : Span := { span with rest := span.rest ++ newline :: more }

variable {first : CodeUnit} {after : Text}

theorem word_join (first : CodeUnit) (after more : Text) :
    word first (after ++ newline :: more) = (word first after).join more := by
  have hnewline : isWordUnit newline = false := rfl
  obtain ⟨htake, hdrop⟩ := takeWhile_join more (.inr hnewline)
  rw [word, word, htake, hdrop]
  rfl

theorem number_join (first : CodeUnit) (after more : Text) :
    number first (after ++ newline :: more) = (number first after).join more := by
  have hnewline : isDigit newline = false := rfl
  have hjoin (body : Text) : (body ++ newline :: more).takeWhile isDigit = body.takeWhile isDigit ∧
      (body ++ newline :: more).dropWhile isDigit = body.dropWhile isDigit ++ newline :: more :=
    takeWhile_join more (.inr hnewline)
  unfold number
  rw [(hjoin after).1, (hjoin after).2]
  match after.dropWhile isDigit with
  | [] => cases more <;> rfl
  | [point] => simp [hnewline, join]
  | point :: digit :: rest =>
    simp only [List.cons_append]
    split
    · rw [(hjoin rest).1, (hjoin rest).2]
      rfl
    · rfl

theorem string_join (more : Text)
    (h : (string first after).reading ≠ .error .unterminatedString) :
    string first (after ++ newline :: more) = (string first after).join more := by
  unfold string at h ⊢
  cases hdrop : after.dropWhile (· != quote) with
  | nil =>
    rw [hdrop] at h
    exact absurd rfl h
  | cons closing rest =>
    have hcloses : after.dropWhile (· != quote) ≠ [] := by simp [hdrop]
    obtain ⟨htake', hdrop'⟩ := takeWhile_join (u := newline) more (.inl hcloses)
    rw [htake', hdrop', hdrop]
    rfl

theorem comparison_join (first : CodeUnit) (alone withEqual : TokenKind) (after more : Text) :
    comparison first alone withEqual (after ++ newline :: more) =
      (comparison first alone withEqual after).join more := by
  cases after with
  | nil => rfl
  | cons second rest =>
    simp only [comparison, List.cons_append]
    split <;> rfl

/-- A span that is no open string is read again where more text follows on
another line. -/
theorem read_join (more : Text) (h : (read first after).reading ≠ .error .unterminatedString) :
    read first (after ++ newline :: more) = (read first after).join more := by
  unfold read at h ⊢
  split
  · exact word_join first after more
  split
  · exact number_join first after more
  split
  · next hletter hdigit hquote =>
    rw [if_neg hletter, if_neg hdigit, if_pos hquote] at h
    exact string_join more h
  split
  · exact comparison_join first _ _ after more
  split <;> rfl

/-- A string that is not closed takes in all that is left. -/
theorem units_of_unterminated (h : (read first after).reading = .error .unterminatedString) :
    (read first after).units = first :: after := by
  have hrest : (read first after).rest = [] := by
    unfold read at h ⊢
    split at h
    · simp [word] at h
    split at h
    · unfold number at h
      split at h
      · split at h <;> simp at h
      · simp at h
    split at h
    · next hletter hdigit hquote =>
      rw [if_neg hletter, if_neg hdigit, if_pos hquote]
      unfold string at h ⊢
      split at h
      · rfl
      · simp at h
    split at h
    · unfold comparison at h
      split at h
      · simp at h
      · split at h <;> simp at h
    split at h <;> simp at h
  have happ := units_append_rest first after
  rwa [hrest, List.append_nil] at happ

theorem mem_of_lookup {α : Type} {entries : List (CodeUnit × α)} {u : CodeUnit} {value : α}
    (h : entries.lookup u = some value) : (u, value) ∈ entries := by
  obtain ⟨before, after, rfl, -⟩ := List.lookup_eq_some_iff.1 h
  exact List.mem_append_right _ (.head _)

/-- A span is never the end marker. -/
theorem reading_ne_end (first : CodeUnit) (after : Text) :
    (read first after).reading ≠ .ok .endOfInput := by
  unfold read
  split
  · simp only [word, TokenKind.ofWord]
    split <;> simp
  split
  · unfold number
    split
    · split <;> simp
    · simp
  split
  · unfold string
    split <;> simp
  split
  · next alone withEqual hlookup =>
    have hkinds : ∀ entry ∈ comparisons,
        entry.2.1 ≠ .endOfInput ∧ entry.2.2 ≠ .endOfInput := by decide
    have hkind := hkinds _ (mem_of_lookup hlookup)
    unfold comparison
    split
    · simp [hkind.1]
    · split
      · simp [hkind.2]
      · simp [hkind.1]
  split
  · next kind hlookup =>
    have hkinds : ∀ entry ∈ punctuation, entry.2 ≠ .endOfInput := by decide
    simp [hkinds _ (mem_of_lookup hlookup)]
  · simp

end Span

/-! ## cursors -/

namespace Cursor

variable {c d : Cursor} {more after rest : Text} {first : CodeUnit} {offset line : Nat}

/-- What is found in a text after a gap. -/
def found (offset line : Nat) : Text → Outcome × Cursor
  | [] => (.token ⟨.endOfInput, [], line⟩, ⟨[], offset, line⟩)
  | first :: after =>
    let span := Span.read first after
    let line := line + Text.newlines span.units
    let cursor := ⟨span.rest, offset + span.units.length, line⟩
    match span.reading with
    | .ok kind => (.token ⟨kind, span.units, line⟩, cursor)
    | .error error => (.fault ⟨error, line, offset⟩, cursor)

/-- A step passes a gap and takes what is found after it. -/
theorem next_eq (c : Cursor) :
    c.next = found (c.offset + (splitGap false c.rest).1.length)
      (c.line + Text.newlines (splitGap false c.rest).1) (splitGap false c.rest).2 := by
  unfold next found
  cases (splitGap false c.rest).2 <;> rfl

/-- The end marker is found at the end of a text, and nowhere else. -/
theorem isEnd_found : (found offset line rest).1.isEnd = true ↔ rest = [] := by
  cases rest with
  | nil => exact ⟨fun _ => rfl, fun _ => rfl⟩
  | cons first after =>
    have hne := Span.reading_ne_end first after
    simp only [found]
    split
    · next kind hkind =>
      rw [hkind] at hne
      simpa [Outcome.isEnd] using fun heq => hne (by rw [heq])
    · simp [Outcome.isEnd]

/-! ## joined texts -/

/-- The same place, in a text that goes on after a line separator. -/
def join (c : Cursor) (more : Text) : Cursor := { c with rest := c.rest ++ newline :: more }

/-- The place after the rest of a text and a line separator. -/
def past (c : Cursor) (more : Text) : Cursor :=
  ⟨more, c.offset + c.rest.length + 1, c.line + Text.newlines c.rest + 1⟩

/-- What is found in a joined text before its first part ends. -/
theorem found_join (more : Text)
    (hopen : (found offset line (first :: after)).1.isOpenString = false) :
    found offset line (first :: (after ++ newline :: more)) =
      ((found offset line (first :: after)).1,
        (found offset line (first :: after)).2.join more) := by
  have hreading : (Span.read first after).reading ≠ .error .unterminatedString := by
    intro hreading
    simp only [found, hreading] at hopen
    cases hopen
  simp only [found, Span.read_join more hreading, Span.join]
  split <;> rfl

/-- The fault of an open string is at the end of the text. -/
theorem found_of_isOpenString (h : (found offset line (first :: after)).1.isOpenString = true) :
    (found offset line (first :: after)).1 =
      .fault ⟨.unterminatedString, line + Text.newlines (first :: after), offset⟩ := by
  simp only [found] at h ⊢
  split at h
  · cases h
  · next error herror =>
    obtain rfl : error = .unterminatedString := by simpa [Outcome.isOpenString] using h
    rw [Span.units_of_unterminated herror]

/-- No unit and no line is lost. -/
theorem past_found (offset line : Nat) (first : CodeUnit) (after more : Text) :
    (found offset line (first :: after)).2.past more =
      past ⟨first :: after, offset, line⟩ more := by
  have hspan := Span.units_append_rest first after
  have hcursor : (found offset line (first :: after)).2 =
      ⟨(Span.read first after).rest, offset + (Span.read first after).units.length,
        line + Text.newlines (Span.read first after).units⟩ := by
    simp only [found]
    split <;> rfl
  rw [hcursor]
  simp only [past, ← hspan, List.length_append, Text.newlines_append, ← Nat.add_assoc]

theorem newlines_join (text more : Text) :
    Text.newlines (text ++ newline :: more) = Text.newlines text + 1 + Text.newlines more := by
  rw [Text.newlines_append, Nat.add_assoc, Nat.add_comm 1]
  exact congrArg _ List.count_cons_self

/-- A string that the first text leaves open is another one in the joined text,
which ends further down if it ends at all. -/
theorem found_join_ne (more : Text)
    (hopen : (found offset line (first :: after)).1.isOpenString = true) :
    (found offset line (first :: (after ++ newline :: more))).1 ≠
      (found offset line (first :: after)).1 := by
  intro heq
  have hjoined := found_of_isOpenString (heq ▸ hopen)
  have hlines : Text.newlines (first :: (after ++ newline :: more)) =
      Text.newlines (first :: after) + 1 + Text.newlines more := newlines_join (first :: after) more
  rw [heq, found_of_isOpenString hopen, hlines] at hjoined
  simp at hjoined
  omega

/-- A step that finds the end of the first text goes on in the second. -/
theorem next_join_of_isEnd (more : Text) (h : c.next.1.isEnd = true) :
    (c.join more).next = (c.past more).next := by
  rw [next_eq, isEnd_found] at h
  have hgap := splitGap_append false c.rest
  rw [h, List.append_nil] at hgap
  rw [next_eq, next_eq (c.past more)]
  simp only [join, past, splitGap_join_nil h, newlines_join, List.length_append, List.length_cons,
    Nat.add_assoc, Nat.add_comm 1]

/-- Every other step is the same in the joined text, unless it finds an open
string. -/
theorem next_join (more : Text) (hend : c.next.1.isEnd = false)
    (hopen : c.next.1.isOpenString = false) :
    (c.join more).next = (c.next.1, c.next.2.join more) ∧
      c.next.2.past more = c.past more := by
  rw [next_eq c] at hend hopen ⊢
  rw [next_eq (c.join more)]
  have hrest := splitGap_append false c.rest
  cases hsplit : splitGap false c.rest with
  | mk gap rest =>
    rw [hsplit] at hend hopen hrest
    cases rest with
    | nil => cases hend
    | cons first after =>
      have hjoin : splitGap false (c.join more).rest = (gap, first :: (after ++ newline :: more)) :=
        splitGap_join_cons hsplit more
      rw [hjoin]
      refine ⟨found_join more hopen, (past_found _ _ first after more).trans ?_⟩
      simp only [past, ← hrest, List.length_append, Text.newlines_append, ← Nat.add_assoc]

/-- A step that finds an open string finds another one in the joined text. -/
theorem next_join_ne (more : Text) (hopen : c.next.1.isOpenString = true) :
    (c.join more).next.1 ≠ c.next.1 := by
  rw [next_eq c] at hopen ⊢
  rw [next_eq (c.join more)]
  cases hsplit : splitGap false c.rest with
  | mk gap rest =>
    rw [hsplit] at hopen
    cases rest with
    | nil => cases hopen
    | cons first after =>
      have hjoin : splitGap false (c.join more).rest = (gap, first :: (after ++ newline :: more)) :=
        splitGap_join_cons hsplit more
      rw [hjoin]
      exact found_join_ne more hopen

/-- A run begins with what the next step finds. -/
theorem head?_run (c : Cursor) : c.run.1.head? = some c.next.1 := by
  cases h : c.next.1.isEnd with
  | false => simp [run_of_not_isEnd h]
  | true => simp [run_of_isEnd h]

theorem run_ne_nil (c : Cursor) : c.run.1 ≠ [] := by
  intro hnil
  have hhead := c.head?_run
  simp [hnil] at hhead

theorem run_congr (h : c.next = d.next) : c.run.1 = d.run.1 := by
  cases hend : d.next.1.isEnd with
  | false => rw [run_of_not_isEnd (by rw [h, hend]), run_of_not_isEnd hend, h]
  | true => rw [run_of_isEnd (by rw [h, hend]), run_of_isEnd hend, h]

/-- A run over two joined texts is a run over the first one, up to its end
marker, and then a run over the second one. -/
theorem run_join (more : Text) (h : ∀ outcome ∈ c.run.1, outcome.isOpenString = false) :
    (c.join more).run.1 = c.run.1.dropLast ++ (c.past more).run.1 := by
  -- where the first text ends, the joined run is already a run over the second
  induction c using run.induct with
  | case1 c hend =>
    rw [run_congr (next_join_of_isEnd more hend), run_of_isEnd hend]
    rfl
  | case2 c hgo _ _ _ ih =>
    have hend : c.next.1.isEnd = false := by simpa using hgo
    rw [run_of_not_isEnd hend] at h ⊢
    obtain ⟨hnext, hpast⟩ := next_join more hend (h _ (.head _))
    have hgoes : (c.join more).next.1.isEnd = false := by rw [hnext, hend]
    rw [run_of_not_isEnd hgoes, hnext, ih fun outcome houtcome => h outcome (.tail _ houtcome),
      hpast, List.dropLast_cons_of_ne_nil (run_ne_nil _)]
    rfl

/-- Only a first text that leaves no string open is scanned in the joined text
as it is alone. -/
theorem isOpenString_of_run_join (more : Text)
    (h : (c.join more).run.1 = c.run.1.dropLast ++ (c.past more).run.1) :
    ∀ outcome ∈ c.run.1, outcome.isOpenString = false := by
  -- up to an open string both runs are in step, and there they differ
  induction c using run.induct with
  | case1 c hend =>
    rw [run_of_isEnd hend, List.forall_mem_singleton]
    cases houtcome : c.next.1 with
    | token found => rfl
    | fault found =>
      rw [houtcome] at hend
      cases hend
  | case2 c hgo _ _ _ ih =>
    have hend : c.next.1.isEnd = false := by simpa using hgo
    rw [run_of_not_isEnd hend, List.dropLast_cons_of_ne_nil (run_ne_nil _)] at h
    cases hopen : c.next.1.isOpenString with
    | true =>
      have hhead := (c.join more).head?_run
      rw [h] at hhead
      exact absurd (Option.some.inj hhead).symm (next_join_ne more hopen)
    | false =>
      obtain ⟨hnext, hpast⟩ := next_join more hend hopen
      have hgoes : (c.join more).next.1.isEnd = false := by rw [hnext, hend]
      rw [run_of_not_isEnd hgoes, hnext, ← hpast] at h
      rw [run_of_not_isEnd hend, List.forall_mem_cons]
      exact ⟨hopen, ih (List.cons.inj h).2⟩

/-! ## places further down -/

/-- A place, some units and lines further down. -/
def moved (units lines : Nat) (c : Cursor) : Cursor :=
  { c with offset := c.offset + units, line := c.line + lines }

theorem found_moved (units lines offset line : Nat) (rest : Text) :
    found (offset + units) (line + lines) rest =
      ((found offset line rest).1.moved units lines,
        (found offset line rest).2.moved units lines) := by
  cases rest with
  | nil => rfl
  | cons first after =>
    simp only [found, Nat.add_right_comm _ units, Nat.add_right_comm _ lines]
    split <;> rfl

theorem next_moved (units lines : Nat) (c : Cursor) :
    (c.moved units lines).next =
      (c.next.1.moved units lines, c.next.2.moved units lines) := by
  rw [next_eq, next_eq c, ← found_moved, moved]
  simp only [Nat.add_right_comm]

/-- A run from further down finds the same, further down. -/
theorem run_moved (units lines : Nat) (c : Cursor) :
    (c.moved units lines).run.1 = c.run.1.map (Outcome.moved units lines) := by
  induction c using run.induct with
  | case1 c hend =>
    have hmoved : (c.moved units lines).next.1.isEnd = true := by
      rw [next_moved, Outcome.isEnd_moved, hend]
    rw [run_of_isEnd hmoved, run_of_isEnd hend, next_moved]
    rfl
  | case2 c hgo _ _ _ ih =>
    have hend : c.next.1.isEnd = false := by simpa using hgo
    have hmoved : (c.moved units lines).next.1.isEnd = false := by
      rw [next_moved, Outcome.isEnd_moved, hend]
    rw [run_of_not_isEnd hmoved, run_of_not_isEnd hend, next_moved, ih]
    rfl

/-- A run over the second text finds what a scan of it finds, as far down as the
first text reaches. -/
theorem run_past (first second : Text) : ((start first).past second).run.1 =
    (scan second).map (Outcome.moved (first.length + 1) (Text.newlines first + 1)) := by
  have hpast : (start first).past second =
      (start second).moved (first.length + 1) (Text.newlines first + 1) := by
    rw [past, moved, start]
    rfl
  rw [hpast, run_moved]
  rfl

end Cursor

/-- The outcomes of two joined texts are those of the first one up to its end
marker, and those of the second one as far down as the first one reaches. -/
theorem scan_append {first : Text} (second : Text)
    (h : ∀ outcome ∈ scan first, outcome.isOpenString = false) :
    scan (first ++ newline :: second) = (scan first).dropLast ++
      (scan second).map (Outcome.moved (first.length + 1) (Text.newlines first + 1)) := by
  rw [← Cursor.run_past]
  exact Cursor.run_join second h

/-- Scanning goes text by text exactly if the first text leaves no string open.
Then the outcomes of the joined text are those of the first one before its end
marker, and those of the second one with its end marker, as many lines further
down as the first text and the separator have, and as many units. -/
theorem scan_joined_iff (first second : Text) :
    ∃ front marker, scan first = front ++ [.token marker] ∧ marker.kind = .endOfInput ∧
      (∀ outcome ∈ front, ¬ outcome.isEnd) ∧
      (scan (first ++ newline :: second) = front ++
          (scan second).map (Outcome.moved (first.length + 1) (Text.newlines first + 1)) ↔
        ∀ outcome ∈ scan first, outcome.isOpenString = false) := by
  obtain ⟨front, marker, hscan, hmarker, hfront⟩ := (Cursor.start first).run_eq_append
  refine ⟨front, marker, hscan, hmarker, hfront, fun hjoined => ?_, fun hclosed => ?_⟩
  · refine Cursor.isOpenString_of_run_join second ?_
    rw [Cursor.run_past, hscan, List.dropLast_concat]
    exact hjoined
  · have hfirst : (scan first).dropLast = front := by
      rw [scan, hscan, List.dropLast_concat]
    rw [scan_append second hclosed, hfirst]

/-- A point before the separator stays alone, and the fault behind it is further
down. -/
example : (Cursor.start (text "1." ++ newline :: text "5@")).take 5 =
    [.token ⟨.number, text "1", 1⟩, .token ⟨.dot, text ".", 1⟩, .token ⟨.number, text "5", 2⟩,
     .fault ⟨.unexpectedCharacter, 2, 4⟩, .token ⟨.endOfInput, [], 2⟩] := by decide +kernel

end Lox
