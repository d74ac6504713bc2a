import Lox.Proofs.Codec
import Lox.Proofs.Pool
import Lox.Proofs.Rescanning
import Lox.Proofs.SingleLine

/-!
# Lox.Proofs.ListedLines

Line separators in listings.

The line of an instruction shows the pool entry of its operand as it is; what else
stands on it holds no line separator (`Chunk.newlines_lineAt`).  The operands refer
to each entry once, and each entry is that of one token, with the line separators of
its lexeme (`newlines_of_scan`).  So a listing has one line separator for its
heading, one for each instruction, and those of the string literals of the source
(`listing_lines`): only where no string is broken over lines does every instruction
take one line.
-/

namespace Lox

open Text

/-! ## texts in pieces -/

theorem flatMap_elim {α β : Type} (f : α → Option β) (shown : β → Text) (items : List α) :
    (items.flatMap fun item => (f item).elim [] shown) = (items.filterMap f).flatMap shown := by
  induction items with
  | nil => rfl
  | cons item items ih =>
    rw [List.flatMap_cons, ih]
    cases hitem : f item with
    | none => rw [List.filterMap_cons_none hitem, Option.elim_none, List.nil_append]
    | some kept => rw [List.filterMap_cons_some hitem, List.flatMap_cons, Option.elim_some]

theorem newlines_flatMap_congr {α : Type} {f g : α → Text} {items : List α}
    (h : ∀ item ∈ items, newlines (f item) = newlines (g item)) :
    newlines (items.flatMap f) = newlines (items.flatMap g) := by
  induction items with
  | nil => rfl
  | cons item items ih =>
    obtain ⟨hitem, hitems⟩ := List.forall_mem_cons.1 h
    rw [List.flatMap_cons, List.flatMap_cons, newlines_append, newlines_append, hitem, ih hitems]

/-- Lines that are ended have a line separator each, and those that they hold. -/
theorem newlines_ended (lines : List Text) :
    newlines (lines.flatMap (· ++ [newline])) = lines.length + newlines lines.flatten := by
  induction lines with
  | nil => rfl
  | cons line lines ih =>
    have hended : newlines [newline] = 1 := by decide
    rw [List.flatMap_cons, newlines_append, newlines_append, ih, hended, List.flatten_cons,
      newlines_append, List.length_cons]
    omega

theorem newlines_flatten_eq_zero_iff {lines : List Text} :
    newlines lines.flatten = 0 ↔ ∀ line ∈ lines, newline ∉ line := by
  rw [newlines_eq_zero_iff, List.mem_flatten]
  exact ⟨fun h line hline hmem => h ⟨line, hline, hmem⟩,
    fun h ⟨line, hline, hmem⟩ => h line hline hmem⟩

/-! ## lines of instructions -/

theorem Opcode.newlines_name (op : Opcode) : newlines op.name = 0 := by cases op <;> decide

namespace Chunk

variable {chunk : Chunk} {heap heap' : Heap} {tokens : List Token}

/-- The lines for the instructions of a unit. -/
def listedLines (chunk : Chunk) (heap : Heap) : List Text :=
  (chunk.offsetsFrom 0).map (chunk.lineAt heap)

/-- What is shown for an operand that is an index into the pool. -/
def shownAt (chunk : Chunk) (heap : Heap) (index : Nat) : Text :=
  match chunk.displayConstant heap (some index) with
  | .ok shown => shown
  | .error _ => []

theorem newlines_address (offset : Int) : newlines (address offset) = 0 := by
  have hzeros : newlines (text "0000") = 0 := by decide
  exact newlines_of_subset (List.drop_subset ..) (by simp [hzeros])

theorem newlines_lineColumn (chunk : Chunk) (offset : Int) :
    newlines (chunk.lineColumn offset) = 0 := by
  unfold lineColumn
  split
  · decide
  · simp

theorem exists_of_byte? {offset byte : Int} (h : chunk.byte? offset = some byte) :
    ∃ index : Nat, byte = index := by
  cases offset with
  | ofNat offset =>
    obtain ⟨entry, -, rfl⟩ := Option.map_eq_some_iff.1 h
    exact ⟨_, rfl⟩
  | negSucc => cases h

/-- A line has the line separators of the constant that it shows. -/
theorem newlines_lineAt (h : ∀ value ∈ chunk.constants, heap.Live value) (offset : Nat) :
    newlines (chunk.lineAt heap offset) =
      newlines ((chunk.referenceAt? offset).elim [] fun reference =>
        chunk.shownAt heap reference.2) := by
  have hblank : newlines (text " ") = 0 := by decide
  have hunknown : newlines (text "Unknown opcode ") = 0 := by decide
  have hopening : newlines (text " '") = 0 := by decide
  have hclosing : newlines (text "'") = 0 := by decide
  have hundefined : newlines (text "<undef>") = 0 := by decide
  have hstart :
      newlines (address offset ++ text " " ++ chunk.lineColumn offset ++ text " ") = 0 := by
    simp only [newlines_append, newlines_address, newlines_lineColumn, hblank]
  simp only [lineAt, listInstruction, referenceAt?]
  generalize address offset ++ text " " ++ chunk.lineColumn offset ++ text " " = start at hstart
  cases (chunk.byte? offset).bind Opcode.ofCode? with
  | none => simp [hstart, hunknown]
  | some op =>
    rcases op.operandWidths_cases with hwidths | hwidths
    · simp [hwidths, Opcode.reference?_of_plain hwidths, hstart, Opcode.newlines_name]
    · obtain ⟨reference, hreference⟩ := Opcode.exists_reference? hwidths
      -- the code may end behind the operation
      cases hindex : chunk.byte? (offset + 1) with
      | none =>
        simp [hwidths, hindex, displayConstant, constant?, bind, Except.bind, pure, Except.pure,
          hstart, Opcode.newlines_name, hblank, hopening, hundefined, hclosing]
      | some index =>
        obtain ⟨index, rfl⟩ := exists_of_byte? hindex
        obtain ⟨shown, hshown⟩ := displayConstant_of_live h (some index)
        simp [hwidths, hindex, hreference, hshown, shownAt, bind, Except.bind, pure,
          Except.pure, hstart, Opcode.newlines_name, hblank, hopening, hclosing]

/-- What is shown for the entries of a pool are the constants of the tokens. -/
theorem Pools.shownAt (h : chunk.Pools tokens heap heap') :
    (List.range chunk.constants.size).map (chunk.shownAt heap') =
      (tokens.filterMap Token.constant?).map fun entry => entry.content.display := by
  have hlength := congrArg List.length h.views
  simp only [List.length_map, Array.length_toList] at hlength
  refine List.ext_getElem (by simpa using hlength) fun index hindex hentry => ?_
  rw [List.length_map, List.length_range] at hindex
  rw [List.length_map] at hentry
  have hview := congrArg (·[index]?) h.views
  simp only [List.getElem?_map, Array.getElem?_toList, Array.getElem?_eq_getElem hindex,
    List.getElem?_eq_getElem hentry, Option.map_some, Option.some.injEq] at hview
  have hconstant : chunk.constant? (some index) = some chunk.constants[index] :=
    Array.getElem?_eq_getElem hindex
  have hshown := (Heap.shows_iff.2 hview).display
  simp only [List.getElem_map, List.getElem_range, Chunk.shownAt, displayConstant, hconstant,
    hshown]

/-- Each entry is shown once, so the lines hold the line separators of the entries. -/
theorem Pools.newlines_lines (h : chunk.Pools tokens heap heap')
    (hlive : ∀ value ∈ chunk.constants, heap'.Live value) :
    newlines (chunk.listedLines heap').flatten =
      newlines ((tokens.filterMap Token.constant?).flatMap fun entry => entry.content.display) := by
  calc
    _ = newlines ((chunk.offsetsFrom 0).flatMap fun offset =>
          (chunk.referenceAt? offset).elim [] fun reference =>
            chunk.shownAt heap' reference.2) := by
      rw [listedLines, ← List.flatMap_def]
      exact newlines_flatMap_congr fun offset _ => newlines_lineAt hlive offset
    _ = newlines ((chunk.references.map Prod.snd).flatMap (chunk.shownAt heap')) := by
      rw [flatMap_elim, List.flatMap_map]
      rfl
    -- operands come in another order than the entries that they refer to
    _ = newlines ((List.range chunk.constants.size).flatMap (chunk.shownAt heap')) :=
      (h.indices.flatMap_right (chunk.shownAt heap')).count_eq newline
    _ = _ := by rw [List.flatMap_def, h.shownAt, ← List.flatMap_def]

end Chunk

/-! ## lexemes -/

namespace Word.Formed

variable {word : Word}

/-- Of the words of the language only strings may be broken over lines. -/
theorem newlines_of_ne (h : word.Formed) (hkind : word.kind ≠ .string) :
    newlines word.lexeme = 0 := by
  have hdigits {digits : Text} (h : ∀ u ∈ digits, isDigit u = true) : newlines digits = 0 :=
    newlines_of_forall (by decide) h
  cases h with
  | name hfirst hmore =>
    refine newlines_of_forall (p := isWordUnit) (by decide) (List.forall_mem_cons.2 ⟨?_, hmore⟩)
    rw [isWordUnit, hfirst, Bool.true_or]
  | keyword k => cases k <;> decide
  | whole h => exact hdigits h
  | decimal h hfraction =>
    rw [newlines_append, hdigits h, newlines_cons_of_ne (by decide), hdigits hfraction]
  | string => exact absurd rfl hkind
  | @symbol kind spelling h => cases kind <;> cases h <;> decide

/-- A word has the line separators of the constant that it stands for. -/
theorem newlines_lexeme (h : word.Formed) (line : Nat) :
    newlines word.lexeme = newlines ((Token.constant? ⟨word.kind, word.lexeme, line⟩).elim []
      fun entry => entry.content.display) := by
  have hunbroken := h.newlines_of_ne
  have hnumber (value : Float) : newlines (Content.number value).display = 0 :=
    Value.newlines_number value
  cases h with
  | name => rfl
  | keyword k => exact hunbroken (by simp)
  | whole => exact (hunbroken (by simp)).trans (hnumber _).symm
  | decimal => exact (hunbroken (by simp)).trans (hnumber _).symm
  | @string content =>
    have hquote : newlines [quote] = 0 := by decide
    show newlines ([quote] ++ content ++ [quote]) =
      newlines (Parser.unquote (quote :: content ++ [quote]))
    rw [newlines_append, newlines_append, hquote, Parser.unquote_quoted, Nat.zero_add,
      Nat.add_zero]
  | @symbol kind spelling h =>
    have hplain : Token.constant? ⟨kind, spelling, line⟩ = none := by
      cases kind <;> first | rfl | cases h
    rw [hplain]
    exact hunbroken (by rintro rfl; cases h)

end Word.Formed

/-- The tokens of a source have the line separators of their pool entries; those of
strings apart, they have none. -/
theorem newlines_of_scan {source : Text} {tokens : List Token}
    (h : scan source = tokens.map .token) : ∀ token ∈ tokens,
      newlines token.lexeme =
          newlines (token.constant?.elim [] fun entry => entry.content.display) ∧
        (token.kind ≠ .string → newlines token.lexeme = 0) := by
  intro token htoken
  rcases formed_of_scan h htoken with hformed | hend
  · exact ⟨hformed.newlines_lexeme token.line, hformed.newlines_of_ne⟩
  · obtain ⟨kind, lexeme, line⟩ := token
    obtain ⟨rfl, rfl⟩ := Word.mk.inj hend
    exact ⟨rfl, fun _ => rfl⟩

/-- The lexemes of a source hold line separators only in its strings. -/
theorem newlines_lexemes_eq_zero_iff {source : Text} {tokens : List Token}
    (h : scan source = tokens.map .token) :
    newlines (tokens.flatMap Token.lexeme) = 0 ↔
      ∀ token ∈ tokens, token.kind = .string → newline ∉ token.lexeme := by
  rw [List.flatMap_def, newlines_flatten_eq_zero_iff, List.forall_mem_map]
  refine forall₂_congr fun token htoken => ⟨fun h _ => h, fun hstring => ?_⟩
  by_cases hkind : token.kind = .string
  · exact hstring hkind
  · exact newlines_eq_zero_iff.1 ((newlines_of_scan h token htoken).2 hkind)

/-! ## programs -/

/-- The instructions of some code begin at the running sums of their sizes. -/
theorem Chunk.GoesOn.bounds {chunk : Chunk} {offset : Nat} {code : List Instruction}
    (h : chunk.GoesOn offset code) (hlength : chunk.length = offset + byteCount code) :
    chunk.offsetsFrom offset ++ [chunk.length] =
      boundsFrom offset (code.map Instruction.opcode) := by
  induction code generalizing offset with
  | nil =>
    rw [offsetsFrom_of_le (Nat.not_lt.2 h.length_le), hlength]
    rfl
  | cons instruction code ih =>
    rw [byteCount_cons, ← Nat.add_assoc] at hlength
    rw [offsetsFrom_of_lt h.lt_length, h.nextOffset, List.cons_append, ih h.tail hlength,
      List.map_cons, boundsFrom_cons]

namespace Chunk

variable {source name : Text} {heap heap' : Heap} {chunk : Chunk} {tokens : List Token}

/-- The line that a listing begins with. -/
def heading (name : Text) : Text := text "== " ++ name ++ text " =="

/-- The listing of a unit with some code that was compiled from some tokens, under a
name without line separators.  The instructions begin at the running sums of their
sizes, each has a line, and each line is ended by a line separator.  Beyond these line
separators there are those of the lexemes: the lines are without line separators
exactly if the strings among the tokens are. -/
structure Listed (chunk : Chunk) (heap : Heap) (name : Text) (code : List Instruction)
    (tokens : List Token) : Prop where
  bounds : chunk.offsetsFrom 0 ++ [chunk.length] = boundsFrom 0 (code.map Instruction.opcode)
  line : ∀ offset ∈ chunk.offsetsFrom 0,
    chunk.listInstruction heap offset = .ok (chunk.nextOffset offset, chunk.lineAt heap offset)
  heading : newline ∉ heading name
  listing : chunk.listing heap name =
    .ok ((Chunk.heading name :: chunk.listedLines heap).flatMap (· ++ [newline]))
  newlines : ∀ shown, chunk.listing heap name = .ok shown →
    newlines shown = 1 + code.length + newlines (tokens.flatMap Token.lexeme)
  unbroken : (∀ line ∈ chunk.listedLines heap, newline ∉ line) ↔
    ∀ token ∈ tokens, token.kind = .string → newline ∉ token.lexeme

theorem newlines_heading (name : Text) : newlines (heading name) = newlines name := by
  have hopening : newlines (text "== ") = 0 := by decide
  have hclosing : newlines (text " ==") = 0 := by decide
  rw [heading, newlines_append, newlines_append, hopening, hclosing, Nat.zero_add, Nat.add_zero]

theorem listing_eq_lines (h : ∀ value ∈ chunk.constants, heap.Live value) (name : Text) :
    chunk.listing heap name =
      .ok ((heading name :: chunk.listedLines heap).flatMap (· ++ [newline])) := by
  have hend : text " ==\n" = text " ==" ++ [newline] := by decide
  rw [listing_of_live h, hend, List.flatMap_cons, listedLines, List.flatMap_map, heading]
  simp only [List.append_assoc]

/-- The lines of the instructions hold the line separators of the lexemes. -/
theorem Pools.newlines_lexemes (h : chunk.Pools tokens heap heap')
    (hlive : ∀ value ∈ chunk.constants, heap'.Live value)
    (hscan : scan source = tokens.map .token) :
    newlines (chunk.listedLines heap').flatten = newlines (tokens.flatMap Token.lexeme) := by
  rw [h.newlines_lines hlive, ← flatMap_elim]
  exact newlines_flatMap_congr fun token htoken => (newlines_of_scan hscan token htoken).1.symm

theorem GoesOn.length_listedLines {code : List Instruction} (h : chunk.GoesOn 0 code)
    (hlength : chunk.length = byteCount code) (heap : Heap) :
    (chunk.listedLines heap).length = code.length := by
  have hbounds := congrArg List.length (h.bounds (by rw [hlength, Nat.zero_add]))
  simpa [listedLines] using hbounds

theorem Pools.listed {code : List Instruction} (h : chunk.Pools tokens heap heap')
    (hlive : ∀ value ∈ chunk.constants, heap'.Live value) (hcode : chunk.GoesOn 0 code)
    (hlength : chunk.length = byteCount code) (hscan : scan source = tokens.map .token)
    (hname : newline ∉ name) : chunk.Listed heap' name code tokens := by
  have hheading : newlines (heading name) = 0 := by
    rw [newlines_heading, newlines_eq_zero_iff]
    exact hname
  have hlines := h.newlines_lexemes hlive hscan
  refine ⟨hcode.bounds (by rw [hlength, Nat.zero_add]),
    fun offset _ => listInstruction_eq_of_live hlive offset, newlines_eq_zero_iff.1 hheading,
    listing_eq_lines hlive name, fun shown hshown => ?_, ?_⟩
  · rw [listing_eq_lines hlive] at hshown
    obtain rfl := Except.ok.inj hshown
    rw [newlines_ended, List.length_cons, List.flatten_cons, newlines_append, hheading, hlines,
      hcode.length_listedLines hlength]
    omega
  · rw [← newlines_flatten_eq_zero_iff, hlines, newlines_lexemes_eq_zero_iff hscan]

end Chunk

/-- The listing of a program has a line for each instruction; where a string literal
goes on over lines, so does the line that shows it. -/
theorem listing_lines {source name : Text} {heap heap' : Heap} {chunk : Chunk}
    (hbuilt : heap.Built) (hcompile : Program.compile source heap = (.ok chunk, heap'))
    (hname : newline ∉ name) :
    ∃ (program : Program) (tokens : List Token), (Program.parse source).result = .ok program ∧
      scan source = tokens.map .token ∧ chunk.Listed heap' name program.code tokens := by
  obtain ⟨program, hparse, rfl, rfl⟩ := Parsed.compile_eq_ok hcompile
  obtain ⟨tokens, hscan, hderives, hdepth, hroom⟩ := Program.derives_of_parse hparse
  rw [Program.parse_of_derives hscan hderives hdepth hroom]
  have hpools := Chunk.pools_ofCode hbuilt hscan hderives.constants hroom hderives.perm_references
  have hlive := Heap.Live.of_views (Chunk.view?_ofCode hbuilt program.code program.constants)
  exact ⟨program, tokens, rfl, hscan,
    hpools.listed (fun value hvalue => hlive value (Array.mem_toList_iff.2 hvalue))
      (Chunk.goesOn_ofCode _ _) (Chunk.length_ofCode _ _) hscan hname⟩

/-! ## a string over two lines -/

/-- The tokens of a program that prints a string over two lines. -/
def Token.overTwoLines : List Token :=
  [⟨.keyword .printWord, text "print", 1⟩, ⟨.string, text "\"a\nb\"", 2⟩,
    ⟨.semicolon, text ";", 2⟩, ⟨.endOfInput, [], 2⟩]

/-- The program that they are derived from. -/
def Program.overTwoLines : Program :=
  ⟨[.print (.literal (.string (text "a\nb")) 2) 2], 2⟩

theorem scan_overTwoLines : scan (text "print \"a\nb\";") = Token.overTwoLines.map .token := by
  have htake : (Cursor.start (text "print \"a\nb\";")).take 4 =
      Token.overTwoLines.dropLast.map .token ++ [.token ⟨.endOfInput, [], 2⟩] := by decide +kernel
  exact Cursor.run_of_take htake rfl (by decide)

theorem Program.parse_overTwoLines :
    Program.parse (text "print \"a\nb\";") = ⟨.ok overTwoLines, [.text (text "a\nb")]⟩ := by
  have hvalue : Level.expression.Derives [⟨.string, text "\"a\nb\"", 2⟩]
      (.literal (.string (text "a\nb")) 2) :=
    .of_primary (.literal (.string (text "\"a\nb\"")))
  have hprogram : overTwoLines.Derives Token.overTwoLines :=
    ⟨Token.overTwoLines.dropLast, _, rfl, rfl, .cons (.print rfl hvalue rfl) .nil, rfl⟩
  have hdepth : ∀ statement ∈ overTwoLines.statements, statement.Shallow := by
    intro statement hstatement e he
    obtain rfl := List.mem_singleton.1 hstatement
    cases he
    decide
  exact Program.parse_of_derives scan_overTwoLines hprogram hdepth (by decide)

theorem Program.compile_overTwoLines :
    Program.compile (text "print \"a\nb\";") .empty =
      (.ok (Chunk.ofCode overTwoLines.code [.string ⟨0, 0⟩]),
        ⟨#[⟨0, some (text "a\nb")⟩], [], 1⟩) := by
  rw [Program.compile, Program.parse_overTwoLines]
  rfl

/-- Five line separators for a heading and three instructions. -/
theorem listing_lines_overTwoLines : Heap.Built .empty ∧ newline ∉ text "script" ∧
    ∃ chunk heap' shown,
      Program.compile (text "print \"a\nb\";") .empty = (.ok chunk, heap') ∧
        chunk.listing heap' (text "script") = .ok shown ∧ Program.overTwoLines.code.length = 3 ∧
        newlines shown = 5 ∧ ¬ ∀ line ∈ chunk.listedLines heap', newline ∉ line := by
  have hname : newline ∉ text "script" := by decide
  obtain ⟨program, tokens, hparse, hscan, hlisted⟩ :=
    listing_lines .empty Program.compile_overTwoLines hname
  obtain rfl : Program.overTwoLines = program := by
    rw [Program.parse_overTwoLines] at hparse
    exact Except.ok.inj hparse
  obtain rfl : Token.overTwoLines = tokens := by
    rw [scan_overTwoLines] at hscan
    exact (List.map_inj_right fun _ _ h => Outcome.token.inj h).1 hscan
  refine ⟨.empty, hname, _, _, _, Program.compile_overTwoLines, hlisted.listing, rfl, ?_, ?_⟩
  · exact (hlisted.newlines _ hlisted.listing).trans (by decide)
  · rw [hlisted.unbroken]
    decide

/-- The line for the first instruction is two lines of the listing. -/
theorem listing_breaks_line : newline ∉ text "script" ∧
    ∃ chunk heap' line,
      Program.compile (text "print \"a\nb\";") .empty = (.ok chunk, heap') ∧
        chunk.listing heap' (text "script") = .ok (text "== script ==\n" ++ line ++
          text "\n0002    | OP_PRINT\n0003    | OP_RETURN\n") ∧
        chunk.listInstruction heap' 0 = .ok (2, line) ∧ newline ∈ line := by
  let chunk := Chunk.ofCode Program.overTwoLines.code [.string ⟨0, 0⟩]
  let heap : Heap := ⟨#[⟨0, some (text "a\nb")⟩], [], 1⟩
  let line := text "0000    2 OP_CONSTANT         0 'a\nb'"
  have hlive : ∀ value ∈ chunk.constants, heap.Live value := by
    intro value hvalue
    obtain rfl : value = .string ⟨0, 0⟩ := List.mem_singleton.1 (Array.mem_toList_iff.2 hvalue)
    exact ⟨_, rfl⟩
  have hoffsets : chunk.offsetsFrom 0 = [0, 2, 3] :=
    List.append_cancel_right ((Chunk.goesOn_ofCode Program.overTwoLines.code _).bounds rfl)
  have hlines : chunk.listedLines heap =
      [line, text "0002    | OP_PRINT", text "0003    | OP_RETURN"] := by
    rw [Chunk.listedLines, hoffsets]
    decide +kernel
  have hline : chunk.lineAt heap 0 = line := by decide +kernel
  have hlisted := Chunk.listInstruction_eq_of_live hlive 0
  rw [hline] at hlisted
  refine ⟨by decide, chunk, heap, line, Program.compile_overTwoLines, ?_, hlisted, by decide⟩
  rw [Chunk.listing_eq_lines hlive, hlines]
  exact congrArg _ (by decide +kernel)

end Lox
