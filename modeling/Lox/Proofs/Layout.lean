import Lox.Proofs.Acceptance
import Lox.Proofs.Content
import Lox.Proofs.Encoding
import Lox.Proofs.Lexical
import Lox.Proofs.Listing
import Lox.Proofs.Parser.Naturality

/-!
# Lox.Proofs.Layout

Sources that consist of the same words.

How words are laid out decides on which lines they stand, and on nothing else
that the compiler reads.  Its answers to two sources of the same words differ in
lines only, whether the sources are accepted or not (`compile_of_same_words`).
-/

namespace Lox

variable {f : Nat → Nat}

/-! ## code -/

/-- An instruction on another line. -/
def Instruction.mapLine (f : Nat → Nat) (instruction : Instruction) : Instruction :=
  { instruction with line := f instruction.line }

theorem Literal.code_mapLine (value : Literal) (entry line : Nat) :
    value.code entry (f line) = (value.code entry line).mapLine f := by
  cases value with
  | bool value => cases value <;> rfl
  | _ => rfl

/-- The code of an expression on other lines is its code on other lines. -/
theorem Expr.code_mapLines (f : Nat → Nat) (e : Expr) (entry : Nat) :
    (e.mapLines f).code entry = (e.code entry).map (Instruction.mapLine f) := by
  induction e generalizing entry with
  | literal value line => exact congrArg ([·]) (value.code_mapLine entry line)
  | global name line => rfl
  | assign name value ih =>
    rw [mapLines, code, code, ih, lastLine_mapLines, List.map_append]
    rfl
  | group inner line ih => exact ih entry
  | unary op operand ih =>
    rw [mapLines, code, code, ih, lastLine_mapLines, List.map_append]
    rfl
  | binary op left right ihleft ihright =>
    rw [mapLines, code, code, ihleft, ihright, lastLine_mapLines, constants_mapLines,
      List.map_append, List.map_append, List.map_map]
    rfl

theorem Stmt.code_mapLines (f : Nat → Nat) (statement : Stmt) (entry : Nat) :
    (statement.mapLines f).code entry = (statement.code entry).map (Instruction.mapLine f) := by
  cases statement with
  | var name nameLine initial line =>
    cases initial with
    | none => rfl
    | some e =>
      rw [mapLines, Option.map_some, code, code, e.code_mapLines, List.map_append]
      rfl
  | print e line =>
    rw [mapLines, code, code, e.code_mapLines, List.map_append]
    rfl
  | expression e line =>
    rw [mapLines, code, code, e.code_mapLines, List.map_append]
    rfl

theorem Stmt.codeAll_mapLines (f : Nat → Nat) (statements : List Stmt) (entry : Nat) :
    codeAll entry (statements.map (mapLines f)) =
      (codeAll entry statements).map (Instruction.mapLine f) := by
  induction statements generalizing entry with
  | nil => rfl
  | cons statement rest ih =>
    rw [List.map_cons, codeAll, codeAll, statement.code_mapLines, statement.constants_mapLines, ih,
      List.map_append]

theorem Program.code_mapLines (f : Nat → Nat) (program : Program) :
    (program.mapLines f).code = program.code.map (Instruction.mapLine f) := by
  rw [code, mapLines, Stmt.codeAll_mapLines, code, List.map_append]
  rfl

theorem Query.code_mapLines (f : Nat → Nat) (query : Query) :
    (query.mapLines f).code = query.code.map (Instruction.mapLine f) := by
  rw [code, mapLines, Expr.code_mapLines, code, List.map_append]
  rfl

/-! ## units -/

/-- Bytes are made without looking at lines. -/
theorem Chunk.bytes_ofCode_congr {code code' : List Instruction}
    (h : code.map (Instruction.mapLine f) = code'.map (Instruction.mapLine f))
    (constants constants' : List Value) :
    (ofCode code constants).bytes = (ofCode code' constants').bytes := by
  have hbytes (code : List Instruction) (constants : List Value) :
      (ofCode code constants).bytes = (code.map (Instruction.mapLine f)).flatMap
        fun instruction => instruction.opcode.encode instruction.operands := by
    rw [bytes_ofCode, List.flatMap_map]
    rfl
  rw [hbytes, hbytes, h]

/-! ## answers -/

namespace Parsed

variable {α : Type} {change : α → α}

/-- What a source was found to be, on other lines. -/
def mapLines (change : α → α) (f : Nat → Nat) (parsed : Parsed α) : Parsed α where
  result := (parsed.result.map change).mapError (List.map (Diagnostic.mapLine f))
  constants := parsed.constants

theorem ofParser_onLines (read : Option α × Parser) :
    ofParser (Parser.onLines change f read) = (ofParser read).mapLines change f := by
  obtain ⟨tree, p⟩ := read
  cases tree with
  | none => rfl
  | some tree =>
    simp only [ofParser, Parser.onLines, Parser.mapLines, mapLines, Option.map_some]
    cases p.diagnostics <;> rfl

end Parsed

/-- Two answers of the compiler, each with the heap that it left, that differ in
lines only: the same bytes, instructions at the same offsets and a pool with the
same contents, or the same messages at the same places. -/
inductive SameButLines :
    Except (List Diagnostic) Chunk × Heap → Except (List Diagnostic) Chunk × Heap → Prop where
  | accepted {chunk chunk' : Chunk} {heap heap' : Heap} {contents : List Content}
      (hbytes : chunk.bytes = chunk'.bytes)
      (hoffsets : chunk.offsetsFrom 0 = chunk'.offsetsFrom 0)
      (hpool : chunk.constants.toList.map heap.view? = contents.map some)
      (hpool' : chunk'.constants.toList.map heap'.view? = contents.map some) :
      SameButLines (.ok chunk, heap) (.ok chunk', heap')
  | rejected {diagnostics diagnostics' : List Diagnostic} {heap heap' : Heap}
      (hsaid : diagnostics.map (fun d => (d.report.message, d.report.place)) =
        diagnostics'.map fun d => (d.report.message, d.report.place)) :
      SameButLines (.error diagnostics, heap) (.error diagnostics', heap')

/-- Trees that differ in lines only are compiled to answers that do. -/
theorem Parsed.compile_congr {α : Type} {change : α → α} {code : α → List Instruction}
    (hcode : ∀ tree, code (change tree) = (code tree).map (Instruction.mapLine f))
    {parsed parsed' : Parsed α} (h : parsed.mapLines change f = parsed'.mapLines change f)
    {heap heap' : Heap} (hbuilt : heap.Built) (hbuilt' : heap'.Built) :
    SameButLines (parsed.compile code heap) (parsed'.compile code heap') := by
  obtain ⟨result, constants⟩ := parsed
  obtain ⟨result', constants'⟩ := parsed'
  obtain ⟨hresult, rfl⟩ := Parsed.mk.inj h
  cases result with
  | ok tree =>
    cases result' with
    | error => cases hresult
    | ok tree' =>
      have htree : change tree = change tree' := Except.ok.inj hresult
      have hsame : (code tree).map (Instruction.mapLine f) =
          (code tree').map (Instruction.mapLine f) := by
        rw [← hcode, ← hcode, htree]
      have hbytes := Chunk.bytes_ofCode_congr hsame (Constant.placeAll heap constants).1
        (Constant.placeAll heap' constants).1
      exact .accepted hbytes (Chunk.offsetsFrom_congr hbytes 0)
        (Chunk.view?_ofCode hbuilt _ constants) (Chunk.view?_ofCode hbuilt' _ constants)
  | error diagnostics =>
    cases result' with
    | ok => cases hresult
    | error diagnostics' =>
      have hsaid := congrArg (List.map fun d => (d.report.message, d.report.place))
        (Except.error.inj hresult)
      rw [List.map_map, List.map_map] at hsaid
      exact .rejected hsaid

/-! ## words -/

section

variable {first second : Text} {tokens tokens' : List Token}

/-- The lines of its tokens are all that a parser knows of the layout. -/
theorem Parser.start_of_words (hfirst : scan first = tokens.map .token)
    (hsecond : scan second = tokens'.map .token)
    (hwords : tokens.map Token.word = tokens'.map Token.word) :
    (start first).mapLines (fun _ => 0) = (start second).mapLines (fun _ => 0) := by
  have hunlined (tokens : List Token) : tokens.map (Token.mapLine fun _ => 0) =
      (tokens.map Token.word).map fun word => ⟨word.kind, word.lexeme, 0⟩ := by
    rw [List.map_map]
    rfl
  rw [start_of_scan hfirst, start_of_scan hsecond]
  exact mapLines_quiet_congr (by rw [hunlined, hunlined, hwords])

/-- Layout does not matter to the compiler: its answers to sources without lexical
errors that consist of the same words differ in lines only, as programs and as
lone expressions, on whatever heaps they are compiled. -/
theorem compile_of_same_words (hfirst : scan first = tokens.map .token)
    (hsecond : scan second = tokens'.map .token)
    (hwords : tokens.map Token.word = tokens'.map Token.word) {heap heap' : Heap}
    (hbuilt : heap.Built) (hbuilt' : heap'.Built) :
    SameButLines (Program.compile first heap) (Program.compile second heap') ∧
      SameButLines (Query.compile first heap) (Query.compile second heap') := by
  have hstart := Parser.start_of_words hfirst hsecond hwords
  constructor
  · refine Parsed.compile_congr (Program.code_mapLines fun _ => 0) ?_ hbuilt hbuilt'
    rw [Program.parse, Program.parse, ← Parsed.ofParser_onLines, ← Parsed.ofParser_onLines,
      Parser.program_congr hstart]
  · refine Parsed.compile_congr (Query.code_mapLines fun _ => 0) ?_ hbuilt hbuilt'
    rw [Query.parse, Query.parse, ← Parsed.ofParser_onLines, ← Parsed.ofParser_onLines,
      Parser.query_congr hstart]

end

/-- A comment and line separators between the words. -/
theorem compile_of_same_words_print :
    ∃ tokens tokens' : List Token, scan (text "print 1;") = tokens.map .token ∧
      scan (text "print // one\n1\n;") = tokens'.map .token ∧ tokens ≠ tokens' ∧
      tokens.map Token.word = tokens'.map Token.word ∧ Heap.Built .empty ∧
      SameButLines (Program.compile (text "print 1;") .empty)
        (Program.compile (text "print // one\n1\n;") .empty) ∧
      SameButLines (Query.compile (text "print 1;") .empty)
        (Query.compile (text "print // one\n1\n;") .empty) := by
  let tokens (one two : Nat) : List Token :=
    [⟨.keyword .printWord, text "print", 1⟩, ⟨.number, text "1", one⟩, ⟨.semicolon, text ";", two⟩]
  let last (line : Nat) : Token := ⟨.endOfInput, [], line⟩
  have hfirst : scan (text "print 1;") = (tokens 1 1 ++ [last 1]).map .token :=
    Cursor.run_of_take (show Cursor.take 4 _ = (tokens 1 1).map .token ++ [.token (last 1)]
      by decide) rfl (by decide)
  have hsecond : scan (text "print // one\n1\n;") = (tokens 2 3 ++ [last 3]).map .token :=
    Cursor.run_of_take (show Cursor.take 4 _ = (tokens 2 3).map .token ++ [.token (last 3)]
      by decide) rfl (by decide)
  obtain ⟨hprogram, hquery⟩ := compile_of_same_words hfirst hsecond rfl .empty .empty
  exact ⟨_, _, hfirst, hsecond, by decide, rfl, .empty, hprogram, hquery⟩

end Lox
