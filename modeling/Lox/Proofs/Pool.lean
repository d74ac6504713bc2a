import Lox.Proofs.Acceptance
import Lox.Proofs.Encoding
import Lox.Proofs.Execution
import Lox.Proofs.Handles
import Lox.Proofs.Listing
import Lox.Proofs.Rescanning

/-!
# Lox.Proofs.Pool

Tokens, pool entries and operands, one for one.

A number, a string and an identifier each ask for one entry of the constant pool
(`Asks`), and the pool of a unit holds these entries in the order of the source.  Operands
come in another order: the code that assigns a variable stands behind that of
the value, and its name before it.  Still they are the same references, each to
the entry of its token (`Level.Derives.perm_references`).  So the operands that
are read from the bytes of a unit refer to each entry once, and as its token says
(`pools_are_exact`).
-/

namespace Lox

/-- What a pool entry is used for: its own value, or the variable that it
names. -/
inductive Reference where
  | value | name
  deriving DecidableEq, Repr

/-- How an operation uses the pool entry that its operand gives. -/
def Opcode.reference? : Opcode → Option Reference
  | constant => some .value
  | defineGlobal | getGlobal | setGlobal => some .name
  | _ => none

/-- How the pool entry of a kind of token is to be used. -/
def TokenKind.reference? : TokenKind → Option Reference
  | number | string => some .value
  | identifier => some .name
  | _ => none

theorem Opcode.operandWidths_of_reference? {op : Opcode} {reference : Reference}
    (h : op.reference? = some reference) : op.operandWidths = [1] := by
  cases op <;> cases h <;> rfl

theorem Opcode.reference?_of_plain {op : Opcode} (h : op.operandWidths = []) :
    op.reference? = none := by
  cases op <;> first | rfl | cases h

theorem Opcode.exists_reference? {op : Opcode} (h : op.operandWidths = [1]) :
    ∃ reference, op.reference? = some reference := by
  cases op <;> first | exact ⟨_, rfl⟩ | cases h

theorem TokenKind.isSome_reference? (kind : TokenKind) :
    kind.reference?.isSome = kind.isPooled := by cases kind <;> rfl

theorem TokenKind.reference?_of_not_pooled {kind : TokenKind} (h : kind.isPooled = false) :
    kind.reference? = none := by
  rw [← Option.not_isSome_iff_eq_none, kind.isSome_reference?, h]
  simp

/-! ## references of tokens -/

/-- The uses of the pool entries of some tokens, in the order of the source. -/
def referencesOf (tokens : List Token) : List Reference :=
  tokens.filterMap fun token => token.kind.reference?

/-- The references of some tokens to pool entries, from `entry` on, as they fit
in a byte. -/
def numbered (entry : Nat) (tokens : List Token) : List (Reference × Nat) :=
  ((referencesOf tokens).zipIdx entry).map fun (reference, index) => (reference, index % 256)

section

variable {tokens : List Token} {token : Token} {entry : Nat}

theorem length_referencesOf (tokens : List Token) :
    (referencesOf tokens).length = pooledTokens tokens := by
  simp only [referencesOf, List.length_filterMap_eq_countP, TokenKind.isSome_reference?,
    pooledTokens]

@[simp] theorem numbered_nil (entry : Nat) : numbered entry [] = [] := rfl

theorem numbered_cons_of_none (h : token.kind.reference? = none) :
    numbered entry (token :: tokens) = numbered entry tokens := by
  simp [numbered, referencesOf, h]

theorem numbered_cons_of_some {reference : Reference} (h : token.kind.reference? = some reference) :
    numbered entry (token :: tokens) =
      (reference, entry % 256) :: numbered (entry + 1) tokens := by
  simp [numbered, referencesOf, h]

theorem numbered_append (entry : Nat) (before after : List Token) :
    numbered entry (before ++ after) =
      numbered entry before ++ numbered (entry + pooledTokens before) after := by
  simp [numbered, referencesOf, List.zipIdx_append, ← length_referencesOf]

/-- Numbers that fit in a byte are kept. -/
theorem numbered_eq (h : pooledTokens tokens ≤ 256) :
    numbered 0 tokens = (referencesOf tokens).zipIdx := by
  refine (List.map_congr_left fun pair hpair => ?_).trans (List.map_id _)
  obtain ⟨reference, index⟩ := pair
  have hlt := List.snd_lt_of_mem_zipIdx hpair
  rw [length_referencesOf] at hlt
  exact Prod.ext rfl (Nat.mod_eq_of_lt (Nat.lt_of_lt_of_le hlt (by simpa using h)))

end

/-! ## references of code -/

/-- The reference that an instruction makes by its operand. -/
def Instruction.reference? (instruction : Instruction) : Option (Reference × Nat) :=
  instruction.opcode.reference?.map fun reference =>
    (reference, (UInt8.ofInt (instruction.operands.headD 0)).toNat)

section

variable {tokens : List Token}

namespace Instruction

/-- An instruction with an operand refers to the entry that the operand gives. -/
theorem filterMap_reference?_of_some {opcode : Opcode} {reference : Reference}
    (h : opcode.reference? = some reference) (entry line : Nat) :
    [⟨opcode, [(entry : Int)], line⟩].filterMap reference? = [(reference, entry % 256)] := by
  simp [reference?, h, UInt8.ofInt_natCast]

theorem filterMap_reference?_of_none {opcodes : List Opcode}
    (h : ∀ opcode ∈ opcodes, opcode.reference? = none) (line : Nat) :
    (opcodes.map fun opcode => Instruction.mk opcode [] line).filterMap reference? = [] := by
  rw [List.filterMap_map, List.filterMap_eq_nil_iff]
  intro opcode hopcode
  simp [reference?, h opcode hopcode]

end Instruction

open Instruction

/-- A literal refers to the entry of its token, if it has one. -/
theorem Denotes.filterMap_reference?_code {token : Token} {value : Literal}
    (h : Denotes token.kind token.lexeme value) (entry line : Nat) :
    [value.code entry line].filterMap reference? = numbered entry [token] := by
  obtain ⟨kind, lexeme, place⟩ := token
  cases h <;> simp [Literal.code, reference?, Opcode.reference?, numbered, referencesOf,
    TokenKind.reference?, UInt8.ofInt_natCast]

theorem UnaryOp.reference?_opcode (op : UnaryOp) :
    ∀ opcode ∈ [op.opcode], opcode.reference? = none := by
  cases op <;> decide

theorem BinaryOp.reference?_opcodes (op : BinaryOp) :
    ∀ opcode ∈ op.opcodes, opcode.reference? = none := by
  cases op <;> decide

/-- The code of an expression makes the references of its tokens. -/
theorem Level.Derives.perm_references {level : Level} {e : Expr} (h : level.Derives tokens e)
    (entry : Nat) : ((e.code entry).filterMap reference?).Perm (numbered entry tokens) := by
  induction h generalizing entry with
  | tighter _ ih => exact ih entry
  | @assign name sign _ value hname hsign _ ih =>
    have hname' : name.kind.reference? = some .name := by rw [hname]; rfl
    have hsign' : sign.kind.reference? = none := by rw [hsign]; rfl
    rw [Expr.code, List.filterMap_append, filterMap_reference?_of_some rfl,
      numbered_cons_of_some hname', numbered_cons_of_none hsign']
    -- the operand of an assignment comes last, the name of its target first
    exact (List.perm_append_singleton _ _).trans ((ih (entry + 1)).cons _)
  | @binary _ sign op before _ left _ hsign hleft _ ihleft ihright =>
    have hsign' := TokenKind.reference?_of_not_pooled hsign.not_pooled
    have hcount : pooledTokens before = left.constants.length := by
      rw [pooledTokens_eq_length, hleft.constants]
    rw [Expr.code, List.filterMap_append, List.filterMap_append,
      filterMap_reference?_of_none op.reference?_opcodes, List.append_nil, numbered_append,
      numbered_cons_of_none hsign', hcount]
    exact (ihleft entry).append (ihright _)
  | @unary sign op _ operand hsign _ ih =>
    have hsign' := TokenKind.reference?_of_not_pooled hsign.not_pooled
    have hop := filterMap_reference?_of_none op.reference?_opcode operand.lastLine
    rw [List.map_singleton] at hop
    rw [Expr.code, List.filterMap_append, hop, List.append_nil, numbered_cons_of_none hsign']
    exact ih entry
  | literal h => exact List.Perm.of_eq (h.filterMap_reference?_code entry _)
  | @global token h =>
    have hname : token.kind.reference? = some .name := by rw [h]; rfl
    rw [Expr.code, filterMap_reference?_of_some rfl, numbered_cons_of_some hname, numbered_nil]
  | @group opening closing _ _ hopening hclosing _ ih =>
    have hopening' : opening.kind.reference? = none := by rw [hopening]; rfl
    have hclosing' : closing.kind.reference? = none := by rw [hclosing]; rfl
    rw [List.cons_append, numbered_cons_of_none hopening', numbered_append,
      numbered_cons_of_none hclosing', numbered_nil, List.append_nil]
    exact ih entry

/-- A token that takes no entry, at the end of a construct. -/
theorem numbered_concat {last : Token} (h : last.kind.reference? = none) (entry : Nat)
    (tokens : List Token) : numbered entry (tokens ++ [last]) = numbered entry tokens := by
  rw [numbered_append, numbered_cons_of_none h, numbered_nil, List.append_nil]

theorem Stmt.Derives.perm_references {statement : Stmt} (h : statement.Derives tokens)
    (entry : Nat) : ((statement.code entry).filterMap reference?).Perm (numbered entry tokens) := by
  have hend {semicolon : Token} (hkind : semicolon.kind = .semicolon) :
      semicolon.kind.reference? = none := by rw [hkind]; rfl
  have hplain (opcode : Opcode) (line : Nat) (hnone : opcode.reference? = none) :
      [⟨opcode, [], line⟩].filterMap reference? = [] :=
    filterMap_reference?_of_none (List.forall_mem_singleton.2 hnone) line
  cases h with
  | @declare intro name semicolon hintro hname hsemicolon =>
    have hintro' : intro.kind.reference? = none := by rw [hintro]; rfl
    have hname' : name.kind.reference? = some .name := by rw [hname]; rfl
    rw [numbered_cons_of_none hintro', numbered_cons_of_some hname',
      numbered_cons_of_none (hend hsemicolon), numbered_nil]
    have hcode : (Stmt.var name.lexeme name.line none semicolon.line).code entry =
        [⟨.pushNil, [], name.line⟩] ++ [⟨.defineGlobal, [(entry : Int)], semicolon.line⟩] := rfl
    rw [hcode, List.filterMap_append, hplain .pushNil _ rfl, filterMap_reference?_of_some rfl,
      List.nil_append]
  | @define intro name sign semicolon _ _ hintro hname hsign hinitial hsemicolon =>
    have hintro' : intro.kind.reference? = none := by rw [hintro]; rfl
    have hname' : name.kind.reference? = some .name := by rw [hname]; rfl
    have hsign' : sign.kind.reference? = none := by rw [hsign]; rfl
    rw [Stmt.code, List.filterMap_append, filterMap_reference?_of_some rfl,
      numbered_concat (hend hsemicolon), numbered_cons_of_none hintro',
      numbered_cons_of_some hname', numbered_cons_of_none hsign']
    exact (List.perm_append_singleton _ _).trans ((hinitial.perm_references (entry + 1)).cons _)
  | @print intro _ _ _ hintro hvalue hsemicolon =>
    have hintro' : intro.kind.reference? = none := by rw [hintro]; rfl
    rw [Stmt.code, List.filterMap_append, hplain .print _ rfl, List.append_nil,
      numbered_concat (hend hsemicolon), numbered_cons_of_none hintro']
    exact hvalue.perm_references entry
  | expression hvalue hsemicolon =>
    rw [Stmt.code, List.filterMap_append, hplain .pop _ rfl, List.append_nil,
      numbered_concat (hend hsemicolon)]
    exact hvalue.perm_references entry

theorem Stmt.DerivesAll.perm_references {statements : List Stmt}
    (h : Stmt.DerivesAll tokens statements) (entry : Nat) :
    ((Stmt.codeAll entry statements).filterMap reference?).Perm (numbered entry tokens) := by
  induction h generalizing entry with
  | nil => exact .refl _
  | cons hhead _ ih =>
    rw [Stmt.codeAll, List.filterMap_append, numbered_append, pooledTokens_eq_length,
      hhead.constants]
    exact (hhead.perm_references entry).append (ih _)

/-- A return refers to nothing, and the end marker asks for nothing. -/
theorem perm_references_end {code : List Instruction} {last : Token}
    (h : (code.filterMap reference?).Perm (numbered 0 tokens)) (hlast : last.kind = .endOfInput)
    (line : Nat) :
    ((code ++ [Instruction.mk .ret [] line]).filterMap reference?).Perm
      (numbered 0 (tokens ++ [last])) := by
  have hlast' : last.kind.reference? = none := by rw [hlast]; rfl
  rw [List.filterMap_append, numbered_concat hlast']
  simpa [reference?, Opcode.reference?] using h

theorem Program.Derives.perm_references {program : Program} (h : program.Derives tokens) :
    (program.code.filterMap reference?).Perm (numbered 0 tokens) := by
  obtain ⟨body, last, rfl, hlast, hbody, -⟩ := h
  exact perm_references_end (hbody.perm_references 0) hlast program.endLine

theorem Query.Derives.perm_references {query : Query} (h : query.Derives tokens) :
    (query.code.filterMap reference?).Perm (numbered 0 tokens) := by
  obtain ⟨body, last, rfl, hlast, hbody, -⟩ := h
  exact perm_references_end (hbody.perm_references 0) hlast query.endLine

end

/-! ## references of units -/

namespace Chunk

variable {chunk : Chunk} {offset : Nat} {code : List Instruction}

/-- The reference that the instruction at an offset makes. -/
def referenceAt? (chunk : Chunk) (offset : Nat) : Option (Reference × Nat) :=
  ((chunk.byte? offset).bind Opcode.ofCode?).bind fun op =>
    op.reference?.bind fun reference =>
      (chunk.byte? ↑(offset + 1)).map fun index => (reference, index.toNat)

/-- The references that the instructions of a unit make, in the order of the
code. -/
def references (chunk : Chunk) : List (Reference × Nat) :=
  (chunk.offsetsFrom 0).filterMap chunk.referenceAt?

theorem referenceAt?_of_goesOn {instruction : Instruction}
    (h : chunk.GoesOn offset (instruction :: code)) :
    chunk.referenceAt? offset = instruction.reference? := by
  rw [referenceAt?, h.byte?, Option.bind_some, Opcode.ofCode?_code, Option.bind_some,
    Instruction.reference?]
  cases hreference : instruction.opcode.reference? with
  | none => rfl
  | some reference =>
    have hbyte := h.getElem?_field (Opcode.operandWidths_of_reference? hreference)
    have hoperand : chunk.byte? ↑(offset + 1) =
        some ((UInt8.ofInt (instruction.operands.headD 0)).toNat : Int) := by
      show chunk.code[offset + 1]?.map _ = _
      rw [hbyte, Option.map_some]
    rw [Option.bind_some, hoperand]
    rfl

/-- What is read from the bytes of some code is what its instructions say. -/
theorem filterMap_referenceAt?_of_goesOn (h : chunk.GoesOn offset code) :
    (chunk.offsetsFrom offset).filterMap chunk.referenceAt? =
      code.filterMap Instruction.reference? := by
  induction code generalizing offset with
  | nil => rw [offsetsFrom_of_le (Nat.not_lt.2 h.length_le)]; rfl
  | cons instruction code ih =>
    rw [offsetsFrom_of_lt h.lt_length, h.nextOffset, List.filterMap_cons, List.filterMap_cons,
      referenceAt?_of_goesOn h, ih h.tail]

end Chunk

/-! ## strings in the heap -/

/-- Kinds of token whose pool entry is a string in the heap. -/
def TokenKind.isStored : TokenKind → Bool
  | string | identifier => true
  | _ => false

/-- Is this constant a string in the heap? -/
def Constant.isStored : Constant → Bool
  | number _ => false
  | text _ => true

theorem Constant.size_placeAll {heap : Heap} (hbuilt : heap.Built) (constants : List Constant) :
    (placeAll heap constants).2.size = heap.size + constants.countP isStored := by
  induction constants generalizing heap with
  | nil => rfl
  | cons constant rest ih =>
    have hrest := ih (place_spec hbuilt constant).2.2
    cases constant with
    | number value => exact hrest
    | text content =>
      have hsize := heap.size_allocate content
      rw [List.countP_cons_of_pos rfl, placeAll, hrest, place, hsize, Nat.add_assoc,
        Nat.add_comm 1]

theorem countP_isStored (tokens : List Token) :
    (tokens.filterMap Token.constant?).countP Constant.isStored =
      tokens.countP fun token => token.kind.isStored := by
  rw [List.countP_filterMap]
  refine List.countP_congr fun token _ => ?_
  obtain ⟨kind, lexeme, line⟩ := token
  cases kind <;> simp [Token.constant?, Constant.isStored, TokenKind.isStored]

/-! ## entries of tokens -/

/-- What the entries hold that some tokens ask for, in their order: the number
that a lexeme spells, what it has between its quotes, or the name that it is. -/
inductive Asks : List Token → List Content → Prop where
  | nil : Asks [] []
  | number {token : Token} {tokens : List Token} {contents : List Content}
      (hkind : token.kind = .number) (rest : Asks tokens contents) :
      Asks (token :: tokens) (.number (Decimal.read token.lexeme) :: contents)
  | string {token : Token} {tokens : List Token} {contents : List Content} {content : Text}
      (hkind : token.kind = .string) (hlexeme : token.lexeme = quote :: content ++ [quote])
      (rest : Asks tokens contents) : Asks (token :: tokens) (.text content :: contents)
  | identifier {token : Token} {tokens : List Token} {contents : List Content}
      (hkind : token.kind = .identifier) (rest : Asks tokens contents) :
      Asks (token :: tokens) (.text token.lexeme :: contents)
  | other {token : Token} {tokens : List Token} {contents : List Content}
      (hkind : token.kind.isPooled = false) (rest : Asks tokens contents) :
      Asks (token :: tokens) contents

theorem Token.constant?_of_string {token : Token} {content : Text} (h : token.kind = .string)
    (hlexeme : token.lexeme = quote :: content ++ [quote]) :
    token.constant? = some (.text content) := by
  simp only [constant?, h, hlexeme, Parser.unquote_quoted]

/-- Tokens ask for one list of contents only. -/
theorem Asks.contents_eq {tokens : List Token} {contents : List Content}
    (h : Asks tokens contents) :
    (tokens.filterMap Token.constant?).map Constant.content = contents := by
  induction h with
  | nil => rfl
  | number hkind _ ih => simp [Token.constant?, hkind, Constant.content, ih]
  | string hkind hlexeme _ ih =>
    rw [List.filterMap_cons_some (Token.constant?_of_string hkind hlexeme), List.map_cons, ih]
    rfl
  | identifier hkind _ ih => simp [Token.constant?, hkind, Constant.content, ih]
  | other hkind _ ih =>
    rw [List.filterMap_cons_none (Token.constant?_of_not_pooled hkind), ih]

theorem asks_of_quoted {tokens : List Token} (h : ∀ token ∈ tokens, token.kind = .string →
    ∃ content, token.lexeme = quote :: content ++ [quote]) :
    Asks tokens ((tokens.filterMap Token.constant?).map Constant.content) := by
  induction tokens with
  | nil => exact .nil
  | cons token tokens ih =>
    obtain ⟨hquoted, hrest⟩ := List.forall_mem_cons.1 h
    have hasks := ih hrest
    obtain ⟨kind, lexeme, line⟩ := token
    cases kind with
    | number => exact .number rfl hasks
    | string =>
      obtain ⟨content, hlexeme⟩ := hquoted rfl
      rw [List.filterMap_cons_some (Token.constant?_of_string rfl hlexeme)]
      exact .string rfl hlexeme hasks
    | identifier => exact .identifier rfl hasks
    | _ => exact .other rfl hasks

/-! ## units of sources -/

/-- A unit that some tokens were compiled to, on a heap that became another one.
The pool holds the entries of the tokens in the order of the source; among the
operands that refer to the pool, each entry stands once, and the operation uses it
as its token says; and the heap has grown by the strings and identifiers. -/
structure Chunk.Pools (chunk : Chunk) (tokens : List Token) (heap heap' : Heap) : Prop where
  entries : ∃ contents, Asks tokens contents ∧
    chunk.constants.toList.map heap'.view? = contents.map some
  references : chunk.references.Perm (referencesOf tokens).zipIdx
  indices : (chunk.references.map Prod.snd).Perm (List.range chunk.constants.size)
  size : heap'.size = heap.size + tokens.countP fun token => token.kind.isStored

/-- The pool of a unit holds the constants of the tokens. -/
theorem Chunk.Pools.views {chunk : Chunk} {tokens : List Token} {heap heap' : Heap}
    (h : chunk.Pools tokens heap heap') :
    chunk.constants.toList.map heap'.view? =
      ((tokens.filterMap Token.constant?).map Constant.content).map some := by
  obtain ⟨contents, hasks, hviews⟩ := h.entries
  rw [hasks.contents_eq, hviews]

theorem Chunk.pools_ofCode {source : Text} {tokens : List Token} {constants : List Constant}
    {code : List Instruction} {heap : Heap} (hbuilt : heap.Built)
    (hscan : scan source = tokens.map .token)
    (hconstants : tokens.filterMap Token.constant? = constants)
    (hroom : constants.length ≤ poolCapacity)
    (hcode : (code.filterMap Instruction.reference?).Perm (numbered 0 tokens)) :
    (ofCode code (Constant.placeAll heap constants).1).Pools tokens heap
      (Constant.placeAll heap constants).2 := by
  have hviews := view?_ofCode hbuilt code constants
  have hcount : pooledTokens tokens = constants.length := by
    rw [pooledTokens_eq_length, hconstants]
  have hlength : (ofCode code (Constant.placeAll heap constants).1).constants.size =
      pooledTokens tokens := by
    simpa [hcount] using congrArg List.length hviews
  have hreferences : (ofCode code (Constant.placeAll heap constants).1).references.Perm
      (referencesOf tokens).zipIdx := by
    rw [Chunk.references, filterMap_referenceAt?_of_goesOn (goesOn_ofCode code _),
      ← numbered_eq (hcount ▸ hroom)]
    exact hcode
  have hasks := asks_of_quoted fun token htoken => exists_quoted_of_scan hscan htoken
  rw [hconstants] at hasks
  refine ⟨⟨_, hasks, hviews⟩, hreferences, ?_, ?_⟩
  · rw [hlength, ← length_referencesOf, List.range_eq_range', ← List.zipIdx_map_snd]
    exact hreferences.map Prod.snd
  · rw [Constant.size_placeAll hbuilt, ← hconstants, countP_isStored]

/-- Tokens, pool entries and operands match one to one in whatever is accepted, as
a program or as a lone expression. -/
theorem pools_are_exact {heap : Heap} (hbuilt : heap.Built) (source : Text) :
    (∀ chunk heap', Program.compile source heap = (.ok chunk, heap') →
      ∃ tokens, scan source = tokens.map .token ∧ chunk.Pools tokens heap heap') ∧
    (∀ chunk heap', Query.compile source heap = (.ok chunk, heap') →
      ∃ tokens, scan source = tokens.map .token ∧ chunk.Pools tokens heap heap') := by
  refine ⟨fun chunk heap' hcompile => ?program, fun chunk heap' hcompile => ?query⟩
  case program =>
    obtain ⟨program, hparse, rfl, rfl⟩ := Parsed.compile_eq_ok hcompile
    obtain ⟨tokens, hscan, hderives, hdepth, hroom⟩ := Program.derives_of_parse hparse
    rw [Program.parse_of_derives hscan hderives hdepth hroom]
    exact ⟨tokens, hscan, Chunk.pools_ofCode hbuilt hscan hderives.constants hroom
      hderives.perm_references⟩
  case query =>
    obtain ⟨query, hparse, rfl, rfl⟩ := Parsed.compile_eq_ok hcompile
    obtain ⟨tokens, hscan, hderives, hdepth, hroom⟩ := Query.derives_of_parse hparse
    rw [Query.parse_of_derives hscan hderives hdepth hroom]
    exact ⟨tokens, hscan, Chunk.pools_ofCode hbuilt hscan hderives.constants hroom
      hderives.perm_references⟩

/-- The name of an assigned variable is the first entry, and the operand that
refers to it is the last; the other entry is the string without its quotes. -/
theorem pools_are_exact_assignment : Heap.Built .empty ∧
    ∃ chunk heap' tokens, Program.compile (text "a=\"b\";") .empty = (.ok chunk, heap') ∧
      chunk.constants.toList.map heap'.view? =
        [some (.text (text "a")), some (.text (text "b"))] ∧
      chunk.references = [(.value, 1), (.name, 0)] ∧ heap'.size = 2 ∧
      chunk.Pools tokens .empty heap' := by
  let name : Token := ⟨.identifier, text "a", 1⟩
  let sign : Token := ⟨.equal, text "=", 1⟩
  let value : Token := ⟨.string, text "\"b\"", 1⟩
  let semicolon : Token := ⟨.semicolon, text ";", 1⟩
  let last : Token := ⟨.endOfInput, [], 1⟩
  let assignment : Expr := .assign (text "a") (.literal (.string (text "b")) 1)
  let program : Program := ⟨[.expression assignment 1], 1⟩
  have htake : (Cursor.start (text "a=\"b\";")).take 5 =
      [.token name, .token sign, .token value, .token semicolon] ++ [.token last] := by decide
  have hscan : scan (text "a=\"b\";") =
      [name, sign, value, semicolon, last].map .token :=
    Cursor.run_of_take htake rfl (by decide)
  have hvalue : Level.expression.Derives [value] (.literal (.string (text "b")) 1) :=
    .of_primary (.literal (.string (text "\"b\"")))
  have hassignment : Level.expression.Derives [name, sign, value] assignment :=
    .assign rfl rfl hvalue
  have hprogram : program.Derives ([name, sign, value, semicolon] ++ [last]) :=
    ⟨_, last, rfl, rfl, .cons (.expression hassignment rfl) .nil, rfl⟩
  have hdepth : ∀ statement ∈ program.statements, statement.Shallow := by
    intro statement hstatement e he
    obtain rfl := List.mem_singleton.1 hstatement
    cases he
    decide
  have hparse := Program.parse_of_derives hscan hprogram hdepth (by decide)
  let placed := Constant.placeAll .empty program.constants
  have hcompile : Program.compile (text "a=\"b\";") .empty =
      (.ok (Chunk.ofCode program.code placed.1), placed.2) := by
    rw [Program.compile, hparse]
    rfl
  have hreferences : (Chunk.ofCode program.code placed.1).references =
      [(.value, 1), (.name, 0)] := by
    rw [Chunk.references, Chunk.filterMap_referenceAt?_of_goesOn (Chunk.goesOn_ofCode _ _)]
    rfl
  obtain ⟨tokens, -, hpools⟩ := (pools_are_exact .empty _).1 _ _ hcompile
  exact ⟨.empty, _, _, tokens, hcompile, by decide, hreferences, by decide, hpools⟩

end Lox
