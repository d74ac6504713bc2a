import Lox.Proofs.Encoding

/-!
# Lox.Proofs.Draft

Units under construction.

The code of a unit that is being written stands in a buffer of fixed size, with room
behind it; if the buffer is full, the code moves into one of twice the size
(`Draft.write`).  What a draft stands for is the unit with the same code, lines and
pool (`Draft.unit`), and a draft answers every edit as that unit does, whether the
buffer grows or not (`Draft.Sound.perform`).  So a draft holds all that was written,
in order, and the first `poolCapacity` constants (`Draft.edits_refine_lists`).
-/

namespace Lox

/-! ## edits -/

/-- What can be added to a unit: a byte, the bytes of an instruction, a constant. -/
inductive Edit where
  | write (byte line : Int)
  | append (bytes : List UInt8) (line : Int)
  | pushConstant (value : Value)
  deriving DecidableEq

/-- What is answered to an edit. -/
inductive Reply where
  | written
  | appended (position : Nat)
  | pushed (index : Nat)
  | refused (message : Text)
  deriving DecidableEq, Repr

namespace Edit

/-- The bytes that an edit adds, as they are given. -/
def bytes : Edit → List Int
  | write byte _ => [byte]
  | append bytes _ => bytes.map fun byte => byte.toNat
  | pushConstant _ => []

/-- The lines of these bytes. -/
def lines : Edit → List Int
  | write _ line => [line]
  | append bytes line => List.replicate bytes.length line
  | pushConstant _ => []

/-- The constant that an edit asks for, if it does. -/
def constant? : Edit → Option Value
  | pushConstant value => some value
  | _ => none

end Edit

/-- The ways to add to what a unit is written to. -/
structure Editor (State : Type) where
  write : State → Int → Int → State
  append : State → List UInt8 → Int → Nat × State
  pushConstant? : State → Value → Option (Nat × State)

namespace Editor

variable {State : Type}

/-- Make one edit; a constant that finds no place changes nothing. -/
def perform (editor : Editor State) (state : State) : Edit → Reply × State
  | .write byte line => (.written, editor.write state byte line)
  | .append bytes line =>
    let (position, state) := editor.append state bytes line
    (.appended position, state)
  | .pushConstant value =>
    match editor.pushConstant? state value with
    | some (index, state) => (.pushed index, state)
    | none => (.refused Chunk.poolFullMessage, state)

/-- Make edits one after the other. -/
def performAll (editor : Editor State) (state : State) : List Edit → List Reply × State
  | [] => ([], state)
  | edit :: rest =>
    let (reply, state) := editor.perform state edit
    let (replies, state) := editor.performAll state rest
    (reply :: replies, state)

theorem performAll_cons (editor : Editor State) (state : State) (edit : Edit) (rest : List Edit) :
    editor.performAll state (edit :: rest) =
      ((editor.perform state edit).1 :: (editor.performAll (editor.perform state edit).2 rest).1,
        (editor.performAll (editor.perform state edit).2 rest).2) := rfl

end Editor

/-! ## edits of a unit -/

namespace Chunk

/-- Edits of a unit. -/
def editor : Editor Chunk := ⟨write, append, pushConstant?⟩

variable {chunk : Chunk} {edits : List Edit} {value : Value}

theorem perform_push_of_lt (h : chunk.constants.size < poolCapacity) :
    editor.perform chunk (.pushConstant value) =
      (.pushed chunk.constants.size, { chunk with constants := chunk.constants.push value }) := by
  simp only [Editor.perform, editor, pushConstant?, if_pos h]

theorem perform_push_of_le (h : poolCapacity ≤ chunk.constants.size) :
    editor.perform chunk (.pushConstant value) = (.refused poolFullMessage, chunk) := by
  simp only [Editor.perform, editor, pushConstant?, if_neg (Nat.not_lt.2 h)]

/-- A constant adds no code, whether it finds a place or not. -/
theorem code_perform_push (chunk : Chunk) (value : Value) :
    (editor.perform chunk (.pushConstant value)).2.code = chunk.code := by
  rcases Nat.lt_or_ge chunk.constants.size poolCapacity with hlt | hle
  · rw [perform_push_of_lt hlt]
  · rw [perform_push_of_le hle]

theorem bytes_perform (chunk : Chunk) (edit : Edit) :
    (editor.perform chunk edit).2.bytes = chunk.bytes ++ edit.bytes.map UInt8.ofInt := by
  cases edit with
  | write byte line => simp [Editor.perform, editor, write, bytes, Edit.bytes]
  | append added line =>
    have hcode := (chunk.code_writeAll added line).1
    simp [Editor.perform, editor, append, bytes, Edit.bytes, hcode, UInt8.ofInt_natCast,
      Function.comp_def]
  | pushConstant value => simp [bytes, Edit.bytes, code_perform_push]

theorem lines_perform (chunk : Chunk) (edit : Edit) :
    (editor.perform chunk edit).2.lines = chunk.lines ++ edit.lines := by
  cases edit with
  | write byte line => simp [Editor.perform, editor, write, lines, Edit.lines]
  | append added line =>
    have hcode := (chunk.code_writeAll added line).1
    simp [Editor.perform, editor, append, lines, Edit.lines, hcode, Function.comp_def,
      List.map_const']
  | pushConstant value => simp [lines, Edit.lines, code_perform_push]

theorem constants_perform (h : chunk.constants.size ≤ poolCapacity) (edit : Edit) :
    (editor.perform chunk edit).2.constants.toList =
      (chunk.constants.toList ++ edit.constant?.toList).take poolCapacity := by
  have hkept : chunk.constants.toList.take poolCapacity = chunk.constants.toList :=
    List.take_of_length_le h
  cases edit with
  | write byte line => simp [Editor.perform, editor, write, Edit.constant?, hkept]
  | append added line =>
    have hconstants := (chunk.code_writeAll added line).2
    simp [Editor.perform, editor, append, Edit.constant?, hconstants, hkept]
  | pushConstant value =>
    rcases Nat.lt_or_ge chunk.constants.size poolCapacity with hlt | hle
    · have hfits : (chunk.constants.toList ++ [value]).length ≤ poolCapacity := by
        rw [List.length_append]
        exact hlt
      rw [perform_push_of_lt hlt]
      exact Array.toList_push.trans (List.take_of_length_le hfits).symm
    · rw [perform_push_of_le hle, List.take_append_of_le_length hle, hkept]

/-- A unit holds what these edits add: all bytes, their lines, and as many constants
as the pool has room for. -/
structure Records (chunk : Chunk) (edits : List Edit) : Prop where
  bytes : chunk.bytes = (edits.flatMap Edit.bytes).map UInt8.ofInt
  lines : chunk.lines = edits.flatMap Edit.lines
  constants : chunk.constants.toList = (edits.filterMap Edit.constant?).take poolCapacity

namespace Records

theorem empty : Chunk.empty.Records [] := ⟨rfl, rfl, rfl⟩

theorem size_constants (h : chunk.Records edits) :
    chunk.constants.size = min poolCapacity (edits.filterMap Edit.constant?).length := by
  rw [← Array.length_toList, h.constants, List.length_take]

theorem perform (h : chunk.Records edits) (edit : Edit) :
    (editor.perform chunk edit).2.Records (edits ++ [edit]) where
  bytes := by simp [bytes_perform, h.bytes]
  lines := by simp [lines_perform, h.lines]
  constants := by
    have hroom : chunk.constants.size ≤ poolCapacity := by
      rw [h.size_constants]
      exact Nat.min_le_left ..
    have hlast : [edit].filterMap Edit.constant? = edit.constant?.toList := by
      cases edit <;> rfl
    -- The pool was cut before this edit; one cut behind it comes to the same.
    rw [constants_perform hroom, h.constants, List.filterMap_append, hlast, List.take_append,
      List.take_take, Nat.min_self, List.take_append, List.length_take]
    congr 2
    omega

theorem performAll (h : chunk.Records edits) (later : List Edit) :
    (editor.performAll chunk later).2.Records (edits ++ later) := by
  induction later generalizing chunk edits with
  | nil =>
    rw [List.append_nil]
    exact h
  | cons edit later ih =>
    rw [← List.singleton_append, ← List.append_assoc]
    exact ih (h.perform edit)

/-- A constant that found a place is read by its index, whatever else was added
since. -/
theorem constant {later : List Edit} {index : Nat}
    (h : chunk.Records (edits ++ .pushConstant value :: later))
    (hindex : (edits.filterMap Edit.constant?).length = index) (hroom : index < poolCapacity) :
    chunk.constant (some index) = .ok value := by
  have hplace : chunk.constants[index]? = some value := by
    rw [← Array.getElem?_toList, h.constants, List.getElem?_take_of_lt hroom,
      List.filterMap_append, List.getElem?_append_right (Nat.le_of_eq hindex), hindex, Nat.sub_self]
    rfl
  have hfound : chunk.constant? (some index) = some value := hplace
  rw [Chunk.constant, hfound]

end Records

end Chunk

/-! ## buffers -/

/-- A unit under construction.  Its code stands in front in the buffer; what comes
behind is room. -/
structure Draft where
  buffer : List UInt8
  count : Nat
  lines : Array Int
  constants : Array Value
  deriving DecidableEq

namespace Draft

/-- The draft that nothing was written to, with room for sixteen bytes. -/
def start : Draft := ⟨List.replicate 16 0, 0, #[], #[]⟩

/-- The code written so far. -/
def code (draft : Draft) : List UInt8 := draft.buffer.take draft.count

/-- How many bytes were written. -/
def length (draft : Draft) : Nat := draft.count

/-- The buffer with room for one more byte: a full one is copied to the front of an
empty one of twice the size. -/
def roomy (draft : Draft) : List UInt8 :=
  if draft.count = draft.buffer.length then
    let grown := List.replicate (2 * draft.buffer.length) 0
    draft.buffer ++ grown.drop draft.buffer.length
  else
    draft.buffer

/-- Append a byte; of an integer outside the range of bytes, only the remainder
modulo 256 counts. -/
def write (draft : Draft) (byte line : Int) : Draft :=
  ⟨Field.setByte draft.roomy draft.count byte, draft.count + 1, draft.lines.push line,
    draft.constants⟩

/-- Append the bytes of an instruction; the answer begins with the offset of the
first one. -/
def append (draft : Draft) (bytes : List UInt8) (line : Int) : Nat × Draft :=
  (draft.count, bytes.foldl (fun draft byte => draft.write byte.toNat line) draft)

/-- Append a constant to the pool, with its index, unless the pool is full. -/
def pushConstant? (draft : Draft) (value : Value) : Option (Nat × Draft) :=
  if poolCapacity ≤ draft.constants.size then
    none
  else
    let constants := draft.constants.push value
    some (constants.size - 1, { draft with constants })

/-- Edits of a draft. -/
def editor : Editor Draft := ⟨write, append, pushConstant?⟩

/-- The unit that a draft stands for. -/
def unit (draft : Draft) : Chunk :=
  ⟨((draft.code.zip draft.lines.toList).map fun entry => ⟨entry.1, entry.2⟩).toArray,
    draft.constants⟩

/-- The code fits into the buffer, which is never empty, and each byte of it has a
line. -/
structure Sound (draft : Draft) : Prop where
  buffer_pos : 0 < draft.buffer.length
  count_le : draft.count ≤ draft.buffer.length
  size_lines : draft.lines.size = draft.count

variable {draft : Draft} {edits : List Edit} {value : Value}

theorem Sound.start : start.Sound := ⟨by decide, by decide, rfl⟩

theorem Sound.length_code (h : draft.Sound) : draft.code.length = draft.length :=
  (List.length_take ..).trans (Nat.min_eq_left h.count_le)

theorem Sound.length_lines (h : draft.Sound) : draft.lines.toList.length = draft.code.length := by
  rw [Array.length_toList, h.size_lines, h.length_code]
  rfl

theorem Sound.bytes_unit (h : draft.Sound) : draft.unit.bytes = draft.code := by
  rw [unit, Chunk.bytes, List.map_map]
  exact List.map_fst_zip (Nat.le_of_eq h.length_lines.symm)

theorem Sound.lines_unit (h : draft.Sound) : draft.unit.lines = draft.lines.toList := by
  rw [unit, Chunk.lines, List.map_map]
  exact List.map_snd_zip (Nat.le_of_eq h.length_lines)

theorem Sound.length_unit (h : draft.Sound) : draft.unit.length = draft.length := by
  rw [← h.length_code, ← h.bytes_unit, Chunk.bytes, List.length_map]
  rfl

/-! ## growing -/

/-- Behind the code there is then a place for a byte. -/
theorem Sound.lt_length_roomy (h : draft.Sound) : draft.count < draft.roomy.length := by
  have hpos := h.buffer_pos
  have hle := h.count_le
  unfold roomy
  split
  · rw [List.length_append, List.length_drop, List.length_replicate]
    omega
  · omega

/-- Growing keeps the code where it is. -/
theorem Sound.take_roomy (h : draft.Sound) : draft.roomy.take draft.count = draft.code := by
  unfold roomy
  split
  · exact List.take_append_of_le_length h.count_le
  · rfl

theorem Sound.code_write (h : draft.Sound) (byte line : Int) :
    (draft.write byte line).code = draft.code ++ [UInt8.ofInt byte] := by
  have hlt := h.lt_length_roomy
  have hend : draft.code.length ≤ draft.count := Nat.le_of_eq h.length_code
  show (draft.roomy.set draft.count (UInt8.ofInt byte)).take (draft.count + 1) = _
  rw [List.take_succ_eq_append_getElem (by simpa using hlt), List.getElem_set_self, List.take_set,
    h.take_roomy, List.set_eq_of_length_le hend]

theorem Sound.write (h : draft.Sound) (byte line : Int) : (draft.write byte line).Sound := by
  have hlt := h.lt_length_roomy
  have hlength : (draft.write byte line).buffer.length = draft.roomy.length :=
    Field.length_setByte draft.roomy draft.count byte
  constructor
  · omega
  · rw [hlength]
    exact hlt
  · show (draft.lines.push line).size = _
    rw [Array.size_push, h.size_lines]
    rfl

theorem Sound.unit_write (h : draft.Sound) (byte line : Int) :
    (draft.write byte line).unit = draft.unit.write byte line := by
  have hlines : (draft.write byte line).lines.toList = draft.lines.toList ++ [line] :=
    Array.toList_push
  rw [unit, h.code_write, hlines, List.zip_append h.length_lines.symm, List.map_append, unit,
    Chunk.write, List.push_toArray]
  rfl

/-! ## drafts and units -/

theorem Sound.append (h : draft.Sound) (bytes : List UInt8) (line : Int) :
    (draft.append bytes line).1 = (draft.unit.append bytes line).1 ∧
      (draft.append bytes line).2.Sound ∧
      (draft.append bytes line).2.unit = (draft.unit.append bytes line).2 := by
  refine ⟨h.length_unit.symm, ?_⟩
  show (bytes.foldl (fun draft byte => draft.write byte.toNat line) draft).Sound ∧
    (bytes.foldl (fun draft byte => draft.write byte.toNat line) draft).unit =
      draft.unit.writeAll (bytes.map fun byte => byte.toNat) line
  induction bytes generalizing draft with
  | nil => exact ⟨h, rfl⟩
  | cons byte bytes ih =>
    obtain ⟨hsound, hunit⟩ := ih (h.write byte.toNat line)
    refine ⟨hsound, ?_⟩
    rw [List.foldl_cons, hunit, h.unit_write]
    rfl

theorem perform_push_of_lt (h : draft.constants.size < poolCapacity) :
    editor.perform draft (.pushConstant value) =
      (.pushed draft.constants.size, { draft with constants := draft.constants.push value }) := by
  simp only [Editor.perform, editor, pushConstant?, if_neg (Nat.not_le.2 h), Array.size_push,
    Nat.add_sub_cancel]

theorem perform_push_of_le (h : poolCapacity ≤ draft.constants.size) :
    editor.perform draft (.pushConstant value) = (.refused Chunk.poolFullMessage, draft) := by
  simp only [Editor.perform, editor, pushConstant?, if_pos h]

/-- A draft answers an edit as the unit that it stands for, and goes on standing for
it. -/
theorem Sound.perform (h : draft.Sound) (edit : Edit) :
    (editor.perform draft edit).1 = (Chunk.editor.perform draft.unit edit).1 ∧
      (editor.perform draft edit).2.Sound ∧
      (editor.perform draft edit).2.unit = (Chunk.editor.perform draft.unit edit).2 := by
  cases edit with
  | write byte line => exact ⟨rfl, h.write byte line, h.unit_write byte line⟩
  | append bytes line =>
    obtain ⟨hposition, hsound, hunit⟩ := h.append bytes line
    exact ⟨congrArg Reply.appended hposition, hsound, hunit⟩
  | pushConstant value =>
    rcases Nat.lt_or_ge draft.constants.size poolCapacity with hlt | hle
    · rw [perform_push_of_lt hlt, Chunk.perform_push_of_lt hlt]
      exact ⟨rfl, ⟨h.buffer_pos, h.count_le, h.size_lines⟩, rfl⟩
    · rw [perform_push_of_le hle, Chunk.perform_push_of_le hle]
      exact ⟨rfl, h, rfl⟩

theorem Sound.performAll (h : draft.Sound) (edits : List Edit) :
    (editor.performAll draft edits).1 = (Chunk.editor.performAll draft.unit edits).1 ∧
      (editor.performAll draft edits).2.Sound ∧
      (editor.performAll draft edits).2.unit =
        (Chunk.editor.performAll draft.unit edits).2 := by
  induction edits generalizing draft with
  | nil => exact ⟨rfl, h, rfl⟩
  | cons edit edits ih =>
    obtain ⟨hreply, hsound, hunit⟩ := h.perform edit
    obtain ⟨hreplies, hsound', hunit'⟩ := ih hsound
    rw [hunit] at hreplies hunit'
    refine ⟨?_, hsound', hunit'⟩
    rw [Editor.performAll_cons, Editor.performAll_cons, hreply, hreplies]

/-- Whatever is added to a fresh draft, in whatever order, it holds as plain lists
would.  It answers as the unit that it stands for: its code is all written bytes
modulo 256 in order, with their lines, however often the buffer grew, and its
constants are the first 256 that were asked for.  As long as there are fewer, the
next one gets their number as its index, and is read by it whatever is added later;
after that it is refused, and nothing changes. -/
theorem edits_refine_lists (edits later : List Edit) (value : Value) :
    let draft := (editor.performAll start edits).2
    let pushed := editor.perform draft (.pushConstant value)
    ((editor.performAll start edits).1 = (Chunk.editor.performAll .empty edits).1 ∧
        draft.unit = (Chunk.editor.performAll .empty edits).2) ∧
      draft.code.map (fun byte => (byte.toNat : Int)) = (edits.flatMap Edit.bytes).map (· % 256) ∧
      draft.lines.toList = edits.flatMap Edit.lines ∧
      draft.length = draft.code.length ∧ draft.length = draft.lines.size ∧
      draft.constants.toList = (edits.filterMap Edit.constant?).take 256 ∧
      (draft.constants.size < 256 → pushed.1 = .pushed draft.constants.size ∧
        (editor.performAll pushed.2 later).2.unit.constant (some draft.constants.size) =
          .ok value) ∧
      (256 ≤ draft.constants.size →
        pushed = (.refused (text "A chunk cannot hold more than 256 constants"), draft)) := by
  intro draft pushed
  obtain ⟨hreplies, hsound, hunit⟩ := Sound.start.performAll edits
  have hrecords : draft.unit.Records edits := hunit ▸ Chunk.Records.empty.performAll edits
  refine ⟨⟨hreplies, hunit⟩, ?_, ?_, hsound.length_code.symm, hsound.size_lines.symm,
    hrecords.constants, fun hlt => ?_, fun hle => ?_⟩
  · rw [← hsound.bytes_unit, hrecords.bytes, List.map_map]
    exact List.map_congr_left fun byte _ => UInt8.toNat_ofInt byte
  · rw [← hsound.lines_unit, hrecords.lines]
  · have hmin : draft.constants.size = min 256 (edits.filterMap Edit.constant?).length :=
      hrecords.size_constants
    obtain ⟨-, hsound', hunit'⟩ := hsound.perform (.pushConstant value)
    obtain ⟨-, -, hunit''⟩ := hsound'.performAll later
    have hlast := (hrecords.perform (.pushConstant value)).performAll later
    rw [← hunit', ← hunit'', List.append_assoc] at hlast
    exact ⟨congrArg Prod.fst (perform_push_of_lt hlt), hlast.constant (by omega) hlt⟩
  · have hmessage : Chunk.poolFullMessage = text "A chunk cannot hold more than 256 constants" := by
      decide
    rw [← hmessage]
    exact perform_push_of_le hle

/-- The first of three hundred and one constants is read after the others were asked
for; after three hundred, one more is refused. -/
theorem edits_refine_lists_full :
    let others := List.replicate 300 (.pushConstant .nil)
    let first := (editor.perform start (.pushConstant (.bool true))).2
    let full := (editor.performAll start others).2
    (editor.performAll first others).2.unit.constant (some 0) = .ok (.bool true) ∧
      editor.perform full (.pushConstant (.bool true)) =
        (.refused (text "A chunk cannot hold more than 256 constants"), full) := by
  intro others first full
  obtain ⟨-, -, -, -, -, -, hread, -⟩ := edits_refine_lists [] others (.bool true)
  obtain ⟨-, -, -, -, -, hconstants, -, hrefused⟩ := edits_refine_lists others [] (.bool true)
  have hasked : others.filterMap Edit.constant? = List.replicate 300 .nil :=
    List.filterMap_replicate_of_some rfl
  have hsize : 256 ≤ full.constants.size := by
    rw [← Array.length_toList, hconstants, hasked, List.length_take, List.length_replicate]
    decide
  exact ⟨(hread (by decide)).2, hrefused hsize⟩

/-- The seventeenth byte moves the code into a larger buffer. -/
example :
    let draft := (editor.performAll start [.append (List.replicate 16 7) 1, .write (-1) 2]).2
    draft.buffer.length = 32 ∧ draft.code = List.replicate 16 7 ++ [255] := by decide

end Draft

end Lox
