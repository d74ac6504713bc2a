import Lox.Text

/-!
# Lox.Text.Utf8

Reading bytes as UTF-8.

Bytes that are not well formed are replaced: each longest run of bytes that
begins a sequence but does not complete it, and each byte that begins none,
becomes one replacement character.  Nothing is dropped at the beginning.
-/

namespace Lox.Text

/-- What stands for bytes that are not well formed. -/
def replacement : CodeUnit := 0xFFFD

/-- A sequence that is not complete: the bits read so far, how many bytes are
missing, and the range of the next one.  The range leaves out overlong forms,
surrogates and what lies beyond the last character. -/
structure Sequence where
  bits : Nat
  missing : Nat
  low : Nat
  high : Nat

/-- Read a byte that begins a sequence: the text it makes, or the sequence it
opens. -/
def readFirst (byte : Nat) : Text × Option Sequence :=
  if byte ≤ 0x7F then ([UInt16.ofNat byte], none)
  else if byte < 0xC2 then ([replacement], none)
  else if byte ≤ 0xDF then ([], some ⟨byte % 0x20, 1, 0x80, 0xBF⟩)
  else if byte = 0xE0 then ([], some ⟨0x0, 2, 0xA0, 0xBF⟩)
  else if byte = 0xED then ([], some ⟨0xD, 2, 0x80, 0x9F⟩)
  else if byte ≤ 0xEF then ([], some ⟨byte % 0x10, 2, 0x80, 0xBF⟩)
  else if byte = 0xF0 then ([], some ⟨0x0, 3, 0x90, 0xBF⟩)
  else if byte ≤ 0xF3 then ([], some ⟨byte % 0x08, 3, 0x80, 0xBF⟩)
  else if byte = 0xF4 then ([], some ⟨0x4, 3, 0x80, 0x8F⟩)
  else ([replacement], none)

/-- Read bytes after a sequence that may be open. -/
def readBytes : Option Sequence → List UInt8 → Text
  | none, [] => []
  | some _, [] => [replacement]
  | none, byte :: rest =>
    let (units, opened) := readFirst byte.toNat
    units ++ readBytes opened rest
  | some sequence, byte :: rest =>
    if sequence.low ≤ byte.toNat ∧ byte.toNat ≤ sequence.high then
      let bits := sequence.bits * 0x40 + byte.toNat % 0x40
      if sequence.missing ≤ 1 then ofChar (Char.ofNat bits) ++ readBytes none rest
      else readBytes (some ⟨bits, sequence.missing - 1, 0x80, 0xBF⟩) rest
    else
      let (units, opened) := readFirst byte.toNat
      replacement :: units ++ readBytes opened rest

/-- The text that bytes spell in UTF-8. -/
def ofUtf8 (bytes : List UInt8) : Text := readBytes none bytes

end Lox.Text
