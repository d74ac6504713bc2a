import Lox.Field

/-!
# Lox.Proofs.Field

What a field holds.

A value is written from the last byte of a field to the first, and each byte is a
digit in base 256 of the signed 32-bit integer that the value wraps to
(`Field.getElem?_writeBytes`).  So a field inside the bytes spells that integer
modulo `256 ^ size` (`Field.number_digits`), and in front of its last four bytes it
is filled with the sign (`Field.digit_of_four_le`).  Rounds of masking and shifting
32-bit words write the same bytes (`Field.shiftBytes_eq`).
-/

namespace Lox

/-! ## integers as bytes -/

theorem UInt8.ofInt_natCast (value : Nat) : UInt8.ofInt (value : Int) = UInt8.ofNat value := by
  show UInt8.ofNat (value % 256 : Nat) = UInt8.ofNat value
  rw [← UInt8.toNat_inj, UInt8.toNat_ofNat', UInt8.toNat_ofNat', Nat.mod_mod]

theorem UInt8.ofInt_emod (value : Int) : UInt8.ofInt (value % 256) = UInt8.ofInt value := by
  simp only [UInt8.ofInt]
  rw [Int.emod_emod_of_dvd value (by decide)]

theorem UInt8.toNat_ofInt (value : Int) : ((UInt8.ofInt value).toNat : Int) = value % 256 := by
  have hcast : ((value % 256).toNat : Int) = value % 256 := by omega
  rw [← UInt8.ofInt_emod, ← hcast, UInt8.ofInt_natCast, UInt8.toNat_ofNat',
    Nat.mod_eq_of_lt (by omega)]

namespace Field

variable {bytes : List UInt8} {offset value : Int} {size index i : Nat}

/-! ## digits in base 256 -/

/-- The digit of a value at a place; the last digit is at place zero. -/
def digit (value : Int) (place : Nat) : Int := value / Nat.pow 256 place % 256

@[simp] theorem digit_zero (value : Int) : digit value 0 = value % 256 := by
  show value / 1 % 256 = _
  rw [Int.ediv_one]

@[simp] theorem digit_succ (value : Int) (place : Nat) :
    digit value (place + 1) = digit (value / 256) place := by
  have hpow : (Nat.pow 256 (place + 1) : Int) = 256 * Nat.pow 256 place := by
    rw [Int.mul_comm]
    rfl
  rw [digit, digit, hpow, Int.ediv_ediv_of_nonneg (by decide)]

theorem toNat_ofInt_digit (value : Int) (place : Nat) :
    ((UInt8.ofInt (digit value place)).toNat : Int) = digit value place := by
  rw [UInt8.toNat_ofInt, digit, Int.emod_emod_of_dvd _ (by decide)]

theorem digit_zero_left (place : Nat) : digit 0 place = 0 := by
  induction place with
  | zero => rfl
  | succ place ih => rw [digit_succ, Int.zero_ediv, ih]

theorem digit_neg_one (place : Nat) : digit (-1) place = 255 := by
  induction place with
  | zero => rfl
  | succ place ih => exact (digit_succ (-1) place).trans ih

/-- In front of its last four digits, a signed 32-bit integer has its sign only. -/
theorem digit_of_four_le {place : Nat} (h : 4 ≤ place) (hle : -0x80000000 ≤ value)
    (hlt : value < 0x80000000) : digit value place = if value < 0 then 255 else 0 := by
  obtain ⟨rest, rfl⟩ := Nat.exists_eq_add_of_le' h
  rw [digit_succ, digit_succ, digit_succ, digit_succ]
  split
  · next hneg =>
    have hsign : value / 256 / 256 / 256 / 256 = -1 := by omega
    rw [hsign, digit_neg_one]
  · next hnonneg =>
    have hsign : value / 256 / 256 / 256 / 256 = 0 := by omega
    rw [hsign, digit_zero_left]

/-- The last digits of a value as bytes, the very last one at the end. -/
def digits : Nat → Int → List UInt8
  | 0, _ => []
  | size + 1, value => digits size (value / 256) ++ [UInt8.ofInt value]

@[simp] theorem length_digits (size : Nat) (value : Int) : (digits size value).length = size := by
  induction size generalizing value with
  | zero => rfl
  | succ size ih => rw [digits, List.length_append, ih, List.length_singleton]

theorem getElem?_digits (value : Int) (h : i < size) :
    (digits size value)[i]? = some (UInt8.ofInt (digit value (size - 1 - i))) := by
  induction size generalizing value with
  | zero => omega
  | succ size ih =>
    rw [digits]
    by_cases hlast : i = size
    · have hplace : size + 1 - 1 - i = 0 := by omega
      rw [hplace, digit_zero, UInt8.ofInt_emod, hlast, List.getElem?_append_right (by simp),
        length_digits, Nat.sub_self]
      rfl
    · have hlt : i < size := by omega
      have hplace : size + 1 - 1 - i = size - 1 - i + 1 := by omega
      rw [List.getElem?_append_left (by simpa using hlt), ih _ hlt, hplace, digit_succ]

/-- The number that bytes spell, the most significant byte first. -/
def number (bytes : List UInt8) : Nat :=
  bytes.foldl (fun number byte => 256 * number + byte.toNat) 0

theorem number_concat (bytes : List UInt8) (byte : UInt8) :
    number (bytes ++ [byte]) = 256 * number bytes + byte.toNat := by
  rw [number, List.foldl_append]
  rfl

/-- The digits in front of the last one are the digits of the quotient. -/
theorem emod_mul_base (value : Int) (base : Nat) :
    value % (base * 256 : Nat) = 256 * (value / 256 % base) + value % 256 := by
  have houter : value % (base * 256 : Nat) = value - 256 * (base * (value / 256 / base)) := by
    rw [Int.emod_def, Int.natCast_mul, Int.mul_comm (base : Int),
      Int.ediv_ediv_of_nonneg (by decide), Int.mul_assoc]
    rfl
  have hinner := Int.emod_def (value / 256) base
  omega

/-- The last digits spell the remainder; that of a negative value is its two's
complement. -/
theorem number_digits (size : Nat) (value : Int) :
    (number (digits size value) : Int) = value % Nat.pow 256 size := by
  induction size generalizing value with
  | zero =>
    show 0 = value % 1
    omega
  | succ size ih =>
    rw [digits, number_concat, Int.natCast_add, Int.natCast_mul, ih, UInt8.toNat_ofInt]
    exact (emod_mul_base value _).symm

/-! ## setting a byte -/

@[simp] theorem length_setByte (bytes : List UInt8) (position byte : Int) :
    (setByte bytes position byte).length = bytes.length := by
  cases position with
  | ofNat _ => exact List.length_set
  | negSucc _ => rfl

theorem getElem?_setByte_self {position : Int} (h : position = index) (byte : Int) :
    (setByte bytes position byte)[index]? = bytes[index]?.map fun _ => UInt8.ofInt byte := by
  subst h
  exact List.getElem?_set_self'

theorem getElem?_setByte_ne {position : Int} (h : position ≠ index) (byte : Int) :
    (setByte bytes position byte)[index]? = bytes[index]? := by
  cases position with
  | ofNat place => exact List.getElem?_set_ne fun heq => h (congrArg Int.ofNat heq)
  | negSucc _ => rfl

/-! ## writing a field -/

@[simp] theorem length_writeBytes (bytes : List UInt8) (offset : Int) (size : Nat) (value : Int) :
    (writeBytes bytes offset size value).length = bytes.length := by
  induction size generalizing bytes value with
  | zero => rfl
  | succ size ih => rw [writeBytes, ih, length_setByte]

/-- A byte outside the field is left as it is. -/
theorem getElem?_writeBytes_outside (h : ∀ i : Nat, i < size → offset + i ≠ index) :
    (writeBytes bytes offset size value)[index]? = bytes[index]? := by
  induction size generalizing bytes value with
  | zero => rfl
  | succ size ih =>
    rw [writeBytes, ih fun i hi => h i (by omega), getElem?_setByte_ne (h size (by omega))]

/-- A byte of the field that is there is set to a digit: the last one to the last
digit. -/
theorem getElem?_writeBytes (h : i < size) (hindex : offset + i = index) :
    (writeBytes bytes offset size value)[index]? =
      bytes[index]?.map fun _ => UInt8.ofInt (digit value (size - 1 - i)) := by
  induction size generalizing bytes value with
  | zero => omega
  | succ size ih =>
    rw [writeBytes]
    by_cases hlast : i = size
    · -- The rounds that follow only reach bytes further in front.
      have hplace : size + 1 - 1 - i = 0 := by omega
      rw [getElem?_writeBytes_outside (by omega), getElem?_setByte_self (hlast ▸ hindex), hplace,
        digit_zero]
    · have hlt : i < size := by omega
      have hplace : size + 1 - 1 - i = size - 1 - i + 1 := by omega
      rw [ih hlt, getElem?_setByte_ne (by omega), hplace, digit_succ]

/-- A field that lies inside the bytes holds the last digits. -/
theorem slice_writeBytes {start : Nat} (hoffset : offset = start)
    (h : start + size ≤ bytes.length) :
    ((writeBytes bytes offset size value).drop start).take size = digits size value := by
  apply List.ext_getElem?
  intro i
  by_cases hi : i < size
  · have hlt : start + i < bytes.length := by omega
    have hindex : offset + i = (start + i : Nat) := by omega
    rw [List.getElem?_take_of_lt hi, List.getElem?_drop, getElem?_writeBytes hi hindex,
      List.getElem?_eq_getElem hlt, Option.map_some, getElem?_digits value hi]
  · rw [List.getElem?_eq_none (by rw [List.length_take]; omega),
      List.getElem?_eq_none (by rw [length_digits]; omega)]

/-! ## 32-bit integers -/

theorem wrap_emod (value : Int) : wrap value % 0x100000000 = value % 0x100000000 := Int.bmod_emod

theorem le_wrap (value : Int) : -0x80000000 ≤ wrap value :=
  Int.le_bmod (m := 0x100000000) (by decide)

theorem wrap_lt (value : Int) : wrap value < 0x80000000 :=
  Int.bmod_lt (m := 0x100000000) (by decide)

theorem wrap_of_fits (h : -0x80000000 ≤ value) (h' : value < 0x80000000) : wrap value = value :=
  Int.bmod_eq_of_le h h'

/-- A field of one byte holds the remainder modulo 256. -/
theorem write_one (value : Int) : write [0] 0 1 value = [UInt8.ofInt value] := by
  have hmod : wrap value % 256 = value % 256 := by
    have := wrap_emod value
    omega
  rw [write, writeBytes, writeBytes, hmod]
  simp [setByte, UInt8.ofInt_emod]

/-! ## masks and shifts -/

/-- Write a value into a field by operations on 32-bit words: each round wraps what is
left of the value, masks its low byte, and shifts the byte out, copying the sign. -/
def shiftBytes (bytes : List UInt8) (offset : Int) : Nat → Int → List UInt8
  | 0, _ => bytes
  | size + 1, value =>
    let word := Int32.ofInt value
    shiftBytes (setByte bytes (offset + size) (word &&& 255).toInt) offset size (word >>> 8).toInt

theorem toInt_ofInt_and (value : Int) : (Int32.ofInt value &&& 255).toInt = value % 256 := by
  have hmask (word : Nat) : word &&& (255 : Int32).toBitVec.toNat = word % 256 :=
    Nat.and_two_pow_sub_one_eq_mod word 8
  have hword : ((Int32.ofInt value).toBitVec.toNat : Int) = value % 0x100000000 := by
    rw [Int32.toBitVec_ofInt, BitVec.toNat_ofInt]
    exact Int.toNat_of_nonneg (Int.emod_nonneg _ (by decide))
  rw [← Int32.toInt_toBitVec, Int32.toBitVec_and, BitVec.toInt_and, hmask, Int.natCast_emod, hword]
  show Int.bmod (value % 0x100000000 % 256) 0x100000000 = _
  rw [Int.emod_emod_of_dvd _ (by decide), Int.bmod_eq_of_le (by omega) (by omega)]

theorem toInt_ofInt_shiftRight (value : Int) :
    (Int32.ofInt value >>> 8).toInt = wrap value / 256 := by
  rw [← Int32.toInt_toBitVec, Int32.toBitVec_shiftRight]
  show (BitVec.sshiftRight _ 8).toInt = _
  rw [BitVec.toInt_sshiftRight, Int32.toInt_toBitVec, Int32.toInt_ofInt, Int.shiftRight_eq_div_pow]
  rfl

/-- Masking and shifting words writes the digits of the word that the value wraps to;
what is left after a round needs no more wrapping. -/
theorem shiftBytes_eq (bytes : List UInt8) (offset : Int) (size : Nat) (value : Int) :
    shiftBytes bytes offset size value = write bytes offset size value := by
  induction size generalizing bytes value with
  | zero => rfl
  | succ size ih =>
    have hmod : value % 256 = wrap value % 256 := by
      have := wrap_emod value
      omega
    have hfits : wrap (wrap value / 256) = wrap value / 256 := by
      have hle := le_wrap value
      have hlt := wrap_lt value
      exact wrap_of_fits (by omega) (by omega)
    rw [shiftBytes, toInt_ofInt_and, toInt_ofInt_shiftRight, ih, write, hfits, hmod]
    rfl

/-- Writing a value fills the field with its two's complement, the most significant
byte first, wherever the field lies.  With `word` the signed 32-bit integer that the
value is congruent to modulo `2 ^ 32`: byte `i` of the field, if it is there, becomes
the digit of `word` at place `size - 1 - i`, so that the bytes in front of the last
four repeat the sign; every other byte stays, and so does the length.  A field inside
the bytes then spells `word` modulo `256 ^ size`.  All this is what masking and
shifting words does. -/
theorem write_fills_field (bytes : List UInt8) (offset : Int) (size : Nat) (value : Int) :
    let word := wrap value
    let written := write bytes offset size value
    (-0x80000000 ≤ word ∧ word < 0x80000000 ∧ word % 0x100000000 = value % 0x100000000) ∧
      written.length = bytes.length ∧
      (∀ i index : Nat, i < size → offset + i = index → index < bytes.length →
        written[index]?.map (fun byte => (byte.toNat : Int)) =
          some (word / Nat.pow 256 (size - 1 - i) % 256)) ∧
      (∀ i index : Nat, i + 4 < size → offset + i = index → index < bytes.length →
        written[index]? = some (if word < 0 then 255 else 0)) ∧
      (∀ index : Nat, (∀ i : Nat, i < size → offset + i ≠ index) →
        written[index]? = bytes[index]?) ∧
      (∀ start : Nat, offset = start → start + size ≤ bytes.length →
        (number ((written.drop start).take size) : Int) = word % Nat.pow 256 size) ∧
      written = shiftBytes bytes offset size value := by
  intro word written
  have hbyte {i index : Nat} (hi : i < size) (hindex : offset + i = index)
      (hlt : index < bytes.length) :
      written[index]? = some (UInt8.ofInt (digit word (size - 1 - i))) := by
    show (writeBytes bytes offset size word)[index]? = _
    rw [getElem?_writeBytes hi hindex, List.getElem?_eq_getElem hlt, Option.map_some]
  refine ⟨⟨le_wrap value, wrap_lt value, wrap_emod value⟩, length_writeBytes .., ?_, ?_, ?_, ?_,
    (shiftBytes_eq ..).symm⟩
  · intro i index hi hindex hlt
    rw [hbyte hi hindex hlt, Option.map_some, toNat_ofInt_digit, digit]
  · intro i index hi hindex hlt
    have hsign := digit_of_four_le (by omega : 4 ≤ size - 1 - i) (le_wrap value) (wrap_lt value)
    rw [hbyte (by omega) hindex hlt, hsign]
    split <;> rfl
  · intro index houtside
    exact getElem?_writeBytes_outside houtside
  · intro start hoffset hinside
    show (number (((writeBytes bytes offset size word).drop start).take size) : Int) = _
    rw [slice_writeBytes hoffset hinside, number_digits]

/-- A field that begins in front of the bytes, and a wide one inside them: of
`2 ^ 53 - 258`, which wraps to `-258`, they hold what fits, and copies of the sign. -/
theorem write_fills_field_negative :
    let bytes : List UInt8 := [1, 2, 3, 4, 5, 6, 7]
    let cut := write bytes (-3) 5 9007199254740734
    let wide := write bytes 1 5 9007199254740734
    cut[0]?.map (fun byte => (byte.toNat : Int)) = some 254 ∧ cut[2]? = some 3 ∧
      wide[1]? = some 255 ∧
      (number ((wide.drop 1).take 5) : Int) = 1099511627776 - 258 := by
  intro bytes cut wide
  obtain ⟨-, -, hcut, -, houtside, -⟩ := write_fills_field bytes (-3) 5 9007199254740734
  obtain ⟨-, -, -, hsign, -, hnumber, -⟩ := write_fills_field bytes 1 5 9007199254740734
  exact ⟨hcut 3 0 (by decide) (by decide) (by decide), houtside 2 (by omega),
    hsign 0 1 (by decide) (by decide) (by decide), hnumber 1 (by decide) (by decide)⟩

end Field

end Lox
