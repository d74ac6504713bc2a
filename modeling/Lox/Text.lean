/-!
# Lox.Text

Texts as sequences of 16-bit code units.

Source texts, string contents and everything that is written are counted,
cut and compared in code units: a character of the basic plane is one unit,
any other character is a pair of surrogates.  Keeping the units in a list
makes offsets lengths and concatenation `++`.  `String`s are met only at the
boundary (`Text.ofString`, `Text.toString`) and in literals (`text`).
-/

namespace Lox

/-- One 16-bit code unit of a text. -/
abbrev CodeUnit := UInt16

/-- A text is the list of its code units. -/
abbrev Text := List CodeUnit

/-- The code unit of a character of the basic plane. -/
def unit (c : Char) : CodeUnit := c.val.toUInt16

/-- The line separator. -/
def newline : CodeUnit := unit '\n'

namespace Text

/-! ## characters as code units -/

/-- The code units of a character: itself, or a high and a low surrogate
that share the twenty bits above the basic plane. -/
def ofChar (c : Char) : Text :=
  if c.toNat < 0x10000 then
    [unit c]
  else
    let excess := c.toNat - 0x10000
    [UInt16.ofNat (0xD800 + excess / 0x400), UInt16.ofNat (0xDC00 + excess % 0x400)]

/-- The code units of a string. -/
def ofString (s : String) : Text := s.toList.flatMap ofChar

/-- High surrogates open a pair. -/
def isHighSurrogate (u : CodeUnit) : Bool := 0xD800 ≤ u && u ≤ 0xDBFF

/-- Low surrogates close a pair. -/
def isLowSurrogate (u : CodeUnit) : Bool := 0xDC00 ≤ u && u ≤ 0xDFFF

/-- The character of a unit that stands alone; a lone surrogate is shown as
the replacement character. -/
def charOfUnit (u : CodeUnit) : Char :=
  if isHighSurrogate u || isLowSurrogate u then '\uFFFD' else Char.ofNat u.toNat

/-- The character of a surrogate pair. -/
def charOfPair (high low : CodeUnit) : Char :=
  Char.ofNat (0x10000 + (high.toNat - 0xD800) * 0x400 + (low.toNat - 0xDC00))

/-- The characters of a text, reading surrogates in pairs. -/
def toChars : Text → List Char
  | [] => []
  | [u] => [charOfUnit u]
  | u :: v :: rest =>
    if isHighSurrogate u && isLowSurrogate v then
      charOfPair u v :: toChars rest
    else
      charOfUnit u :: toChars (v :: rest)

/-- The string with the characters of a text. -/
def toString (t : Text) : String := String.ofList (toChars t)

/-! ## numerals and padding -/

/-- The decimal numeral of a natural number. -/
def ofNat (n : Nat) : Text := (Nat.toDigits 10 n).map unit

/-- The decimal numeral of an integer, with a minus sign below zero. -/
def ofInt : Int → Text
  | .ofNat n => ofNat n
  | .negSucc n => unit '-' :: ofNat (n + 1)

/-- `width` blanks. -/
def blanks (width : Nat) : Text := List.replicate width (unit ' ')

/-- Right-align in a field of `width` units; a longer text stays as it is. -/
def alignRight (width : Nat) (t : Text) : Text := blanks (width - t.length) ++ t

/-- Left-align in a field of `width` units; a longer text stays as it is. -/
def alignLeft (width : Nat) (t : Text) : Text := t ++ blanks (width - t.length)

/-- The last `width` units of a text, or all of it if it is shorter. -/
def takeLast (width : Nat) (t : Text) : Text := t.drop (t.length - width)

/-! ## lines -/

/-- How many line separators a text holds. -/
def newlines (t : Text) : Nat := t.count newline

@[simp] theorem newlines_nil : newlines [] = 0 := rfl

@[simp] theorem newlines_append (s t : Text) : newlines (s ++ t) = newlines s + newlines t :=
  List.count_append

end Text

/-- A text written as a string literal. -/
def text (s : String) : Text := Text.ofString s

end Lox
