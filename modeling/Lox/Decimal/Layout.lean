import Lox.Decimal.Shortest
import Lox.Text

/-!
# Lox.Decimal.Layout

Writing binary64 numbers.

A number is taken apart into sign, exponent and fraction; its magnitude is
written with the digits of `Binary.shortest`.  A `Layout` says from where to
where the point is written among the digits, and how the rest is written.
-/

namespace Lox.Decimal

/-! ## layouts -/

/-- How numbers are written. -/
structure Layout where
  /-- The point stands among the digits if at least this many digits, counted
  from the first one, come before it. -/
  pointFrom : Int
  /-- The point stands among the digits if at most this many digits come
  before it. -/
  pointTo : Int
  /-- What stands between digits and exponent. -/
  exponentMark : Text
  /-- The sign of an exponent that is not negative. -/
  plusSign : Text
  /-- What stands for the values that are no numbers, and for values beyond
  all numbers. -/
  notANumber : Text
  infinity : Text

namespace Layout

/-- `count` zero digits. -/
def zeros (count : Nat) : Text := List.replicate count (unit '0')

/-- Digits with a point after the first `point` of them. -/
def positional (digits : Text) (point : Int) : Text :=
  if point ≤ 0 then
    text "0." ++ zeros (-point).toNat ++ digits
  else if digits.length ≤ point.toNat then
    digits ++ zeros (point.toNat - digits.length)
  else
    digits.take point.toNat ++ text "." ++ digits.drop point.toNat

/-- Digits with a point after the first one, and the power of ten. -/
def scientific (layout : Layout) (digits : Text) (exponent : Int) : Text :=
  let tail := digits.drop 1
  let mantissa := digits.take 1 ++ (if tail = [] then [] else text "." ++ tail)
  let sign := if exponent < 0 then text "-" else layout.plusSign
  mantissa ++ layout.exponentMark ++ sign ++ Text.ofNat exponent.natAbs

/-- A decimal number, in one of the two forms. -/
def decimal (layout : Layout) (d : Scaled) : Text :=
  let digits := Text.ofNat d.digits
  let point := digits.length + d.exponent
  if layout.pointFrom ≤ point ∧ point ≤ layout.pointTo then positional digits point
  else layout.scientific digits (point - 1)

end Layout

/-! ## binary64 numbers -/

/-- The parts of a binary64 number: the sign bit, eleven bits of exponent,
fifty-two bits of fraction. -/
structure Parts where
  negative : Bool
  exponent : Nat
  fraction : Nat
  deriving DecidableEq, Repr

/-- Fractions lie below this number, which is also the bit that a normal
number has in front of its fraction. -/
def fractionRange : Nat := 0x10000000000000

/-- Take a number apart. -/
def Parts.ofFloat (x : Float) : Parts :=
  let bits := x.toBits.toNat
  ⟨(bits >>> 63) % 2 == 1, (bits >>> 52) % 0x800, bits % fractionRange⟩

/-- The magnitude of a finite number other than zero. -/
def Parts.binary (p : Parts) : Binary :=
  if p.exponent = 0 then ⟨p.fraction, -1074, false⟩
  else ⟨fractionRange + p.fraction, p.exponent - 1075, p.fraction == 0 && p.exponent != 1⟩

/-- Write a number. -/
def Layout.number (layout : Layout) (x : Float) : Text :=
  let p := Parts.ofFloat x
  if p.exponent = 2047 ∧ p.fraction ≠ 0 then layout.notANumber
  else
    let magnitude :=
      if p.exponent = 2047 then layout.infinity
      else if p.exponent = 0 ∧ p.fraction = 0 then text "0"
      else layout.decimal p.binary.shortest
    if p.negative then text "-" ++ magnitude else magnitude

end Lox.Decimal
